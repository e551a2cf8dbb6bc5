import Hypertext.Value

/-! Equality of values is decided part by part. An origin is a part, so that values with origins
are equal only if they are one and the same. The main statement is `isEq_iff`: the test holds
exactly of equal values. -/
namespace Hypertext.Value
set_option autoImplicit false

variable {ρ : Type} [DecidableEq ρ]

mutual

def isEq : Value ρ → Value ρ → Bool
  | .scalar s, .scalar t => s == t
  | .list xs, .list ys => isEqList xs ys
  | .record xs, .record ys => isEqFields xs ys
  | .ref r, .ref s => r == s
  | .renderer xs pretty indent, .renderer ys pretty' indent' =>
    isEqList xs ys && (isEq pretty pretty' && isEq indent indent')
  | .made o v, .made o' w => o == o' && isEq v w
  | _, _ => false

def isEqList : List (Value ρ) → List (Value ρ) → Bool
  | [], [] => true
  | x :: xs, y :: ys => isEq x y && isEqList xs ys
  | _, _ => false

def isEqFields : List (String × Value ρ) → List (String × Value ρ) → Bool
  | [], [] => true
  | (name, x) :: xs, (name', y) :: ys => name == name' && (isEq x y && isEqFields xs ys)
  | _, _ => false

end

mutual

theorem isEq_iff (v w : Value ρ) : isEq v w = true ↔ v = w := by
  match v, w with
  | .scalar s, .scalar t => simp [isEq]
  | .list xs, .list ys => simp [isEq, isEqList_iff xs ys]
  | .record xs, .record ys => simp [isEq, isEqFields_iff xs ys]
  | .ref r, .ref s => simp [isEq]
  | .renderer xs pretty indent, .renderer ys pretty' indent' =>
    simp [isEq, isEqList_iff xs ys, isEq_iff pretty pretty', isEq_iff indent indent']
  | .made o v, .made o' w => simp [isEq, isEq_iff v w]
  | .scalar _, .list _ | .scalar _, .record _ | .scalar _, .ref _ | .scalar _, .renderer ..
  | .list _, .scalar _ | .list _, .record _ | .list _, .ref _ | .list _, .renderer ..
  | .record _, .scalar _ | .record _, .list _ | .record _, .ref _ | .record _, .renderer ..
  | .ref _, .scalar _ | .ref _, .list _ | .ref _, .record _ | .ref _, .renderer ..
  | .renderer .., .scalar _ | .renderer .., .list _ | .renderer .., .record _
  | .renderer .., .ref _ | .made .., .scalar _ | .made .., .list _ | .made .., .record _
  | .made .., .ref _ | .made .., .renderer .. | .scalar _, .made .. | .list _, .made ..
  | .record _, .made .. | .ref _, .made .. | .renderer .., .made .. => simp [isEq]

theorem isEqList_iff (xs ys : List (Value ρ)) : isEqList xs ys = true ↔ xs = ys := by
  match xs, ys with
  | [], [] | [], _ :: _ | _ :: _, [] => simp [isEqList]
  | x :: xs, y :: ys => simp [isEqList, isEq_iff x y, isEqList_iff xs ys]

theorem isEqFields_iff (xs ys : List (String × Value ρ)) : isEqFields xs ys = true ↔ xs = ys := by
  match xs, ys with
  | [], [] | [], _ :: _ | _ :: _, [] => simp [isEqFields]
  | (name, x) :: xs, (name', y) :: ys =>
    simp [isEqFields, isEq_iff x y, isEqFields_iff xs ys, and_assoc]

end

instance : DecidableEq (Value ρ) := fun v w => decidable_of_iff _ (isEq_iff v w)

end Hypertext.Value
