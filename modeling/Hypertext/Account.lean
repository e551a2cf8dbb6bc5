import Hypertext.Fault

/-! Accounts of readings: what a reading reports on its way, and its answer or the cause of its
failure. After a failure nothing more is reported. -/
namespace Hypertext
set_option autoImplicit false

structure Account (ε α : Type) where
  reports : Array ε
  result : Except Fault α

namespace Account

variable {ε α β : Type}

instance : Monad (Account ε) where
  pure a := ⟨#[], .ok a⟩
  bind first next :=
    match first with
    | ⟨reports, .error fault⟩ => ⟨reports, .error fault⟩
    | ⟨reports, .ok a⟩ =>
      let second := next a
      ⟨reports ++ second.reports, second.result⟩

def report (e : ε) : Account ε Unit := ⟨#[e], .ok ()⟩

def ofExcept (result : Except Fault α) : Account ε α := ⟨#[], result⟩

def fail (fault : Fault) : Account ε α := ofExcept (.error fault)

/-- Steps taken one after the other, each from what the one before has left. -/
def fold (step : β → α → Account ε β) (start : β) (items : List α) : Account ε β :=
  items.foldl (fun account item => account >>= (step · item)) (pure start)

def text (account : Account ε String) : String :=
  match account.result with
  | .ok s => s
  | .error _ => ""

/-! ## Laws -/

theorem pure_bind (a : α) (next : α → Account ε β) : (pure a >>= next) = next a := by
  show (⟨#[] ++ (next a).reports, (next a).result⟩ : Account ε β) = next a
  simp

end Account

end Hypertext
