/-! What the machine that a program runs on can bear. No rule of the markup fixes these figures, so
whatever depends on them takes them as a parameter. -/
namespace Hypertext
set_option autoImplicit false

structure Limits where
  /-- The greatest length of a text made by repeating another one, which is the one way to ask for
  any amount of memory at once. -/
  capacity : Nat
  /-- How deep the lists and records of a JSON text that is read may be nested. -/
  depth : Nat
  deriving DecidableEq, Repr

/-- The least limits. What comes near no limit is the same under them as under any others. -/
def Limits.least : Limits := ⟨0, 0⟩

end Hypertext
