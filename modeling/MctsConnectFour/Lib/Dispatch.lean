/-
Archives that hand themselves on.

An archive that is called with an object of a class calls the member
`serialize` of the class with itself, and that member calls the archive
with what the object is made of. The two call each other until a member
hands on nothing but values the archive deals with alone. `dispatch` ties
that knot; fuel bounds how deep the calls go.

A member that only returns when the archive it is given does never gets
to the bottom (`dispatch_eq_none`).
-/
import Mathlib.Tactic.Common

namespace Codec

/-- Calling an archive with an object and a stream: the object and the
stream as they are left. Writing leaves the object, reading fills it in. -/
abbrev Archiving (α σ : Type) : Type := α → σ → Option (α × σ)

variable {α σ : Type}

/-- An archive called with an object whose class has a member
`serialize`. -/
def dispatch (serialize : Archiving α σ → Archiving α σ) : Nat → Archiving α σ
  | 0 => fun _ _ => none
  | fuel + 1 => serialize (dispatch serialize fuel)

/-- A call that needs another one to return first does not return. -/
theorem dispatch_eq_none {serialize : Archiving α σ → Archiving α σ}
    (hstrict : ∀ archive : Archiving α σ, (∀ a x, archive a x = none) →
      ∀ a x, serialize archive a x = none) :
    ∀ (fuel : Nat) (a : α) (x : σ), dispatch serialize fuel a x = none := by
  intro fuel
  induction fuel with
  | zero => exact fun _ _ => rfl
  | succ fuel ih => exact hstrict _ ih

end Codec
