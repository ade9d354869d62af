/-
Computations that are given fuel and come to one result with all fuel
from some bound on.

What one computation settles on can be handed to the next, which is given
the same fuel: so do programs whose loops have loops in their bodies. For
a loop the bound is found by induction on the measure of its state.
-/
import MctsConnectFour.Lib.While

namespace Loops

variable {α β σ : Type*}

/-- With enough fuel `f` returns `a`. -/
def Settles (f : Nat → α) (a : α) : Prop := ∃ bound, ∀ fuel, bound ≤ fuel → f fuel = a

theorem settles_const (a : α) : Settles (fun _ => a) a := ⟨0, fun _ _ => rfl⟩

/-- What more fuel does not change is settled when it is found. -/
theorem settles_of_mono {f : Nat → Option α} {a : α} {fuel : Nat}
    (hmono : ∀ {fuel fuel'}, fuel ≤ fuel' → f fuel = some a → f fuel' = some a)
    (h : f fuel = some a) : Settles f (some a) :=
  ⟨fuel, fun _ hle => hmono hle h⟩

theorem Settles.bind {f : Nat → Option α} {g : Nat → α → Option β} {a : α} {r : Option β}
    (hf : Settles f (some a)) (hg : Settles (fun fuel => g fuel a) r) :
    Settles (fun fuel => (f fuel).bind (g fuel)) r := by
  obtain ⟨m, hm⟩ := hf
  obtain ⟨n, hn⟩ := hg
  refine ⟨max m n, fun fuel hfuel => ?_⟩
  show (f fuel).bind (g fuel) = r
  rw [hm fuel ((le_max_left m n).trans hfuel), Option.bind_some]
  exact hn fuel ((le_max_right m n).trans hfuel)

theorem Settles.bind_none {f : Nat → Option α} (hf : Settles f none)
    (g : Nat → α → Option β) : Settles (fun fuel => (f fuel).bind (g fuel)) none := by
  obtain ⟨m, hm⟩ := hf
  refine ⟨m, fun fuel hfuel => ?_⟩
  show (f fuel).bind (g fuel) = none
  rw [hm fuel hfuel, Option.bind_none]

theorem Settles.map {f : Nat → Option α} {a : α} (hf : Settles f (some a)) (g : α → β) :
    Settles (fun fuel => (f fuel).map g) (some (g a)) := by
  obtain ⟨m, hm⟩ := hf
  refine ⟨m, fun fuel hfuel => ?_⟩
  show (f fuel).map g = some (g a)
  rw [hm fuel hfuel, Option.map_some]

variable {c : σ → Bool} {b : Nat → σ → Option σ}

/-- The rule of a loop whose body takes fuel: every turn settles on a
state that keeps the invariant and lowers the measure. -/
theorem whileLoop_settles {I : σ → Prop} (μ : σ → Nat)
    (hstep : ∀ s, I s → c s = true →
      ∃ s', Settles (fun fuel => b fuel s) (some s') ∧ I s' ∧ μ s' < μ s)
    {s : σ} (hI : I s) :
    ∃ s', Settles (fun fuel => whileLoop c (b fuel) fuel s) (some s')
      ∧ I s' ∧ c s' = false := by
  -- the loop and its body may have different fuel
  have hgo : ∀ (d : Nat) (s : σ), μ s ≤ d → I s → ∃ s' bound,
      (∀ fuel n, bound ≤ fuel → bound ≤ n → whileLoop c (b fuel) n s = some s')
        ∧ I s' ∧ c s' = false := by
    intro d
    induction d with
    | zero =>
        intro s hd hI
        cases hc : c s with
        | true =>
            obtain ⟨s', -, -, hlt⟩ := hstep s hI hc
            omega
        | false => exact ⟨s, 0, fun fuel n _ _ => whileLoop_done hc n, hI, hc⟩
    | succ d ih =>
        intro s hd hI
        cases hc : c s with
        | true =>
            obtain ⟨s₁, ⟨m, hm⟩, hI₁, hlt⟩ := hstep s hI hc
            obtain ⟨s', bound, hrest, hI', hdone⟩ := ih s₁ (by omega) hI₁
            refine ⟨s', max m bound + 1, fun fuel n hfuel hn => ?_, hI', hdone⟩
            obtain ⟨k, rfl⟩ : ∃ k, n = k + 1 := ⟨n - 1, by omega⟩
            have hturn : b fuel s = some s₁ := hm fuel (by omega)
            rw [whileLoop_step hc, hturn, Option.bind_some]
            exact hrest fuel k (by omega) (by omega)
        | false => exact ⟨s, 0, fun fuel n _ _ => whileLoop_done hc n, hI, hc⟩
  obtain ⟨s', bound, hrun, hI', hdone⟩ := hgo (μ s) s le_rfl hI
  exact ⟨s', ⟨bound, fun fuel hfuel => hrun fuel fuel hfuel hfuel⟩, hI', hdone⟩

end Loops
