/-
Locks that exclude, and threads that wait for them.

A lock names the thread that has it, or none. What a thread holds is read
off the place it is at in its program, `H`; `Tracks H lock th` says that
the two agree, and then no lock has two holders (`Tracks.unique`). A thread
that gets on and takes a free lock, or gives back one that it has, keeps
it.

`exists_not_waiting` is why nobody waits for ever: where every thread waits
for threads of lower rank only, some thread does not wait.
-/
import Mathlib.Data.Finset.Insert
import Mathlib.Data.Finset.Erase
import Mathlib.Logic.Function.Basic
import Mathlib.Tactic.Common

namespace Locks

variable {ℓ τ σ : Type*} {H : σ → ℓ → Prop} {lock : ℓ → Option τ} {th : τ → σ} {x : σ} {i j : τ}
  {l : ℓ}

/-- The locks name who holds them. -/
def Tracks (H : σ → ℓ → Prop) (lock : ℓ → Option τ) (th : τ → σ) : Prop :=
  ∀ l i, lock l = some i ↔ H (th i) l

theorem Tracks.unique (h : Tracks H lock th) (hi : H (th i) l) (hj : H (th j) l) : i = j :=
  Option.some.inj (((h l i).mpr hi).symm.trans ((h l j).mpr hj))

/-- A lock that nobody holds is free. -/
theorem Tracks.free (h : Tracks H lock th) (hnone : ∀ i, ¬ H (th i) l) : lock l = none :=
  Option.eq_none_iff_forall_ne_some.mpr fun i hi => hnone i ((h l i).mp hi)

variable [DecidableEq τ]

/-- A thread gets on and holds what it has held. -/
theorem Tracks.stay (h : Tracks H lock th) (hx : ∀ l, H x l ↔ H (th i) l) :
    Tracks H lock (Function.update th i x) := by
  intro l j
  rw [h l j]
  by_cases hj : j = i
  · subst hj
    rw [Function.update_self, hx]
  · rw [Function.update_of_ne hj]

variable [DecidableEq ℓ]

/-- A thread takes a lock that is free. -/
theorem Tracks.acquire (h : Tracks H lock th) (hfree : lock l = none)
    (hx : ∀ m, H x m ↔ H (th i) m ∨ m = l) :
    Tracks H (Function.update lock l (some i)) (Function.update th i x) := by
  intro m j
  by_cases hm : m = l
  · subst hm
    rw [Function.update_self]
    by_cases hj : j = i
    · subst hj
      rw [Function.update_self, hx]
      simp
    · rw [Function.update_of_ne hj, ← h, hfree]
      simp [Ne.symm hj]
  · rw [Function.update_of_ne hm, h]
    by_cases hj : j = i
    · subst hj
      rw [Function.update_self, hx]
      simp [hm]
    · rw [Function.update_of_ne hj]

/-- A thread gives back a lock that it has. -/
theorem Tracks.release (h : Tracks H lock th) (hi : H (th i) l)
    (hx : ∀ m, H x m ↔ H (th i) m ∧ m ≠ l) :
    Tracks H (Function.update lock l none) (Function.update th i x) := by
  intro m j
  by_cases hm : m = l
  · subst hm
    rw [Function.update_self]
    refine iff_of_false (by simp) fun hj => ?_
    by_cases hji : j = i
    · rw [hji, Function.update_self, hx] at hj
      exact hj.2 rfl
    · rw [Function.update_of_ne hji] at hj
      exact hji (h.unique hj hi)
  · rw [Function.update_of_ne hm, h]
    by_cases hj : j = i
    · subst hj
      rw [Function.update_self, hx]
      simp [hm]
    · rw [Function.update_of_ne hj]

/-- The shared locks name who holds them. -/
def Shares (H : σ → ℓ → Prop) (lock : ℓ → Finset τ) (th : τ → σ) : Prop :=
  ∀ l i, i ∈ lock l ↔ H (th i) l

variable {shared : ℓ → Finset τ}

omit [DecidableEq τ] [DecidableEq ℓ] in
/-- A lock that nobody holds is free. -/
theorem Shares.free (h : Shares H shared th) (hnone : ∀ i, ¬ H (th i) l) : shared l = ∅ :=
  Finset.eq_empty_iff_forall_notMem.mpr fun i hi => hnone i ((h l i).mp hi)

omit [DecidableEq ℓ] in
/-- A thread gets on and holds what it has held. -/
theorem Shares.stay (h : Shares H shared th) (hx : ∀ l, H x l ↔ H (th i) l) :
    Shares H shared (Function.update th i x) := by
  intro l j
  rw [h l j]
  by_cases hj : j = i
  · subst hj
    rw [Function.update_self, hx]
  · rw [Function.update_of_ne hj]

/-- A thread joins those who have a lock. -/
theorem Shares.acquire (h : Shares H shared th) (hx : ∀ m, H x m ↔ H (th i) m ∨ m = l) :
    Shares H (Function.update shared l (insert i (shared l))) (Function.update th i x) := by
  intro m j
  by_cases hm : m = l
  · subst hm
    rw [Function.update_self, Finset.mem_insert, h]
    by_cases hj : j = i
    · subst hj
      rw [Function.update_self, hx]
      simp
    · rw [Function.update_of_ne hj]
      simp [hj]
  · rw [Function.update_of_ne hm, h]
    by_cases hj : j = i
    · subst hj
      rw [Function.update_self, hx]
      simp [hm]
    · rw [Function.update_of_ne hj]

/-- A thread leaves those who have a lock. -/
theorem Shares.release (h : Shares H shared th) (hx : ∀ m, H x m ↔ H (th i) m ∧ m ≠ l) :
    Shares H (Function.update shared l ((shared l).erase i)) (Function.update th i x) := by
  intro m j
  by_cases hm : m = l
  · subst hm
    rw [Function.update_self, Finset.mem_erase, h]
    by_cases hj : j = i
    · subst hj
      rw [Function.update_self, hx]
      simp
    · rw [Function.update_of_ne hj]
      simp [hj]
  · rw [Function.update_of_ne hm, h]
    by_cases hj : j = i
    · subst hj
      rw [Function.update_self, hx]
      simp [hm]
    · rw [Function.update_of_ne hj]

omit [DecidableEq τ] [DecidableEq ℓ]

/-- Of threads that wait only for threads of lower rank one does not wait. -/
theorem exists_not_waiting {W : τ → τ → Prop} (rank : τ → Nat)
    (hrank : ∀ i j, W i j → rank j < rank i) {p : τ → Prop} (hp : ∀ i j, W i j → p j)
    (i : τ) (hi : p i) : ∃ j, p j ∧ ∀ k, ¬ W j k := by
  induction hn : rank i using Nat.strongRecOn generalizing i with
  | ind n ih =>
      by_cases hwait : ∃ j, W i j
      · obtain ⟨j, hj⟩ := hwait
        exact ih (rank j) (hn ▸ hrank i j hj) j (hp i j hj) rfl
      · exact ⟨i, hi, fun k hk => hwait ⟨k, hk⟩⟩

end Locks
