/-
Owners of resources, and the books that are kept of these.

`Owned own out` says that what is handed out, and nothing else, is owned,
and by one owner each. Taking a resource that is not out, giving back some
of those that are, and renaming the owners keep it (`Owned.take`,
`Owned.release`, `Owned.permute`); an owner that lets go of a resource
without giving it back does not (`Owned.leak`).

`Ledger taken returned out` compares the list of what has been taken with
the list of what has been returned, where a resource may be taken again
once it has been returned: what is out has been taken once more than it
has been returned, and all else as often. So nothing is returned that is
not out, and in the end nothing is missing.
-/
import Mathlib.Logic.Equiv.Basic
import Mathlib.Data.List.Nodup
import Mathlib.Data.List.Count
import Mathlib.Tactic.Common

namespace Ownership

variable {ι α : Type*} {own own' : ι → α → Prop} {out out' : α → Prop} {i : ι} {a : α}

-- ============================================================= owners

/-- What is out has one owner, and what has an owner is out. -/
structure Owned (own : ι → α → Prop) (out : α → Prop) : Prop where
  out_iff : ∀ a, out a ↔ ∃ i, own i a
  unique : ∀ {i j a}, own i a → own j a → i = j

theorem Owned.mem (h : Owned own out) (ha : own i a) : out a := (h.out_iff a).mpr ⟨i, ha⟩

/-- A resource that is not out is taken by `i`. -/
theorem Owned.take (h : Owned own out) (ha : ¬ out a)
    (hown : ∀ j b, own' j b ↔ own j b ∨ j = i ∧ b = a) (hout : ∀ b, out' b ↔ out b ∨ b = a) :
    Owned own' out' := by
  refine ⟨fun b => ?_, fun {j k b} hj hk => ?_⟩
  · rw [hout, h.out_iff]
    constructor
    · intro h'
      rcases h' with ⟨j, hj⟩ | hb
      · exact ⟨j, (hown j b).mpr (Or.inl hj)⟩
      · exact ⟨i, (hown i b).mpr (Or.inr ⟨rfl, hb⟩)⟩
    · intro h'
      obtain ⟨j, hj⟩ := h'
      exact ((hown j b).mp hj).imp (fun hj => ⟨j, hj⟩) And.right
  · rcases (hown j b).mp hj with hj | ⟨rfl, rfl⟩
    · rcases (hown k b).mp hk with hk | ⟨-, rfl⟩
      · exact h.unique hj hk
      · exact absurd (h.mem hj) ha
    · rcases (hown k b).mp hk with hk | ⟨rfl, -⟩
      · exact absurd (h.mem hk) ha
      · rfl

/-- Some resources are given back. -/
theorem Owned.release (h : Owned own out) (P : α → Prop) (hown : ∀ j b, own' j b ↔ own j b ∧ ¬ P b)
    (hout : ∀ b, out' b ↔ out b ∧ ¬ P b) : Owned own' out' := by
  refine ⟨fun b => ?_, fun {j k b} hj hk => h.unique ((hown j b).mp hj).1 ((hown k b).mp hk).1⟩
  rw [hout, h.out_iff]
  constructor
  · intro h'
    obtain ⟨⟨j, hj⟩, hb⟩ := h'
    exact ⟨j, (hown j b).mpr ⟨hj, hb⟩⟩
  · intro h'
    obtain ⟨j, hj⟩ := h'
    obtain ⟨hj, hb⟩ := (hown j b).mp hj
    exact ⟨⟨j, hj⟩, hb⟩

/-- A resource goes from one owner to another. -/
theorem Owned.move (h : Owned own out) {j : ι} (ha : own i a)
    (hown : ∀ k b, own' k b ↔ own k b ∧ b ≠ a ∨ k = j ∧ b = a) (hout : ∀ b, out' b ↔ out b) :
    Owned own' out' := by
  have hreleased : Owned (fun k b => own k b ∧ ¬ b = a) fun b => out b ∧ ¬ b = a :=
    h.release (· = a) (fun _ _ => Iff.rfl) fun _ => Iff.rfl
  refine hreleased.take (i := j) (a := a) (fun hgone => hgone.2 rfl) hown fun b => ?_
  rw [hout]
  by_cases hba : b = a
  · exact iff_of_true (hba ▸ h.mem ha) (Or.inr hba)
  · exact ⟨fun hb => Or.inl ⟨hb, hba⟩, fun hb => (hb.resolve_right hba).1⟩

/-- Owners exchange what they own. -/
theorem Owned.permute (h : Owned own out) (σ : Equiv.Perm ι) (hown : ∀ j b, own' j b ↔ own (σ j) b)
    (hout : ∀ b, out' b ↔ out b) : Owned own' out' := by
  refine ⟨fun b => ?_, fun {j k b} hj hk => ?_⟩
  · rw [hout, h.out_iff]
    constructor
    · intro h'
      obtain ⟨j, hj⟩ := h'
      exact ⟨σ.symm j, (hown _ b).mpr (by rwa [σ.apply_symm_apply])⟩
    · intro h'
      obtain ⟨j, hj⟩ := h'
      exact ⟨σ j, (hown j b).mp hj⟩
  · exact σ.injective (h.unique ((hown j b).mp hj) ((hown k b).mp hk))

theorem Owned.congr (h : Owned own out) (hown : ∀ j b, own' j b ↔ own j b)
    (hout : ∀ b, out' b ↔ out b) : Owned own' out' := h.permute (Equiv.refl ι) hown hout

/-- Nobody else owns what its owner has let go of. -/
theorem Owned.leak (h : Owned own out) (ha : own i a) (hgone : ¬ own' i a)
    (hother : ∀ j, j ≠ i → own' j a → own j a) (hout : out' a) : ¬ Owned own' out' := by
  intro h'
  obtain ⟨j, hj⟩ := (h'.out_iff a).mp hout
  by_cases hji : j = i
  · exact hgone (hji ▸ hj)
  · exact hji (h.unique (hother j hji hj) ha)

section Out

/-- Where what is out is what has an owner, it follows the owners. -/
theorem out_take (hown : ∀ j b, own' j b ↔ own j b ∨ j = i ∧ b = a) (b : α) :
    (∃ j, own' j b) ↔ (∃ j, own j b) ∨ b = a := by
  simp only [hown, exists_or, exists_eq_left]

theorem out_release {P : α → Prop} (hown : ∀ j b, own' j b ↔ own j b ∧ ¬ P b) (b : α) :
    (∃ j, own' j b) ↔ (∃ j, own j b) ∧ ¬ P b := by
  simp only [hown, exists_and_right]

theorem out_move {j : ι} (ha : own i a)
    (hown : ∀ k b, own' k b ↔ own k b ∧ b ≠ a ∨ k = j ∧ b = a) (b : α) :
    (∃ k, own' k b) ↔ ∃ k, own k b := by
  simp only [hown]
  by_cases hba : b = a
  · exact iff_of_true ⟨j, Or.inr ⟨rfl, hba⟩⟩ ⟨i, hba ▸ ha⟩
  · simp [hba]

end Out

-- ============================================================== books

variable [DecidableEq α] {taken returned l : List α}

/-- What is out has been taken once more than it has been returned. -/
structure Ledger (taken returned : List α) (out : α → Prop) : Prop where
  away : ∀ {a}, out a → taken.count a = returned.count a + 1
  home : ∀ {a}, ¬ out a → taken.count a = returned.count a

theorem ledger_nil (hout : ∀ a, ¬ out a) : Ledger [] [] out :=
  ⟨fun ha => absurd ha (hout _), fun _ => rfl⟩

theorem Ledger.congr (h : Ledger taken returned out) (hout : ∀ b, out' b ↔ out b) :
    Ledger taken returned out' :=
  ⟨fun hb => h.away ((hout _).mp hb), fun hb => h.home fun hb' => hb ((hout _).mpr hb')⟩

theorem Ledger.take (h : Ledger taken returned out) (ha : ¬ out a)
    (hout : ∀ b, out' b ↔ out b ∨ b = a) : Ledger (a :: taken) returned out' := by
  refine ⟨fun {b} hb => ?_, fun {b} hb => ?_⟩
  · by_cases hba : b = a
    · subst hba
      rw [List.count_cons_self, h.home ha]
    · rw [List.count_cons_of_ne (Ne.symm hba), h.away (((hout b).mp hb).resolve_right hba)]
  · have hb := mt (hout b).mpr hb
    rw [List.count_cons_of_ne fun heq => hb (Or.inr heq.symm), h.home fun hb' => hb (Or.inl hb')]

/-- All of `l` is returned, each once. -/
theorem Ledger.release (h : Ledger taken returned out) (hl : ∀ b ∈ l, out b) (hnodup : l.Nodup)
    (hout : ∀ b, out' b ↔ out b ∧ b ∉ l) : Ledger taken (l ++ returned) out' := by
  refine ⟨fun {b} hb => ?_, fun {b} hb => ?_⟩
  · obtain ⟨hb, hnot⟩ := (hout b).mp hb
    rw [List.count_append, List.count_eq_zero_of_not_mem hnot, h.away hb, Nat.zero_add]
  · by_cases hmem : b ∈ l
    · rw [List.count_append, List.count_eq_one_of_mem hnodup hmem, h.away (hl b hmem), Nat.add_comm]
    · rw [List.count_append, List.count_eq_zero_of_not_mem hmem, Nat.zero_add]
      exact h.home fun hb' => hb ((hout b).mpr ⟨hb', hmem⟩)

end Ownership
