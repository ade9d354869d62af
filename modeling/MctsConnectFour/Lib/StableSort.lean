/-
The last element of a list that has been sorted by a key, when the sort is
stable: of the elements with the greatest key, the one that came last.
-/
import Mathlib.Data.List.Sort

namespace StableSort

variable {α β : Type*}

/-- `sorted ( l, key = f ) [ -1 ]`, however the keys compare. -/
def sortedLast (r : β → β → Prop) [DecidableRel r] (f : α → β) (l : List α) : Option α :=
  (l.insertionSort fun x y => r (f x) (f y)).getLast?

section AnyOrder

variable {r : β → β → Prop} [DecidableRel r] {f : α → β} {l : List α} {a : α}

theorem mem_of_sortedLast (h : sortedLast r f l = some a) : a ∈ l :=
  (List.mem_insertionSort _).mp (List.mem_of_getLast? h)

theorem exists_sortedLast (h : l ≠ []) : ∃ a, sortedLast r f l = some a := by
  have hne : l.insertionSort (fun x y => r (f x) (f y)) ≠ [] := by
    intro hnil
    have hlen := List.length_insertionSort (fun x y => r (f x) (f y)) l
    rw [hnil] at hlen
    exact h (List.length_eq_zero_iff.mp hlen.symm)
  exact ⟨_, List.getLast?_eq_some_getLast hne⟩

end AnyOrder

section LastMax

variable [LinearOrder β]

/-- `a` is the last element of the list with the greatest value. -/
def LastMax (f : α → β) (l : List α) (a : α) : Prop :=
  ∃ pre post, l = pre ++ a :: post ∧ (∀ b ∈ pre, f b ≤ f a) ∧ ∀ b ∈ post, f b < f a

variable {f : α → β} {l : List α} {a b x : α}

theorem LastMax.mem (h : LastMax f l a) : a ∈ l := by
  obtain ⟨pre, post, rfl, -, -⟩ := h
  exact List.mem_append_right _ (List.mem_cons_self ..)

theorem LastMax.le (h : LastMax f l a) (hb : b ∈ l) : f b ≤ f a := by
  obtain ⟨pre, post, rfl, hpre, hpost⟩ := h
  rcases List.mem_append.mp hb with hb | hb
  · exact hpre b hb
  · rcases List.mem_cons.mp hb with rfl | hb
    · exact le_rfl
    · exact le_of_lt (hpost b hb)

/-- The elements with the greatest value, in the order of the list, end
with the last of them. -/
theorem LastMax.getLast?_filter (h : LastMax f l a) :
    (l.filter fun b => f b = f a).getLast? = some a := by
  obtain ⟨pre, post, rfl, -, hpost⟩ := h
  have hnone : post.filter (fun b => decide (f b = f a)) = [] := by
    apply List.filter_eq_nil_iff.mpr
    intro b hb
    simpa using (hpost b hb).ne
  rw [List.filter_append, List.filter_cons_of_pos (by simp), hnone, List.getLast?_append]
  rfl

theorem LastMax.unique (h : LastMax f l a) (h' : LastMax f l b) : a = b := by
  have hab : f a = f b := le_antisymm (h'.le h.mem) (h.le h'.mem)
  have ha := h.getLast?_filter
  rw [hab, h'.getLast?_filter] at ha
  exact (Option.some.inj ha).symm

/-- Inserting into a sorted list in front of what is not smaller. -/
theorem getLast?_orderedInsert (f : α → β) (x : α) : ∀ {s : List α},
    s.Pairwise (fun x y => f x ≤ f y) → s.getLast? = some b →
      (s.orderedInsert (fun x y => f x ≤ f y) x).getLast?
        = some (if f x ≤ f b then b else x) := by
  intro s
  induction s with
  | nil => simp
  | cons y s ih =>
      intro hs hlast
      obtain ⟨hy, hs⟩ := List.pairwise_cons.mp hs
      have hyb : f y ≤ f b := by
        rcases List.mem_cons.mp (List.mem_of_getLast? hlast) with rfl | hb
        · exact le_rfl
        · exact hy b hb
      rw [List.orderedInsert_cons]
      by_cases hxy : f x ≤ f y
      · rw [if_pos hxy, if_pos (hxy.trans hyb), List.getLast?_cons_cons, hlast]
      · rw [if_neg hxy]
        cases s with
        | nil =>
            obtain rfl : y = b := by simpa using hlast
            rw [if_neg hxy]
            rfl
        | cons z s =>
            rw [List.getLast?_cons_cons] at hlast
            rw [← ih hs hlast, List.getLast?_cons]
            cases hrest : ((z :: s).orderedInsert (fun x y => f x ≤ f y) x).getLast? with
            | none =>
                rw [ih hs hlast] at hrest
                cases hrest
            | some c => rfl

theorem LastMax.cons (h : LastMax f l b) (x : α) :
    LastMax f (x :: l) (if f x ≤ f b then b else x) := by
  by_cases hx : f x ≤ f b
  · rw [if_pos hx]
    obtain ⟨pre, post, rfl, hpre, hpost⟩ := h
    exact ⟨x :: pre, post, rfl, List.forall_mem_cons.mpr ⟨hx, hpre⟩, hpost⟩
  · rw [if_neg hx]
    exact ⟨[], l, rfl, by simp, fun c hc => lt_of_le_of_lt (h.le hc) (not_le.mp hx)⟩

theorem exists_lastMax (f : α → β) : ∀ {l : List α}, l ≠ [] →
    ∃ a, LastMax f l a ∧ sortedLast (· ≤ ·) f l = some a := by
  intro l
  induction l with
  | nil => exact fun h => absurd rfl h
  | cons x l ih =>
      intro _
      by_cases hl : l = []
      · subst hl
        exact ⟨x, ⟨[], [], rfl, by simp, by simp⟩, rfl⟩
      · obtain ⟨b, hmax, hlast⟩ := ih hl
        have htrans : IsTrans α fun x y => f x ≤ f y := ⟨fun _ _ _ => le_trans⟩
        have htotal : Std.Total fun x y : α => f x ≤ f y := ⟨fun _ _ => le_total ..⟩
        exact ⟨_, hmax.cons x,
          getLast?_orderedInsert f x (List.pairwise_insertionSort _ l) hlast⟩

/-- A stable sort by a key ends with the last of the elements with the
greatest key. -/
theorem sortedLast_eq_some_iff : sortedLast (· ≤ ·) f l = some a ↔ LastMax f l a := by
  constructor
  · intro h
    obtain ⟨b, hmax, hlast⟩ := exists_lastMax f (List.ne_nil_of_mem (mem_of_sortedLast h))
    obtain rfl := Option.some.inj (hlast.symm.trans h)
    exact hmax
  · intro h
    obtain ⟨b, hmax, hlast⟩ := exists_lastMax f (List.ne_nil_of_mem h.mem)
    rw [hlast, hmax.unique h]

end LastMax

end StableSort
