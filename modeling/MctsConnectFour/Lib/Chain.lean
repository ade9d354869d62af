/-
Singly linked lists threaded through a store.

A store gives every cell the link to its successor, `next`; no link is
`none`. `Linked next a l` says that the links from `a` on run through the
cells `l`, in order, and end. Such a list is determined by its first link
(`Linked.unique`), and so no cell is on it twice (`Linked.nodup`).
`Segment` is a part of a list, up to the link behind it. `Threaded` adds
the link to the last cell, which lists that grow at the end keep.

What a write to the store does to a list that is not meant is nothing
(`Linked.congr`); a cell pushed in front of a list is `Linked.cons`, one
appended is `Threaded.push`. Loops along a list are loops over `l`
(`whileLoop_linked`, `whileLoop_search`).
-/
import Mathlib.Data.List.Nodup
import MctsConnectFour.Lib.While

namespace Chain

variable {α : Type*} {next next' : α → Option α} {a : Option α} {x e : α} {l l' : List α}

-- ======================================================== linked lists

/-- The links from `a` on run through the cells `l` and end. -/
def Linked (next : α → Option α) : Option α → List α → Prop
  | a, [] => a = none
  | a, x :: l => a = some x ∧ Linked next (next x) l

@[simp] theorem linked_nil : Linked next a [] ↔ a = none := Iff.rfl

@[simp] theorem linked_cons :
    Linked next a (x :: l) ↔ a = some x ∧ Linked next (next x) l := Iff.rfl

/-- A list depends on the links of its own cells only. -/
theorem Linked.congr (h : Linked next a l) (heq : ∀ y ∈ l, next' y = next y) :
    Linked next' a l := by
  induction l generalizing a with
  | nil => exact h
  | cons y l ih =>
      obtain ⟨ha, hrest⟩ := h
      refine ⟨ha, ?_⟩
      rw [heq y (List.mem_cons_self ..)]
      exact ih hrest fun z hz => heq z (List.mem_cons_of_mem _ hz)

/-- A cell pushed in front. -/
theorem Linked.cons (h : Linked next a l) (hx : next' x = a) (heq : ∀ y ∈ l, next' y = next y) :
    Linked next' (some x) (x :: l) :=
  ⟨rfl, hx ▸ h.congr heq⟩

/-- The first link determines the list. -/
theorem Linked.unique (h : Linked next a l) (h' : Linked next a l') : l = l' := by
  induction l generalizing a l' with
  | nil =>
      cases l' with
      | nil => rfl
      | cons y l' => exact absurd (h.symm.trans h'.1) (by simp)
  | cons x l ih =>
      cases l' with
      | nil => exact absurd (h.1.symm.trans h') (by simp)
      | cons y l' =>
          obtain rfl := Option.some.inj (h.1.symm.trans h'.1)
          rw [ih h.2 h'.2]

/-- Where links are set but never changed, a list only becomes longer at
its end. -/
theorem Linked.grown {a' : Option α} (h : Linked next a l) (h' : Linked next' a' l')
    (ha : ∀ x, a = some x → a' = some x) (hnext : ∀ x y, next x = some y → next' x = some y) :
    l <+: l' := by
  induction l generalizing a a' l' with
  | nil => exact List.nil_prefix
  | cons x l ih =>
      cases l' with
      | nil => exact absurd ((ha x h.1).symm.trans h') (by simp)
      | cons y l' =>
          obtain rfl := Option.some.inj ((ha x h.1).symm.trans h'.1)
          exact (List.prefix_cons_inj _).mpr (ih h.2 h'.2 fun z => hnext x z)

/-- What follows the cells in front is a list. -/
theorem Linked.rest (h : Linked next a (l ++ x :: l')) : Linked next (next x) l' := by
  induction l generalizing a with
  | nil => exact h.2
  | cons y l ih => exact ih h.2

/-- What follows a cell of a list is a list. -/
theorem Linked.suffix (h : Linked next a (l ++ x :: l')) : Linked next (some x) (x :: l') := by
  induction l generalizing a with
  | nil => exact ⟨rfl, h.2⟩
  | cons y l ih => exact ih h.2

/-- No cell is on a list twice: it would lead back to itself. -/
theorem Linked.nodup (h : Linked next a l) : l.Nodup := by
  induction l generalizing a with
  | nil => exact List.nodup_nil
  | cons x l ih =>
      refine List.nodup_cons.mpr ⟨fun hmem => ?_, ih h.2⟩
      obtain ⟨init, rest, rfl⟩ := List.append_of_mem hmem
      have hwhole : Linked next (some x) (x :: (init ++ x :: rest)) := ⟨rfl, h.2⟩
      have hsame := congrArg List.length (hwhole.unique h.2.suffix)
      simp only [List.length_cons, List.length_append] at hsame
      omega

/-- The list after its last cell has been linked to another. -/
theorem Linked.concat (h : Linked next a (l ++ [e])) (heq : ∀ y ∈ l, next' y = next y)
    (he : next' e = some x) (hx : next' x = none) : Linked next' a (l ++ [e] ++ [x]) := by
  induction l generalizing a with
  | nil => exact ⟨h.1, he, hx⟩
  | cons y l ih =>
      refine ⟨h.1, ?_⟩
      rw [heq y (List.mem_cons_self ..)]
      exact ih h.2 fun z hz => heq z (List.mem_cons_of_mem _ hz)

-- =========================================================== segments

/-- The links from `a` on run through the cells `l`, and on to `b`. -/
def Segment (next : α → Option α) : Option α → List α → Option α → Prop
  | a, [], b => a = b
  | a, x :: l, b => a = some x ∧ Segment next (next x) l b

/-- A segment that goes nowhere is a list. -/
theorem segment_none : Segment next a l none ↔ Linked next a l := by
  induction l generalizing a with
  | nil => exact Iff.rfl
  | cons x l ih => exact and_congr_right fun _ => ih

/-- A segment depends on the links of its own cells only. -/
theorem Segment.congr {b : Option α} (h : Segment next a l b) (heq : ∀ y ∈ l, next' y = next y) :
    Segment next' a l b := by
  induction l generalizing a with
  | nil => exact h
  | cons y l ih =>
      obtain ⟨ha, hrest⟩ := h
      refine ⟨ha, ?_⟩
      rw [heq y (List.mem_cons_self ..)]
      exact ih hrest fun z hz => heq z (List.mem_cons_of_mem _ hz)

/-- A cell pushed in front. -/
theorem Segment.cons {b : Option α} (h : Segment next a l b) (hx : next' x = a)
    (heq : ∀ y ∈ l, next' y = next y) : Segment next' (some x) (x :: l) b :=
  ⟨rfl, hx ▸ h.congr heq⟩

-- ================================================ lists with two ends

/-- A list with the links to its first and its last cell. -/
structure Threaded (next : α → Option α) (head tail : Option α) (l : List α) : Prop where
  linked : Linked next head l
  tail : tail = l.getLast?

theorem threaded_nil : Threaded next none none [] := ⟨rfl, rfl⟩

/-- A list of one cell. -/
theorem threaded_single (hx : next x = none) : Threaded next (some x) (some x) [x] :=
  ⟨⟨rfl, hx⟩, rfl⟩

theorem Threaded.congr {head tail : Option α} (h : Threaded next head tail l)
    (heq : ∀ y ∈ l, next' y = next y) : Threaded next' head tail l :=
  ⟨h.linked.congr heq, h.tail⟩

/-- A cell appended: the link of the last cell is set, and the new one has
none. -/
theorem Threaded.push {head : Option α} (h : Threaded next head (some e) l)
    (heq : ∀ y ∈ l, y ≠ e → next' y = next y) (he : next' e = some x) (hx : next' x = none) :
    Threaded next' head (some x) (l ++ [x]) := by
  obtain ⟨init, rfl⟩ := List.getLast?_eq_some_iff.mp h.tail.symm
  refine ⟨h.linked.concat (fun y hy => heq y (List.mem_append_left _ hy) ?_) he hx, by simp⟩
  intro h'
  obtain rfl := h'
  exact (List.nodup_append.mp h.linked.nodup).2.2 y hy y (List.mem_singleton_self y) rfl

-- =============================================================== loops

/-- There is a turn for every cell. -/
private theorem exists_fuel {fuel : Nat} (h : (x :: l).length ≤ fuel) :
    ∃ rest, fuel = rest + 1 ∧ l.length ≤ rest := by
  rw [List.length_cons] at h
  exact ⟨fuel - 1, by omega, by omega⟩

/-- `for ( a = head; a != invalid; a = next ( a ) )`, with what it
accumulates, when the body can fail. -/
theorem whileLoop_linkedM {β : Type*} (f : β → α → Option β) (h : Linked next a l) {fuel : Nat}
    (hfuel : l.length ≤ fuel) (b : β) :
    Loops.whileLoop (fun y : Option α × β => y.1.isSome)
      (fun y => y.1.bind fun c => (f y.2 c).map fun b => (next c, b)) fuel (a, b)
        = (l.foldlM f b).map fun b => (none, b) := by
  induction l generalizing a fuel b with
  | nil =>
      rw [show a = none from h]
      exact Loops.whileLoop_done rfl fuel
  | cons x l ih =>
      obtain ⟨rfl, hrest⟩ := h
      obtain ⟨fuel, rfl, hlen⟩ := exists_fuel hfuel
      rw [Loops.whileLoop_step rfl, List.foldlM_cons, Option.bind_some]
      cases hf : f b x with
      | none => rfl
      | some b' => exact ih hrest hlen b'

/-- The same loop, when it cannot. -/
theorem whileLoop_linked {β : Type*} (f : β → α → β) (h : Linked next a l) {fuel : Nat}
    (hfuel : l.length ≤ fuel) (b : β) :
    Loops.whileLoop (fun y : Option α × β => y.1.isSome)
      (fun y => y.1.map fun c => (next c, f y.2 c)) fuel (a, b) = some (none, l.foldl f b) := by
  have hbody : (fun y : Option α × β => y.1.map fun c => (next c, f y.2 c))
      = fun y => y.1.bind fun c => (some (f y.2 c)).map fun b => (next c, b) := by
    funext y
    cases y.1 <;> rfl
  have hfold : l.foldlM (fun b x => some (f b x)) b = some (l.foldl f b) := List.foldlM_pure
  rw [hbody, whileLoop_linkedM (fun b x => some (f b x)) h hfuel, hfold, Option.map_some]

/-- The same loop, left at the first cell that is looked for. -/
theorem whileLoop_search (p : α → Bool) (h : Linked next a l) {fuel : Nat}
    (hfuel : l.length ≤ fuel) :
    Loops.whileLoop (fun y : Option α => y.any fun c => !p c)
      (fun y => y.map next) fuel a = some (l.find? p) := by
  induction l generalizing a fuel with
  | nil =>
      rw [show a = none from h]
      exact Loops.whileLoop_done rfl fuel
  | cons x l ih =>
      obtain ⟨rfl, hrest⟩ := h
      obtain ⟨fuel, rfl, hlen⟩ := exists_fuel hfuel
      cases hp : p x with
      | true =>
          rw [List.find?_cons_of_pos hp]
          exact Loops.whileLoop_done (by simp [hp]) _
      | false =>
          rw [List.find?_cons_of_neg (by simp [hp]), Loops.whileLoop_step (by simp [hp])]
          exact ih hrest hlen

end Chain
