/-
Worklist search of a directed graph: a set of nodes already seen, a
list of nodes still to be expanded, and one turn that takes a node off
the list and puts its unseen successors on. Neither end the node is
taken from nor the end its successors go to matters, so the same rules
serve a depth first walk with a stack and a breadth first walk with a
queue.

`Frontier` is the invariant, `Frontier.expand` its preservation by one
turn, `Frontier.seen_iff_reachable` what it says when the list has run
empty, and `Frontier.card_pending_lt` the measure by which it does.
`Scanned` is the invariant of the loop a turn consists of, over the
successors of the node taken off.

`IsSearch` puts them together for a program: a while loop whose turns are
such turns comes to an end, with what can be reached from the root seen
and nothing else.
-/
import Mathlib.Data.Finset.Card
import Mathlib.Logic.Relation
import Mathlib.Data.List.Nodup
import Mathlib.Tactic.Common
import MctsConnectFour.Lib.While

namespace Worklist

variable {α : Type*}

/-- `b` is a successor of `a`. -/
def Edge (succ : α → List α) (a b : α) : Prop := b ∈ succ a

/-- `b` can be reached from `a` along successors. -/
abbrev Reachable (succ : α → List α) (a b : α) : Prop :=
  Relation.ReflTransGen (Edge succ) a b

/-- What goes on to all successors goes on to all that can be reached. -/
theorem Reachable.closed {succ : α → List α} {P : α → Prop}
    (hsucc : ∀ {a b}, P a → b ∈ succ a → P b) {a b : α} (h : Reachable succ a b) (ha : P a) :
    P b := by
  induction h with
  | refl => exact ha
  | tail _ hedge ih => exact hsucc ih hedge

/-- The state of a search from `root` between two turns: what has been
seen is reachable, and what has been seen and is off the list has had
all its successors seen. -/
structure Frontier (succ : α → List α) (root : α) (seen : α → Prop)
    (work : List α) : Prop where
  root_seen : seen root
  sound : ∀ a, seen a → Reachable succ root a
  work_seen : ∀ a ∈ work, seen a
  closed : ∀ a, seen a → a ∉ work → ∀ b ∈ succ a, seen b
  nodup : work.Nodup

variable {succ : α → List α} {root a : α} {seen seen' : α → Prop}
  {work rest work' : List α}

/-- A search starts with its root seen and on the list. -/
theorem Frontier.start (succ : α → List α) (root : α) :
    Frontier succ root (· = root) [root] where
  root_seen := rfl
  sound := by
    intro a h
    obtain rfl := h
    exact .refl
  work_seen := by simp
  closed := by
    intro a ha hwork
    exact absurd ha (by simpa using hwork)
  nodup := List.nodup_singleton root

/-- One turn: `a` leaves the list, its successors are seen, and those
not seen before go on the list once each. -/
theorem Frontier.expand (h : Frontier succ root seen work)
    (hpop : work.Perm (a :: rest))
    (hseen : ∀ b, seen' b ↔ seen b ∨ b ∈ succ a)
    (hwork : ∀ b, b ∈ work' ↔ b ∈ rest ∨ (b ∈ succ a ∧ ¬ seen b))
    (hnodup : work'.Nodup) : Frontier succ root seen' work' := by
  have ha : seen a := h.work_seen a (hpop.mem_iff.mpr (List.mem_cons_self ..))
  refine ⟨(hseen root).mpr (Or.inl h.root_seen), ?_, ?_, ?_, hnodup⟩
  · intro b hb
    rcases (hseen b).mp hb with hb | hb
    · exact h.sound b hb
    · exact (h.sound a ha).tail hb
  · intro b hb
    rcases (hwork b).mp hb with hb | ⟨hb, -⟩
    · exact (hseen b).mpr
        (Or.inl (h.work_seen b (hpop.mem_iff.mpr (List.mem_cons_of_mem _ hb))))
    · exact (hseen b).mpr (Or.inr hb)
  · intro b hb hout c hc
    -- a node seen now and off the list was off it before, or is `a`
    by_cases hba : b = a
    · subst hba
      exact (hseen c).mpr (Or.inr hc)
    · have hold : seen b := by
        rcases (hseen b).mp hb with hb | hb
        · exact hb
        · by_contra hnew
          exact hout ((hwork b).mpr (Or.inr ⟨hb, hnew⟩))
      have hnot : b ∉ work := by
        intro hin
        rcases List.mem_cons.mp (hpop.mem_iff.mp hin) with hin | hin
        · exact hba hin
        · exact hout ((hwork b).mpr (Or.inl hin))
      exact (hseen c).mpr (Or.inl (h.closed b hold hnot c hc))

/-- When the list is empty, the seen nodes are the reachable ones. -/
theorem Frontier.seen_iff_reachable (h : Frontier succ root seen []) (b : α) :
    seen b ↔ Reachable succ root b := by
  refine ⟨h.sound b, fun hr => ?_⟩
  induction hr with
  | refl => exact h.root_seen
  | tail _ hedge ih => exact h.closed _ ih (by simp) _ hedge

-- ======================================================= inside a turn

/-- A turn in progress: of the successors those in `l` have been looked
at; the ones that were not `seen` when the turn began have been marked
and put on what was the `rest` of the list. -/
structure Scanned (seen : α → Prop) (rest l : List α) (seen' : α → Prop) (work' : List α) :
    Prop where
  seen_iff : ∀ b, seen' b ↔ seen b ∨ b ∈ l
  work_iff : ∀ b, b ∈ work' ↔ b ∈ rest ∨ (b ∈ l ∧ ¬ seen b)
  nodup : work'.Nodup

variable {l work'' : List α} {seen'' : α → Prop} {b : α}

theorem Scanned.start (seen : α → Prop) (hrest : rest.Nodup) : Scanned seen rest [] seen rest :=
  ⟨by simp, by simp, hrest⟩

/-- A successor seen before, or met before in this turn, is passed over. -/
theorem Scanned.skip (h : Scanned seen rest l seen' work') (hb : seen' b) :
    Scanned seen rest (l ++ [b]) seen' work' := by
  have hold := (h.seen_iff b).mp hb
  refine ⟨fun c => ?_, fun c => ?_, h.nodup⟩
  · rw [h.seen_iff, List.mem_append, List.mem_singleton, ← or_assoc]
    refine ⟨Or.inl, fun hc => hc.elim id ?_⟩
    intro h'
    obtain rfl := h'
    exact hold
  · rw [h.work_iff, List.mem_append, List.mem_singleton]
    refine or_congr_right (and_congr_left fun hnew => ⟨Or.inl, fun hc => hc.elim id ?_⟩)
    intro h'
    obtain rfl := h'
    exact hold.resolve_left hnew

/-- Any other is marked and put on the list. -/
theorem Scanned.push (h : Scanned seen rest l seen' work') (hrest : ∀ c ∈ rest, seen c)
    (hb : ¬ seen' b) (hseen : ∀ c, seen'' c ↔ c = b ∨ seen' c) (hwork : work''.Perm (b :: work')) :
    Scanned seen rest (l ++ [b]) seen'' work'' := by
  have hnew := not_or.mp (mt (h.seen_iff b).mpr hb)
  have hout : b ∉ work' := fun hin => by
    rcases (h.work_iff b).mp hin with hin | ⟨hin, -⟩
    · exact hnew.1 (hrest b hin)
    · exact hnew.2 hin
  refine ⟨fun c => ?_, fun c => ?_, hwork.nodup_iff.mpr (List.nodup_cons.mpr ⟨hout, h.nodup⟩)⟩
  · rw [hseen, h.seen_iff, List.mem_append, List.mem_singleton]
    tauto
  · rw [hwork.mem_iff, List.mem_cons, h.work_iff, List.mem_append, List.mem_singleton]
    constructor
    · intro h'
      rcases h' with rfl | hc | hc
      · exact Or.inr ⟨Or.inr rfl, hnew.1⟩
      · exact Or.inl hc
      · exact Or.inr ⟨Or.inl hc.1, hc.2⟩
    · intro h'
      rcases h' with hc | ⟨hc | rfl, hc'⟩
      · exact Or.inr (Or.inl hc)
      · exact Or.inr (Or.inr ⟨hc, hc'⟩)
      · exact Or.inl rfl

/-- A turn that has looked at all successors is done. -/
theorem Frontier.scan (h : Frontier succ root seen (a :: rest))
    (hscan : Scanned seen rest (succ a) seen' work') : Frontier succ root seen' work' :=
  h.expand (List.Perm.refl _) hscan.seen_iff hscan.work_iff hscan.nodup

/-- A node seen before, and not among the rest, does not come back on the
list. -/
theorem Scanned.not_mem (h : Scanned seen rest l seen' work') (hb : seen b) (hout : b ∉ rest) :
    b ∉ work' := by
  intro hin
  rcases (h.work_iff b).mp hin with hin | ⟨-, hnew⟩
  · exact hout hin
  · exact hnew hb

section Part

variable [DecidableEq α] {β : Type*} (f : α → List β)

/-- Of what there is to be done at a node, nothing has been done for those
on the list, and all for the others: when one is taken off. -/
theorem part_pop (hpop : work.Perm (a :: rest)) :
    (fun b => if b ∈ work then [] else f b)
      = fun b => if b = a then [] else if b ∈ rest then [] else f b := by
  funext b
  by_cases hb : b = a
  · simp [hb, hpop.mem_iff]
  · simp [hb, hpop.mem_iff]

/-- And when all has been done for it. -/
theorem part_done (hout : a ∉ work) :
    (fun b => if b = a then f a else if b ∈ work then [] else f b)
      = fun b => if b ∈ work then [] else f b := by
  funext b
  by_cases hb : b = a
  · rw [if_pos hb, hb, if_neg hout]
  · rw [if_neg hb]

end Part

section Measure

variable [DecidableEq α] (univ : Finset α)

/-- The nodes of `univ` that have not been expanded yet. -/
noncomputable def pending (seen : α → Prop) (work : List α) : Finset α :=
  open scoped Classical in univ.filter fun b => ¬ seen b ∨ b ∈ work

theorem card_pending_le (seen : α → Prop) (work : List α) :
    (pending univ seen work).card ≤ univ.card := by
  classical exact Finset.card_le_card (Finset.filter_subset _ _)

/-- Every turn expands one node for good. -/
theorem Frontier.card_pending_lt (h : Frontier succ root seen work)
    (hpop : work.Perm (a :: rest)) (ha : a ∈ univ)
    (hseen : ∀ b, seen' b ↔ seen b ∨ b ∈ succ a)
    (hwork : ∀ b, b ∈ work' ↔ b ∈ rest ∨ (b ∈ succ a ∧ ¬ seen b)) :
    (pending univ seen' work').card < (pending univ seen work).card := by
  have hawork : a ∈ work := hpop.mem_iff.mpr (List.mem_cons_self ..)
  have harest : a ∉ rest := (List.nodup_cons.mp (hpop.nodup_iff.mp h.nodup)).1
  refine Finset.card_lt_card ((Finset.ssubset_iff_of_subset ?_).mpr ⟨a, ?_, ?_⟩)
  · intro b hb
    simp only [pending, Finset.mem_filter] at hb ⊢
    refine ⟨hb.1, ?_⟩
    rcases hb.2 with hnew | hin
    · exact Or.inl fun hold => hnew ((hseen b).mpr (Or.inl hold))
    · rcases (hwork b).mp hin with hin | ⟨-, hnew⟩
      · exact Or.inr (hpop.mem_iff.mpr (List.mem_cons_of_mem _ hin))
      · exact Or.inl hnew
  · simp only [pending, Finset.mem_filter]
    exact ⟨ha, Or.inr hawork⟩
  · simp only [pending, Finset.mem_filter, not_and, not_or, not_not]
    intro _
    have hsa : seen a := h.work_seen a hawork
    refine ⟨(hseen a).mpr (Or.inl hsa), ?_⟩
    intro hin
    rcases (hwork a).mp hin with hin | ⟨-, hnew⟩
    · exact harest hin
    · exact hnew hsa

end Measure

-- ============================================================ the loop

section Loop

open Loops

variable {σ : Type*}

/-- Under `I` the loop is a search from `root`, inside `univ`: it ends with
an empty list, and a turn scans the successors of a node on the list. -/
structure IsSearch (succ : α → List α) (root : α) (univ : Finset α) (cond : σ → Bool)
    (body : σ → Option σ) (I : σ → Prop) (seen : σ → α → Prop) (work : σ → List α) : Prop where
  frontier : ∀ {s}, I s → Frontier succ root (seen s) (work s)
  done : ∀ {s}, I s → cond s = false → work s = []
  turn : ∀ {s}, I s → cond s = true → ∃ a rest s', (work s).Perm (a :: rest) ∧ a ∈ univ
    ∧ body s = some s' ∧ I s' ∧ Scanned (seen s) rest (succ a) (seen s') (work s')

variable {univ : Finset α} {cond : σ → Bool} {body : σ → Option σ} {I : σ → Prop}
  {seen : σ → α → Prop} {work : σ → List α} {s s' : σ}

/-- It comes to an end, with a turn for each node at the most. -/
theorem IsSearch.total (h : IsSearch succ root univ cond body I seen work) (hs : I s) {fuel : Nat}
    (hfuel : univ.card ≤ fuel) : ∃ s', whileLoop cond body fuel s = some s' := by
  classical
  refine whileLoop_total (I := I) (fun x => (pending univ (seen x) (work x)).card) ?_ hs
    ((card_pending_le _ _ _).trans hfuel)
  intro x hx hmore
  obtain ⟨a, rest, y, hpop, ha, hstep, hy, hscan⟩ := h.turn hx hmore
  exact ⟨y, hstep, hy,
    (h.frontier hx).card_pending_lt univ hpop ha hscan.seen_iff hscan.work_iff⟩

/-- When it has, the list is empty. -/
theorem IsSearch.exit (h : IsSearch succ root univ cond body I seen work) (hs : I s) {fuel : Nat}
    (hrun : whileLoop cond body fuel s = some s') : I s' ∧ work s' = [] := by
  obtain ⟨hs', hdone⟩ := whileLoop_inv (I := I)
    (fun x y hx hmore hstep => by
      obtain ⟨-, -, y', -, -, hstep', hy, -⟩ := h.turn hx hmore
      obtain rfl := Option.some.inj (hstep.symm.trans hstep')
      exact hy)
    hs hrun
  exact ⟨hs', h.done hs' hdone⟩

/-- Then what can be reached has been seen, and nothing else. -/
theorem IsSearch.seen_iff_reachable (h : IsSearch succ root univ cond body I seen work) (hs : I s)
    {fuel : Nat} (hrun : whileLoop cond body fuel s = some s') (b : α) :
    seen s' b ↔ Reachable succ root b := by
  obtain ⟨hs', hempty⟩ := h.exit hs hrun
  have hfrontier := h.frontier hs'
  rw [hempty] at hfrontier
  exact hfrontier.seen_iff_reachable b

end Loop

end Worklist
