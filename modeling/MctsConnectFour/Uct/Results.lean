/-
What a caller of the search can rely on: that it returns and with which
move, how its counts add up, and which part of the game its tree is.
-/
import Mathlib.Data.List.Pairwise
import MctsConnectFour.Uct.Iterations
import MctsConnectFour.Uct.Nim

namespace MctsConnectFour.Uct

open RootedTree (excess)
open StableSort (LastMax sortedLast_eq_some_iff)

variable {G : GameState} {I : G.State → Prop} {rank : G.State → Nat}
variable {s₀ : G.State} {t : Nodes G.Move} {st : Nat → G.State} {count fuel itermax : Nat}

-- ============================================================== counts

/-- The visits of the children, summed. -/
def childVisits (t : Nodes G.Move) (i : Nat) : Nat := ((childrenOf t i).map (visitsOf t)).sum

/-- The visit in which a node was made. -/
def initial (i : Nat) : Nat := if i = 0 then 0 else 1

theorem sum_visitsQ (t : Nodes G.Move) (l : List Nat) :
    (l.map (visitsQ t)).sum = ((l.map (visitsOf t)).sum : Nat) := by
  induction l with
  | nil => simp
  | cons c l ih =>
      rw [List.map_cons, List.sum_cons, ih, List.map_cons, List.sum_cons]
      push_cast
      rfl

theorem SearchInv.visits_eq (h : SearchInv I s₀ count t st) {i : Nat} (hi : i < t.length)
    (hopen : G.getMoves (st i) ≠ []) : visitsOf t i = initial i + childVisits t i := by
  have hexcess := h.visits hi hopen
  rw [excess, sum_visitsQ, sub_eq_iff_eq_add] at hexcess
  have hcast : (visitsOf t i : Rat) = ((initial i + childVisits t i : Nat) : Rat) := by
    rw [show (visitsOf t i : Rat) = visitsQ t i from rfl, hexcess]
    unfold initial childVisits
    push_cast
    rfl
  exact_mod_cast hcast

/-- The moves of a node that have a child, and those that have not. -/
theorem TreeInv.length_moves (h : TreeInv I s₀ t st) {i : Nat} (hi : i < t.length) :
    (untriedOf t i).length + (childrenOf t i).length = (G.getMoves (st i)).length := by
  rw [← (h.moves hi).length_eq, List.length_append]
  have hall : ∀ c ∈ childrenOf t i, ∃ m, moveOf t c = some m := by
    intro c hc
    obtain ⟨m, hm, -⟩ := h.leads (h.linked.mem_iff.mp hc)
    exact ⟨m, hm⟩
  congr 1
  generalize childrenOf t i = l at hall
  induction l with
  | nil => rfl
  | cons c l ih =>
      obtain ⟨⟨m, hm⟩, hall⟩ := List.forall_mem_cons.mp hall
      rw [List.filterMap_cons_some hm, List.length_cons, List.length_cons, ← ih hall]

/-- A child of a node with untried moves has been visited once, and any
child at least once. -/
theorem SearchInv.child_visits (h : SearchInv I s₀ count t st) {i c : Nat}
    (hc : c ∈ childrenOf t i) :
    1 ≤ visitsOf t c ∧ (untriedOf t i ≠ [] → visitsOf t c = 1) := by
  have hparent := h.tree.linked.mem_iff.mp hc
  exact ⟨h.visited (Nat.ne_zero_of_lt (h.tree.linked.lt hparent)) (lt_of_parentOf hparent),
    h.once hparent⟩

/-- A node has a child for each visit that went on below it, until it has
one for every move. -/
theorem SearchInv.length_children (h : SearchInv I s₀ count t st) {i : Nat} (hi : i < t.length) :
    (childrenOf t i).length = min (childVisits t i) (G.getMoves (st i)).length := by
  have hmoves := h.tree.length_moves hi
  have hle : (childrenOf t i).length ≤ childVisits t i := by
    have hsum := List.card_nsmul_le_sum ((childrenOf t i).map (visitsOf t)) 1 (by
      intro x hx
      obtain ⟨c, hc, rfl⟩ := List.mem_map.mp hx
      exact (h.child_visits hc).1)
    simpa [childVisits] using hsum
  by_cases huntried : untriedOf t i = []
  · rw [huntried, List.length_nil, Nat.zero_add] at hmoves
    rw [min_eq_right (by omega), hmoves]
  · have heq : childVisits t i = (childrenOf t i).length := by
      unfold childVisits
      rw [List.map_congr_left fun c hc => (h.child_visits hc).2 huntried]
      simp
    rw [heq, min_eq_left (by omega)]

/-- After any number of iterations the root has been visited in each; the
visits of a node where the game goes on are those of its children and the
one in which it was made; and it tries its moves one after the other
before it comes back to any of them. -/
theorem search_visits (hG : Lawful G I rank) (hs₀ : I s₀) (itermax : Nat) (ω : Rng)
    (hfuel : itermax + 1 ≤ fuel) (hrank : rank s₀ ≤ fuel) :
    ∃ t ω' st, search G fuel s₀ itermax ω = some (t, ω') ∧ TreeInv I s₀ t st
      ∧ visitsOf t 0 = itermax
      ∧ ∀ i, i < t.length → G.getMoves (st i) ≠ [] →
        visitsOf t i = initial i + childVisits t i
          ∧ (childrenOf t i).length = min (childVisits t i) (G.getMoves (st i)).length
          ∧ ∀ c ∈ childrenOf t i, 1 ≤ visitsOf t c ∧ (untriedOf t i ≠ [] → visitsOf t c = 1) := by
  obtain ⟨t, ω', st, hrun, h⟩ := search_spec hG hs₀ ω hfuel hrank
  exact ⟨t, ω', st, hrun, h.tree, h.root, fun i hi hopen =>
    ⟨h.visits_eq hi hopen, h.length_children hi, fun c hc => h.child_visits hc⟩⟩

/-- Nine iterations with the chips of the example game. -/
theorem search_visits_nim :
    ∃ t ω' st, search Nim.nim 10 Nim.five 9 (fun k => k) = some (t, ω')
      ∧ TreeInv Nim.NimState.Valid Nim.five t st ∧ visitsOf t 0 = 9
      ∧ ∀ i, i < t.length → Nim.nim.getMoves (st i) ≠ [] →
        visitsOf t i = initial i + childVisits t i
          ∧ (childrenOf t i).length = min (childVisits t i) (Nim.nim.getMoves (st i)).length
          ∧ ∀ c ∈ childrenOf t i, 1 ≤ visitsOf t c ∧ (untriedOf t i ≠ [] → visitsOf t c = 1) :=
  search_visits Nim.nim_lawful Nim.valid_five 9 _ (by decide) (by decide)

-- =============================================================== lines

/-- The moves on the way from the root to a node. -/
inductive Line (t : Nodes G.Move) : Nat → List G.Move → Prop
  | root : Line t 0 []
  | child {p c : Nat} {m : G.Move} {ms : List G.Move} : Line t p ms → parentOf t c = some p →
      moveOf t c = some m → Line t c (ms ++ [m])

/-- Siblings are for different moves. -/
theorem TreeInv.sibling_eq (hG : Lawful G I rank) (h : TreeInv I s₀ t st) {p c d : Nat}
    {m : G.Move} (hc : parentOf t c = some p) (hd : parentOf t d = some p)
    (hmc : moveOf t c = some m) (hmd : moveOf t d = some m) : c = d := by
  have hp := h.parent_lt hc
  have hnodup := (h.moves hp).nodup_iff.mpr (hG.getMoves_nodup (h.inv hp))
  have hpair := (List.pairwise_filterMap.mp (List.nodup_append.mp hnodup).2.1)
  by_contra hne
  have hsymm : Std.Symm fun a b : Nat => ∀ x, moveOf t a = some x →
      ∀ y, moveOf t b = some y → x ≠ y := ⟨fun a b h x hx y hy => (h y hy x hx).symm⟩
  exact hpair.forall (h.linked.mem_iff.mpr hc) (h.linked.mem_iff.mpr hd) hne m hmc m hmd rfl

theorem TreeInv.exists_line (h : TreeInv I s₀ t st) : ∀ {i}, i < t.length →
    ∃ ms, Line t i ms ∧ Leads G s₀ ms (st i) := by
  intro i
  induction i using Nat.strong_induction_on with
  | h i ih =>
      intro hi
      cases hparent : parentOf t i with
      | none =>
          obtain rfl := (h.parent_none hi).mp hparent
          exact ⟨[], .root, h.root ▸ .nil⟩
      | some p =>
          obtain ⟨m, hm, hmem, hmove⟩ := h.move_mem hparent
          obtain ⟨ms, hline, hleads⟩ := ih p (h.linked.lt hparent) (h.parent_lt hparent)
          exact ⟨ms ++ [m], hline.child hparent hm, hleads.concat hmem hmove⟩

/-- A line leads to one node. -/
theorem TreeInv.line_unique (hG : Lawful G I rank) (h : TreeInv I s₀ t st) {i : Nat}
    {ms : List G.Move} (hi : Line t i ms) : ∀ {j}, Line t j ms → i = j := by
  induction hi with
  | root =>
      intro j hj
      generalize hnil : ([] : List G.Move) = ms at hj
      cases hj with
      | root => rfl
      | child _ _ _ => simp at hnil
  | @child p c m ms _ hc hm ih =>
      intro j hj
      generalize hconcat : ms ++ [m] = ms' at hj
      cases hj with
      | root => simp at hconcat
      | @child q d m' ms' hq hd hm' =>
          obtain ⟨rfl, heq⟩ := List.append_inj' hconcat rfl
          obtain rfl := List.singleton_inj.mp heq
          obtain rfl := ih hq
          exact h.sibling_eq hG hc hd hm hm'

/-- After any number of iterations the nodes of the tree stand for
different lines of play from the state it was given, one for each line,
and no more of them than iterations beside the root. -/
theorem search_lines (hG : Lawful G I rank) (hs₀ : I s₀) (itermax : Nat) (ω : Rng)
    (hfuel : itermax + 1 ≤ fuel) (hrank : rank s₀ ≤ fuel) :
    ∃ t ω' st, search G fuel s₀ itermax ω = some (t, ω') ∧ TreeInv I s₀ t st
      ∧ t.length ≤ itermax + 1
      ∧ (∀ i, i < t.length → ∃ ms, Line t i ms ∧ Leads G s₀ ms (st i))
      ∧ ∀ i j ms, Line t i ms → Line t j ms → i = j := by
  obtain ⟨t, ω', st, hrun, h⟩ := search_spec hG hs₀ ω hfuel hrank
  exact ⟨t, ω', st, hrun, h.tree, h.length, fun i hi => h.tree.exists_line hi,
    fun i j ms hi hj => h.tree.line_unique hG hi hj⟩

theorem search_lines_nim :
    ∃ t ω' st, search Nim.nim 10 Nim.five 9 (fun k => k) = some (t, ω')
      ∧ TreeInv Nim.NimState.Valid Nim.five t st ∧ t.length ≤ 10
      ∧ (∀ i, i < t.length → ∃ ms, Line t i ms ∧ Leads Nim.nim Nim.five ms (st i))
      ∧ ∀ i j ms, Line t i ms → Line t j ms → i = j :=
  search_lines Nim.nim_lawful Nim.valid_five 9 _ (by decide) (by decide)

-- ================================================================ wins

/-- The wins of the children from the point of view of their parent. -/
def winsThrough (t : Nodes G.Move) (i : Nat) : Rat :=
  ((childrenOf t i).map fun c => (visitsOf t c : Rat) - winsOf t c).sum

/-- What the search returns. -/
theorem SearchInv.mostVisited (h : SearchInv I s₀ count t st) {m : G.Move} :
    mostVisited t = some m
      ↔ ∃ c, LastMax (visitsOf t) (childrenOf t 0) c ∧ moveOf t c = some m := by
  obtain ⟨root, hroot⟩ := exists_node h.tree.pos
  rw [Uct.mostVisited, hroot, Option.bind_some, Option.bind_eq_some_iff,
    ← show childrenOf t 0 = root.childNodes from view_eq hroot]
  constructor
  · intro hm
    obtain ⟨c, hc, hm⟩ := hm
    exact ⟨c, sortedLast_eq_some_iff.mp hc, (bind_move t c).symm.trans hm⟩
  · intro hm
    obtain ⟨c, hc, hm⟩ := hm
    exact ⟨c, sortedLast_eq_some_iff.mpr hc, (bind_move t c).trans hm⟩

/-- The child with the most visits has its share of them. -/
theorem SearchInv.share (h : SearchInv I s₀ count t st) (hopen : G.getMoves s₀ ≠ []) {c : Nat}
    (hmax : LastMax (visitsOf t) (childrenOf t 0) c) :
    count ≤ (G.getMoves s₀).length * visitsOf t c := by
  have hroot := h.visits_eq h.tree.pos (h.tree.root ▸ hopen)
  rw [h.root, initial, if_pos rfl, Nat.zero_add] at hroot
  have hlen := h.length_children h.tree.pos
  rw [h.tree.root] at hlen
  have hsum := List.sum_le_card_nsmul ((childrenOf t 0).map (visitsOf t)) (visitsOf t c) (by
    intro x hx
    obtain ⟨d, hd, rfl⟩ := List.mem_map.mp hx
    exact hmax.le hd)
  rw [List.length_map, nsmul_eq_mul, Nat.cast_id] at hsum
  calc count = childVisits t 0 := hroot
    _ ≤ (childrenOf t 0).length * visitsOf t c := hsum
    _ ≤ (G.getMoves s₀).length * visitsOf t c :=
      Nat.mul_le_mul_right _ (hlen ▸ min_le_right _ _)

/-- The move of a child of the root is listed. -/
theorem SearchInv.child_move (h : SearchInv I s₀ count t st) {c : Nat}
    (hc : c ∈ childrenOf t 0) : ∃ m, moveOf t c = some m ∧ m ∈ G.getMoves s₀ := by
  obtain ⟨m, hm, hmem, -⟩ := h.tree.move_mem (h.tree.linked.mem_iff.mp hc)
  exact ⟨m, hm, h.tree.root ▸ hmem⟩

/-- The root of a game that goes on has a child for each iteration at
first. -/
theorem SearchInv.length_root (h : SearchInv I s₀ count t st) (hopen : G.getMoves s₀ ≠ []) :
    (childrenOf t 0).length = min count (G.getMoves s₀).length := by
  have hroot := h.visits_eq h.tree.pos (h.tree.root ▸ hopen)
  rw [h.root, initial, if_pos rfl, Nat.zero_add] at hroot
  rw [h.length_children h.tree.pos, h.tree.root, ← hroot]

theorem SearchInv.exists_mostVisited (h : SearchInv I s₀ count t st) (hcount : 1 ≤ count)
    (hopen : G.getMoves s₀ ≠ []) :
    ∃ m, Uct.mostVisited t = some m ∧ m ∈ G.getMoves s₀ := by
  have hlen := h.length_root hopen
  have hpos := List.length_pos_iff.mpr hopen
  have hne : childrenOf t 0 ≠ [] := List.length_pos_iff.mp (by omega)
  obtain ⟨c, hmax, -⟩ := StableSort.exists_lastMax (visitsOf t) hne
  obtain ⟨m, hm, hmem⟩ := h.child_move hmax.mem
  exact ⟨m, h.mostVisited.mpr ⟨c, hmax, hm⟩, hmem⟩

theorem uct_eq {ω ω' : Rng} (hrun : search G fuel s₀ itermax ω = some (t, ω')) :
    uct G fuel s₀ itermax ω = (mostVisited t).map fun m => (m, ω') := by
  rw [uct, hrun, Option.bind_some]

/-- Where there is an iteration to make and a move to choose, the search
returns one. -/
theorem uct_returns (hG : Lawful G I rank) (hs₀ : I s₀) (ω : Rng)
    (hfuel : itermax + 1 ≤ fuel) (hrank : rank s₀ ≤ fuel) (hcount : 1 ≤ itermax)
    (hopen : G.getMoves s₀ ≠ []) :
    ∃ m ω', uct G fuel s₀ itermax ω = some (m, ω') ∧ m ∈ G.getMoves s₀ := by
  obtain ⟨t, ω', st, hrun, h⟩ := search_spec hG hs₀ ω hfuel hrank
  obtain ⟨m, hm, hmem⟩ := h.exists_mostVisited hcount hopen
  exact ⟨m, ω', by rw [uct_eq hrun, hm]; rfl, hmem⟩

/-- `UCT ( )` returns exactly when there is an iteration to make and a
move to choose, and raises otherwise. It returns a move of the state it
was given, that of the last child of the root with the most visits, and no
fewer than the number of moves would make the average. -/
theorem uct_spec (hG : Lawful G I rank) (hs₀ : I s₀) (itermax : Nat) (ω : Rng)
    (hfuel : itermax + 1 ≤ fuel) (hrank : rank s₀ ≤ fuel) :
    ((∃ x, uct G fuel s₀ itermax ω = some x) ↔ 1 ≤ itermax ∧ G.getMoves s₀ ≠ [])
      ∧ ∀ m ω', uct G fuel s₀ itermax ω = some (m, ω') →
        m ∈ G.getMoves s₀ ∧ ∃ t c, search G fuel s₀ itermax ω = some (t, ω')
          ∧ LastMax (visitsOf t) (childrenOf t 0) c ∧ moveOf t c = some m
          ∧ itermax ≤ (G.getMoves s₀).length * visitsOf t c := by
  obtain ⟨t, ω₁, st, hrun, h⟩ := search_spec hG hs₀ ω hfuel hrank
  rw [uct_eq hrun]
  constructor
  · constructor
    · intro hx
      obtain ⟨x, hx⟩ := hx
      obtain ⟨m, hm, -⟩ := Option.map_eq_some_iff.mp hx
      obtain ⟨c, hmax, -⟩ := h.mostVisited.mp hm
      obtain ⟨m', -, hmem⟩ := h.child_move hmax.mem
      have hopen := List.ne_nil_of_mem hmem
      have hlen := h.length_root hopen
      have hpos := List.length_pos_of_mem hmax.mem
      exact ⟨by omega, hopen⟩
    · intro hopen
      obtain ⟨m, hm, -⟩ := h.exists_mostVisited hopen.1 hopen.2
      exact ⟨(m, ω₁), by rw [hm]; rfl⟩
  · intro m ω' hx
    obtain ⟨m', hm, heq⟩ := Option.map_eq_some_iff.mp hx
    obtain ⟨rfl, rfl⟩ := Prod.mk.inj heq
    obtain ⟨c, hmax, hm⟩ := h.mostVisited.mp hm
    obtain ⟨m, hm', hmem⟩ := h.child_move hmax.mem
    obtain rfl := Option.some.inj (hm.symm.trans hm')
    exact ⟨hmem, t, c, hrun, hmax, hm, h.share (List.ne_nil_of_mem hmem) hmax⟩

theorem uct_spec_nim :
    ((∃ x, uct Nim.nim 10 Nim.five 9 (fun k => k) = some x)
        ↔ 1 ≤ 9 ∧ Nim.nim.getMoves Nim.five ≠ [])
      ∧ ∀ m ω', uct Nim.nim 10 Nim.five 9 (fun k => k) = some (m, ω') →
        m ∈ Nim.nim.getMoves Nim.five ∧ ∃ t c,
          search Nim.nim 10 Nim.five 9 (fun k => k) = some (t, ω')
            ∧ LastMax (visitsOf t) (childrenOf t 0) c ∧ moveOf t c = some m
            ∧ 9 ≤ (Nim.nim.getMoves Nim.five).length * visitsOf t c :=
  uct_spec Nim.nim_lawful Nim.valid_five 9 _ (by decide) (by decide)

end MctsConnectFour.Uct
