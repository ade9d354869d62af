/-
What the search relies on of a game, and what it keeps of its tree.

`Lawful` are the promises of the docstrings of `GameState`: two players
who alternate, moves that can be made, results from both points of view
that add up to one, and games that end. They are asked of the states with
an invariant of the game, which the moves keep.

`TreeInv` is the shape of the tree: nodes and their states, `st` giving
the state of a node, which the source does not keep. It says nothing of
`wins` and `visits`, so `update` keeps it.
-/
import Mathlib.Algebra.Order.Ring.Rat
import Mathlib.Data.List.Induction
import Mathlib.Tactic.Linarith
import MctsConnectFour.Lib.RootedTree
import MctsConnectFour.Uct.Basic

namespace MctsConnectFour.Uct

open RootedTree (Linked)

-- ================================================================ games

/-- The laws of a game, for the states with `I`; `rank` bounds what is
left of a game. -/
structure Lawful (G : GameState) (I : G.State → Prop) (rank : G.State → Nat) : Prop where
  clone : ∀ {s}, I s → G.clone s = s
  player : ∀ {s}, I s → G.playerJustMoved s = 1 ∨ G.playerJustMoved s = 2
  getMoves_nodup : ∀ {s}, I s → (G.getMoves s).Nodup
  doMove : ∀ {s m}, I s → m ∈ G.getMoves s → ∃ s', G.doMove s m = some s' ∧ I s'
    ∧ G.playerJustMoved s' = 3 - G.playerJustMoved s ∧ rank s' < rank s
  getResult : ∀ {s}, I s → G.getMoves s = [] → ∃ r, 0 ≤ r ∧ r ≤ 1
    ∧ G.getResult s 1 = some r ∧ G.getResult s 2 = some (1 - r)

/-- The states of games from `s₀`. -/
inductive Played (G : GameState) (s₀ : G.State) : G.State → Prop
  | start : Played G s₀ s₀
  | move {s s' : G.State} {m : G.Move} : Played G s₀ s → m ∈ G.getMoves s →
      G.doMove s m = some s' → Played G s₀ s'

/-- `DoMove ( )` for each of the moves, all of them listed. -/
inductive Leads (G : GameState) (s₀ : G.State) : List G.Move → G.State → Prop
  | nil : Leads G s₀ [] s₀
  | concat {ms : List G.Move} {m : G.Move} {s s' : G.State} : Leads G s₀ ms s →
      m ∈ G.getMoves s → G.doMove s m = some s' → Leads G s₀ (ms ++ [m]) s'

variable {G : GameState} {I : G.State → Prop} {rank : G.State → Nat}

/-- What a listed move that has been made leads to. -/
theorem Lawful.of_doMove (hG : Lawful G I rank) {s s' : G.State} {m : G.Move} (hs : I s)
    (hm : m ∈ G.getMoves s) (h : G.doMove s m = some s') :
    I s' ∧ G.playerJustMoved s' = 3 - G.playerJustMoved s ∧ rank s' < rank s := by
  obtain ⟨s'', hmove, hrest⟩ := hG.doMove hs hm
  obtain rfl := Option.some.inj (h.symm.trans hmove)
  exact hrest

theorem Lawful.played (hG : Lawful G I rank) {s₀ s : G.State} (hs₀ : I s₀)
    (h : Played G s₀ s) : I s := by
  induction h with
  | start => exact hs₀
  | move _ hm hmove ih => exact (hG.of_doMove ih hm hmove).1

/-- The moves one after the other, none of them unlisted. -/
def replay (G : GameState) (s₀ : G.State) (ms : List G.Move) : Option G.State :=
  ms.foldlM (fun s m => if (G.getMoves s).contains m then G.doMove s m else none) s₀

theorem leads_of_replay {s₀ : G.State} {ms : List G.Move} : ∀ {s : G.State},
    replay G s₀ ms = some s → Leads G s₀ ms s := by
  induction ms using List.reverseRecOn with
  | nil =>
      intro s h
      obtain rfl := Option.some.inj h
      exact .nil
  | append_singleton ms m ih =>
      intro s h
      rw [replay, List.foldlM_append] at h
      obtain ⟨s', hbefore, h⟩ := Option.bind_eq_some_iff.mp h
      rw [List.foldlM_cons] at h
      obtain ⟨s'', hlast, hs⟩ := Option.bind_eq_some_iff.mp h
      obtain rfl := Option.some.inj hs
      split at hlast
      · next hm => exact (ih hbefore).concat (List.contains_iff_mem.mp hm) hlast
      · cases hlast

theorem Leads.played {s₀ s : G.State} {ms : List G.Move} (h : Leads G s₀ ms s) :
    Played G s₀ s := by
  induction h with
  | nil => exact .start
  | concat _ hm hmove ih => exact .move ih hm hmove

/-- Where every move takes one from the rank, it counts the moves. -/
theorem Leads.rank_add (hG : Lawful G I rank)
    (hone : ∀ {s s' m}, I s → m ∈ G.getMoves s → G.doMove s m = some s' → rank s' + 1 = rank s)
    {s₀ s : G.State} {ms : List G.Move} (hs₀ : I s₀) (h : Leads G s₀ ms s) :
    rank s + ms.length = rank s₀ := by
  induction h with
  | nil => rfl
  | concat hbefore hm hmove ih =>
      have hstep := hone (hG.played hs₀ hbefore.played) hm hmove
      rw [List.length_append, List.length_singleton]
      omega

/-- The players alternate. -/
theorem Leads.turn (hG : Lawful G I rank) {s₀ s : G.State} {ms : List G.Move} (hs₀ : I s₀)
    (h : Leads G s₀ ms s) : G.playerJustMoved s
      = if ms.length % 2 = 0 then G.playerJustMoved s₀ else 3 - G.playerJustMoved s₀ := by
  induction h with
  | nil => rfl
  | concat hbefore hm hmove ih =>
      have hstep := (hG.of_doMove (hG.played hs₀ hbefore.played) hm hmove).2.1
      rw [hstep, ih, List.length_append, List.length_singleton]
      split_ifs <;> omega

-- ================================================================ views

section Views

variable {Move : Type}

def parentOf (t : Nodes Move) : Nat → Option Nat := view Node.parentNode none t
def childrenOf (t : Nodes Move) : Nat → List Nat := view Node.childNodes [] t
def untriedOf (t : Nodes Move) : Nat → List Move := view Node.untriedMoves [] t
def moveOf (t : Nodes Move) : Nat → Option Move := view Node.move none t
def winsOf (t : Nodes Move) : Nat → Rat := view Node.wins 0 t
def playerOf (t : Nodes Move) : Nat → Int := view Node.playerJustMoved 0 t

variable {t : Nodes Move} {i : Nat} {n : Node Move} {β : Type} {f : Node Move → β} {d : β}

theorem view_eq (h : t[i]? = some n) : view f d t i = f n := by
  simp [view, h]

theorem view_none (h : t.length ≤ i) : view f d t i = d := by
  simp [view, List.getElem?_eq_none h]

theorem bind_move (t : Nodes Move) (i : Nat) : t[i]?.bind Node.move = moveOf t i := by
  unfold moveOf view
  cases t[i]? <;> rfl

theorem lt_of_parentOf {c p : Nat} (h : parentOf t c = some p) : c < t.length := by
  by_contra hc
  rw [parentOf, view_none (not_lt.mp hc)] at h
  cases h

theorem exists_node (h : i < t.length) : ∃ n, t[i]? = some n := ⟨_, List.getElem?_eq_getElem h⟩

/-- A cell that is changed, and one that is added. -/
theorem view_modify (g : Node Move → Node Move) (h : t[i]? = some n) :
    view f d (t.modify i g) = Function.update (view f d t) i (f (g n)) := by
  funext j
  by_cases hij : i = j
  · subst hij
    simp [view, h]
  · simp [view, Function.update_of_ne (Ne.symm hij), hij]

theorem view_append (t : Nodes Move) (n : Node Move) :
    view f d (t ++ [n]) = Function.update (view f d t) t.length (f n) := by
  funext j
  by_cases hj : j = t.length
  · subst hj
    simp [view]
  · rw [Function.update_of_ne hj]
    by_cases hlt : j < t.length
    · simp [view, List.getElem?_append_left hlt]
    · rw [view_none (by simp; omega), view_none (by omega)]

/-- Two trees that differ in `wins` and `visits` at most. -/
structure SameShape (t t' : Nodes Move) : Prop where
  length : t'.length = t.length
  parent : parentOf t' = parentOf t
  children : childrenOf t' = childrenOf t
  untried : untriedOf t' = untriedOf t
  move : moveOf t' = moveOf t
  player : playerOf t' = playerOf t

theorem SameShape.refl (t : Nodes Move) : SameShape t t := ⟨rfl, rfl, rfl, rfl, rfl, rfl⟩

theorem SameShape.trans {t t' t'' : Nodes Move} (h : SameShape t t') (h' : SameShape t' t'') :
    SameShape t t'' :=
  ⟨h'.length.trans h.length, h'.parent.trans h.parent, h'.children.trans h.children,
    h'.untried.trans h.untried, h'.move.trans h.move, h'.player.trans h.player⟩

section Update

variable (h : i < t.length) (r : Rat)

include h

/-- `update` leaves every other field. -/
theorem view_update (hf : ∀ (n : Node Move) v w, f { n with visits := v, wins := w } = f n) :
    view f d (update t i r) = view f d t := by
  obtain ⟨n, hn⟩ := exists_node h
  rw [update, view_modify _ hn, hf, ← view_eq (f := f) (d := d) hn, Function.update_eq_self]

theorem sameShape_update : SameShape t (update t i r) :=
  ⟨List.length_modify .., view_update h r fun _ _ _ => rfl, view_update h r fun _ _ _ => rfl,
    view_update h r fun _ _ _ => rfl, view_update h r fun _ _ _ => rfl,
    view_update h r fun _ _ _ => rfl⟩

theorem visitsOf_update :
    visitsOf (update t i r) = Function.update (visitsOf t) i (visitsOf t i + 1) := by
  obtain ⟨n, hn⟩ := exists_node h
  rw [update, visitsOf, view_modify _ hn, visitsOf, view_eq hn]

theorem winsOf_update :
    winsOf (update t i r) = Function.update (winsOf t) i (winsOf t i + r) := by
  obtain ⟨n, hn⟩ := exists_node h
  rw [update, winsOf, view_modify _ hn, winsOf, view_eq hn]

end Update

end Views

-- =============================================================== shape

/-- The tree of a search from `s₀`, with `st i` the state of node `i`. -/
structure TreeInv (I : G.State → Prop) (s₀ : G.State) (t : Nodes G.Move) (st : Nat → G.State) :
    Prop where
  linked : Linked (parentOf t) (childrenOf t)
  pos : 0 < t.length
  root : st 0 = s₀
  parent_none : ∀ {i}, i < t.length → (parentOf t i = none ↔ i = 0)
  inv : ∀ {i}, i < t.length → I (st i)
  player : ∀ {i}, i < t.length → playerOf t i = G.playerJustMoved (st i)
  /-- the move of a child leads from the state of its parent to its own -/
  leads : ∀ {p c}, parentOf t c = some p →
    ∃ m, moveOf t c = some m ∧ G.doMove (st p) m = some (st c)
  /-- every move is untried or that of one child -/
  moves : ∀ {i}, i < t.length →
    (untriedOf t i ++ (childrenOf t i).filterMap (moveOf t)).Perm (G.getMoves (st i))

variable {s₀ : G.State} {t t' : Nodes G.Move} {st : Nat → G.State} {i p c : Nat}

theorem TreeInv.congr (h : TreeInv I s₀ t st) (hshape : SameShape t t') :
    TreeInv I s₀ t' st where
  linked := by rw [hshape.parent, hshape.children]; exact h.linked
  pos := hshape.length ▸ h.pos
  root := h.root
  parent_none hi := by rw [hshape.parent]; exact h.parent_none (hshape.length ▸ hi)
  inv hi := h.inv (hshape.length ▸ hi)
  player hi := by rw [hshape.player]; exact h.player (hshape.length ▸ hi)
  leads hc := by rw [hshape.parent] at hc; rw [hshape.move]; exact h.leads hc
  moves hi := by
    rw [hshape.untried, hshape.children, hshape.move]
    exact h.moves (hshape.length ▸ hi)

theorem TreeInv.parent_lt (h : TreeInv I s₀ t st) (hc : parentOf t c = some p) : p < t.length :=
  (h.linked.lt hc).trans (lt_of_parentOf hc)

/-- The move of a child is listed in the state of its parent. -/
theorem TreeInv.move_mem (h : TreeInv I s₀ t st) (hc : parentOf t c = some p) :
    ∃ m, moveOf t c = some m ∧ m ∈ G.getMoves (st p) ∧ G.doMove (st p) m = some (st c) := by
  obtain ⟨m, hm, hmove⟩ := h.leads hc
  refine ⟨m, hm, (h.moves (h.parent_lt hc)).subset ?_, hmove⟩
  exact List.mem_append_right _ (List.mem_filterMap.mpr ⟨c, h.linked.mem_iff.mpr hc, hm⟩)

/-- The players of a node and its child alternate. -/
theorem TreeInv.player_child (hG : Lawful G I rank) (h : TreeInv I s₀ t st)
    (hc : parentOf t c = some p) : playerOf t c = 3 - playerOf t p := by
  obtain ⟨m, -, hm, hmove⟩ := h.move_mem hc
  have hp := h.parent_lt hc
  rw [h.player (lt_of_parentOf hc), h.player hp]
  exact (hG.of_doMove (h.inv hp) hm hmove).2.1

/-- The state of a node is reached by the moves on the way to it. -/
theorem TreeInv.played (h : TreeInv I s₀ t st) : ∀ {i}, i < t.length → Played G s₀ (st i) := by
  intro i
  induction i using Nat.strong_induction_on with
  | h i ih =>
      intro hi
      cases hparent : parentOf t i with
      | none =>
          rw [(h.parent_none hi).mp hparent, h.root]
          exact .start
      | some p =>
          obtain ⟨m, -, hm, hmove⟩ := h.move_mem hparent
          exact .move (ih p (h.linked.lt hparent) (h.parent_lt hparent)) hm hmove

/-- The new tree. -/
theorem treeInv_new (hs : I s₀) :
    TreeInv I s₀ [Node.new none none s₀] (fun _ => s₀) := by
  have hnone : ∀ i, parentOf [(Node.new none none s₀ : Node G.Move)] i = none := by
    intro i
    cases i <;> rfl
  have hnil : ∀ i, childrenOf [(Node.new none none s₀ : Node G.Move)] i = [] := by
    intro i
    cases i <;> rfl
  have hzero : ∀ {i}, i < [(Node.new none none s₀ : Node G.Move)].length → i = 0 :=
    fun hi => Nat.lt_one_iff.mp hi
  constructor
  case linked =>
    constructor
    · intro p c
      simp [hnone, hnil]
    · intro p
      simp [hnil]
    · intro p c hc
      rw [hnone] at hc
      cases hc
  case pos => exact Nat.one_pos
  case root => rfl
  case parent_none => exact fun hi => iff_of_true (hnone _) (hzero hi)
  case inv => exact fun _ => hs
  case player =>
    intro i hi
    rw [hzero hi]
    rfl
  case leads =>
    intro p c hc
    rw [hnone] at hc
    cases hc
  case moves =>
    intro i hi
    rw [hnil, hzero hi, List.filterMap_nil, List.append_nil]
    exact .refl _

end MctsConnectFour.Uct
