/-
Nodes as values, and the lists they own.

`NodeData` has a pointer to an element of `m_moves_pool`, and with it its
own special members. All but one of them leave every element that is
handed out with one node. The copy assignment takes an element for its
copy, or none if there is nothing to copy, and never gives back the one
that its left side has. It is right exactly when that has none
(`step_keeps_iff`), and so a run is right exactly as long as this holds of
its assignments (`keepsAll_iff`).
-/
import MctsConnectFour.Lib.Ownership
import MctsConnectFour.Mcts.Expansion

namespace MctsConnectFour.Pooled

open Ownership (Owned Ledger)

variable {G : Game}

-- ==================================================== special members

namespace NodeData

/-- `NodeData ( )`. -/
def new : NodeData G := ⟨none, 0, 0, .invalid⟩

/-- `NodeData ( const NodeData & )`. -/
def copyConstruct (nd : NodeData G) (pool : MovesPool G) (answer : Nat) : NodeData G × MovesPool G :=
  match nd.moves with
  | none => (⟨none, nd.score, nd.visits, nd.playerJustMoved⟩, pool)
  | some p =>
      (⟨some answer, nd.score, nd.visits, nd.playerJustMoved⟩, pool.store answer (pool.content p))

/-- `NodeData ( NodeData && )`: what is constructed, and what is left. -/
def moveConstruct (nd : NodeData G) : NodeData G × NodeData G :=
  (⟨nd.moves, nd.score, nd.visits, nd.playerJustMoved⟩, { nd with moves := none })

/-- `operator = ( const NodeData & )`. -/
def copyAssign (d nd : NodeData G) (pool : MovesPool G) (answer : Nat) : NodeData G × MovesPool G :=
  match nd.moves with
  | none => (⟨d.moves, nd.score, nd.visits, nd.playerJustMoved⟩, pool)
  | some p =>
      (⟨some answer, nd.score, nd.visits, nd.playerJustMoved⟩, pool.store answer (pool.content p))

/-- `operator = ( NodeData && )`, of two nodes: both sides. -/
def moveAssign (d nd : NodeData G) : NodeData G × NodeData G :=
  (⟨nd.moves, nd.score, nd.visits, nd.playerJustMoved⟩, { nd with moves := d.moves })

/-- Where there is nothing to overwrite, assigning is constructing. -/
theorem copyAssign_eq {d : NodeData G} (hd : d.moves = none) (nd : NodeData G)
    (pool : MovesPool G) (answer : Nat) :
    d.copyAssign nd pool answer = nd.copyConstruct pool answer := by
  unfold copyAssign copyConstruct
  rw [hd]

end NodeData

-- =============================================================== runs

/-- The nodes there are, by address, and the pool of their lists. `taken`
are the elements that have been handed out so far. -/
structure Nodes (G : Game) where
  pool : MovesPool G
  taken : List Nat
  nodes : Nat → Option (NodeData G)

/-- What is done to nodes. `answer` is the pool's, if it is asked. -/
inductive NodeOp (G : Game) where
  | construct (i : Nat) (s : G.State) (answer : Nat)
  | defaultConstruct (i : Nat)
  | copyConstruct (i j answer : Nat)
  | moveConstruct (i j : Nat)
  | copyAssign (i j answer : Nat)
  | moveAssign (i j : Nat)
  | getUntriedMove (i : Nat) (ω : Rng)
  | destroy (i : Nat)

/-- The elements that a copy asks for. -/
def NodeData.asks (nd : NodeData G) (answer : Nat) : List Nat :=
  if nd.moves.isSome then [answer] else []

namespace Nodes

/-- A node is written, or goes. -/
def put (nodes : Nat → Option (NodeData G)) (i : Nat) (d : Option (NodeData G)) :
    Nat → Option (NodeData G) := fun k => if k = i then d else nodes k

def step (w : Nodes G) : NodeOp G → Nodes G
  | .construct i s answer =>
      let (d, pool) := NodeData.ofState s w.pool answer
      ⟨pool, answer :: w.taken, put w.nodes i (some d)⟩
  | .defaultConstruct i => { w with nodes := put w.nodes i (some .new) }
  | .copyConstruct i j answer =>
      match w.nodes j with
      | none => w
      | some nd =>
          let (d, pool) := nd.copyConstruct w.pool answer
          ⟨pool, nd.asks answer ++ w.taken, put w.nodes i (some d)⟩
  | .moveConstruct i j =>
      match w.nodes j with
      | none => w
      | some nd =>
          let (d, nd) := nd.moveConstruct
          { w with nodes := put (put w.nodes i (some d)) j (some nd) }
  | .copyAssign i j answer =>
      match w.nodes i, w.nodes j with
      | some d, some nd =>
          let (d, pool) := d.copyAssign nd w.pool answer
          ⟨pool, nd.asks answer ++ w.taken, put w.nodes i (some d)⟩
      | _, _ => w
  | .moveAssign i j =>
      match w.nodes i, w.nodes j with
      | some d, some nd =>
          let (d, nd) := d.moveAssign nd
          { w with nodes := put (put w.nodes i (some d)) j (some nd) }
      | _, _ => w
  | .getUntriedMove i ω =>
      match w.nodes i with
      | none => w
      | some d =>
          let (_, d, pool, _) := d.getUntriedMove w.pool ω
          { w with pool := pool, nodes := put w.nodes i (some d) }
  | .destroy i =>
      match w.nodes i with
      | none => w
      | some d => { w with pool := w.pool.deleteElement d.moves, nodes := put w.nodes i none }

/-- The element that a node has. -/
def held (nodes : Nat → Option (NodeData G)) (i : Nat) : Option Nat := (nodes i).bind NodeData.moves

/-- The elements that are handed out. -/
def out (pool : MovesPool G) (p : Nat) : Prop := pool.elements p ≠ none

/-- No node yet, and no element that is handed out. -/
def start : Nodes G := ⟨⟨fun _ => none, []⟩, [], fun _ => none⟩

end Nodes

/-- Nodes are constructed where there is none, and used where there is one.
A move is taken of a node that has some. The pool answers with an element
that is not handed out. -/
def NodeOp.Valid (w : Nodes G) : NodeOp G → Prop
  | construct i _ answer => w.nodes i = none ∧ ¬ Nodes.out w.pool answer
  | defaultConstruct i => w.nodes i = none
  | copyConstruct i j answer =>
      w.nodes i = none ∧ w.nodes j ≠ none ∧ ¬ Nodes.out w.pool answer
  | moveConstruct i j => w.nodes i = none ∧ w.nodes j ≠ none
  | copyAssign i j answer =>
      w.nodes i ≠ none ∧ w.nodes j ≠ none ∧ ¬ Nodes.out w.pool answer
  | moveAssign i j => w.nodes i ≠ none ∧ w.nodes j ≠ none
  | getUntriedMove i _ => Nodes.held w.nodes i ≠ none
  | destroy i => w.nodes i ≠ none

/-- The nodes have the elements that are handed out, each has its own, and
the books of the pool are in order. -/
structure Nodes.OwnsLists (w : Nodes G) : Prop where
  owned : Owned (fun i p => held w.nodes i = some p) (out w.pool)
  ledger : Ledger w.taken w.pool.returned (out w.pool)

/-- After the step from `w` to `w'`, the node `i` is a copy of what `j` is,
with a list of its own. -/
def Nodes.Copied (w w' : Nodes G) (i j : Nat) : Prop :=
  ∃ a b, w.nodes j = some b ∧ w'.nodes i = some a ∧ a.view w'.pool = b.view w.pool
    ∧ (a.moves = none ↔ b.moves = none)
    ∧ (i ≠ j → w'.nodes j = some b ∧ b.view w'.pool = b.view w.pool
        ∧ ∀ p, a.moves = some p → b.moves ≠ some p)

/-- What a step should do. -/
def NodeOp.Keeps (w : Nodes G) (op : NodeOp G) : Prop :=
  (w.step op).OwnsLists ∧
    match op with
    | copyConstruct i j _ => w.Copied (w.step op) i j
    | copyAssign i j _ => w.Copied (w.step op) i j
    | _ => True

/-- A copy is assigned only to a node that has no list. -/
def NodeOp.Clears (w : Nodes G) : NodeOp G → Prop
  | copyAssign i _ _ => Nodes.held w.nodes i = none
  | _ => True

/-- Something holds of every step of a run. -/
def Nodes.EveryStep (Q : Nodes G → NodeOp G → Prop) : Nodes G → List (NodeOp G) → Prop
  | _, [] => True
  | w, op :: ops => Q w op ∧ EveryStep Q (w.step op) ops

-- =========================================================== one step

namespace Nodes

theorem held_put (nodes : Nat → Option (NodeData G)) (i : Nat) (d : Option (NodeData G)) (k : Nat) :
    held (put nodes i d) k = if k = i then d.bind NodeData.moves else held nodes k := by
  unfold held put
  split <;> rfl

theorem held_eq {nodes : Nat → Option (NodeData G)} {i : Nat} {d : NodeData G}
    (hd : nodes i = some d) : held nodes i = d.moves := by
  rw [held, hd, Option.bind_some]

@[simp] theorem out_store (pool : MovesPool G) (p : Nat) (c : Moves G.Move G.maxNoMoves) (q : Nat) :
    out (pool.store p c) q ↔ out pool q ∨ q = p := by
  unfold out MovesPool.store
  by_cases hq : q = p
  · simp [hq]
  · simp [hq]

@[simp] theorem out_deleteElement (pool : MovesPool G) (p q : Nat) :
    out (pool.deleteElement (some p)) q ↔ out pool q ∧ q ≠ p := by
  unfold out MovesPool.deleteElement
  by_cases hq : q = p
  · simp [hq]
  · simp [hq]

variable {w : Nodes G} {i j answer : Nat} {d nd : NodeData G}

/-- A node that had no list gets the new element `answer`, or none. -/
theorem OwnsLists.take (h : w.OwnsLists) (hi : held w.nodes i = none) (hfree : ¬ out w.pool answer)
    (c : Moves G.Move G.maxNoMoves) (hd : d.moves = some answer) :
    OwnsLists ⟨w.pool.store answer c, answer :: w.taken, put w.nodes i (some d)⟩ := by
  constructor
  case owned =>
    refine h.owned.take (i := i) hfree (fun k q => ?_) (out_store w.pool answer c)
    rw [held_put]
    by_cases hk : k = i
    · subst hk
      rw [if_pos rfl, hi, Option.bind_some, hd]
      simp [eq_comm]
    · simp [hk]
  case ledger => exact h.ledger.take hfree (out_store w.pool answer c)

/-- A node that had no list still has none. -/
theorem OwnsLists.unchanged (h : w.OwnsLists) {o : Option (NodeData G)} (hi : held w.nodes i = none)
    (ho : o.bind NodeData.moves = none) : OwnsLists { w with nodes := put w.nodes i o } := by
  refine ⟨h.owned.congr (fun k q => ?_) fun _ => Iff.rfl, h.ledger⟩
  rw [held_put]
  by_cases hk : k = i
  · rw [if_pos hk, ho, hk, hi]
  · rw [if_neg hk]

/-- A node gives its element back. -/
theorem OwnsLists.give (h : w.OwnsLists) {p : Nat} {o : Option (NodeData G)}
    (hi : held w.nodes i = some p) (ho : o.bind NodeData.moves = none) :
    OwnsLists ⟨w.pool.deleteElement (some p), w.taken, put w.nodes i o⟩ := by
  constructor
  case owned =>
    refine h.owned.release (· = p) (fun k q => ?_) (out_deleteElement w.pool p)
    rw [held_put]
    by_cases hk : k = i
    · subst hk
      rw [if_pos rfl, ho, hi]
      simp [eq_comm]
    · rw [if_neg hk]
      refine ⟨fun hq => ⟨hq, fun heq => hk (h.owned.unique hq (heq ▸ hi))⟩, And.left⟩
  case ledger =>
    refine h.ledger.release (l := [p]) (fun q hq => ?_) (List.nodup_singleton p) (fun q => ?_)
    · rw [List.mem_singleton.mp hq]
      exact h.owned.mem hi
    · simp

/-- What is handed out only to be given back changes nothing but the
books. -/
theorem OwnsLists.giveBack (h : w.OwnsLists) (hfree : ¬ out w.pool answer) :
    OwnsLists ⟨{ w.pool with returned := answer :: w.pool.returned }, answer :: w.taken, w.nodes⟩ := by
  refine ⟨h.owned, ?_⟩
  have htaken : Ledger (answer :: w.taken) w.pool.returned fun q => out w.pool q ∨ q = answer :=
    h.ledger.take hfree fun _ => Iff.rfl
  refine htaken.release (l := [answer]) (fun q hq => Or.inr (List.mem_singleton.mp hq))
    (List.nodup_singleton answer) (fun q => ?_)
  rw [List.mem_singleton]
  constructor
  · intro hq
    exact ⟨Or.inl hq, fun heq => hfree (heq ▸ hq)⟩
  · intro hq
    exact hq.1.resolve_right hq.2

/-- A list changes its contents. -/
theorem OwnsLists.write (h : w.OwnsLists) {p : Nat} (hd : w.nodes i = some d)
    (hp : d.moves = some p) (c : Moves G.Move G.maxNoMoves) :
    OwnsLists { w with pool := w.pool.store p c, nodes := put w.nodes i (some d) } := by
  have hout : ∀ q, out (w.pool.store p c) q ↔ out w.pool q := by
    intro q
    rw [out_store]
    refine or_iff_left_of_imp fun hq => hq ▸ h.owned.mem (i := i) ?_
    rw [held_eq hd, hp]
  refine ⟨h.owned.congr (fun k q => ?_) hout, h.ledger.congr hout⟩
  rw [held_put]
  by_cases hk : k = i
  · rw [if_pos hk, hk, held_eq hd, Option.bind_some]
  · rw [if_neg hk]

/-- Two nodes exchange their lists. -/
theorem OwnsLists.swap (h : w.OwnsLists) (hd : d.moves = held w.nodes j)
    (hnd : nd.moves = held w.nodes i) :
    OwnsLists { w with nodes := put (put w.nodes i (some d)) j (some nd) } := by
  refine ⟨h.owned.permute (Equiv.swap i j) (fun k q => ?_) fun _ => Iff.rfl, h.ledger⟩
  rw [held_put, held_put]
  by_cases hkj : k = j
  · rw [if_pos hkj, hkj, Equiv.swap_apply_right, Option.bind_some, hnd]
  · by_cases hki : k = i
    · rw [if_neg hkj, if_pos hki, hki, Equiv.swap_apply_left, Option.bind_some, hd]
    · rw [if_neg hkj, if_neg hki, Equiv.swap_apply_of_ne_of_ne hki hkj]

/-- A copy that is put where there was no list. -/
theorem OwnsLists.copy (h : w.OwnsLists) (hi : held w.nodes i = none) (hnd : w.nodes j = some nd)
    (hfree : ¬ out w.pool answer) :
    let w' : Nodes G := ⟨(nd.copyConstruct w.pool answer).2, nd.asks answer ++ w.taken,
      put w.nodes i (some (nd.copyConstruct w.pool answer).1)⟩
    w'.OwnsLists ∧ w.Copied w' i j := by
  intro w'
  cases hmoves : nd.moves with
  | none =>
      have hcopy : nd.copyConstruct w.pool answer
          = (⟨none, nd.score, nd.visits, nd.playerJustMoved⟩, w.pool) := by
        unfold NodeData.copyConstruct
        rw [hmoves]
      have hw' : w' = { w with
          nodes := put w.nodes i (some ⟨none, nd.score, nd.visits, nd.playerJustMoved⟩) } := by
        show (⟨_, _, _⟩ : Nodes G) = _
        rw [hcopy, NodeData.asks, hmoves]
        rfl
      rw [hw']
      refine ⟨h.unchanged hi rfl, _, nd, hnd, if_pos rfl, ?_, iff_of_true rfl hmoves, fun hij => ?_⟩
      · unfold NodeData.view
        rw [hmoves]
      · exact ⟨(if_neg (Ne.symm hij)).trans hnd, rfl, fun p hp => absurd hp (by simp)⟩
  | some p =>
      have hcopy : nd.copyConstruct w.pool answer
          = (⟨some answer, nd.score, nd.visits, nd.playerJustMoved⟩,
              w.pool.store answer (w.pool.content p)) := by
        unfold NodeData.copyConstruct
        rw [hmoves]
      have hw' : w' = ⟨w.pool.store answer (w.pool.content p), answer :: w.taken,
          put w.nodes i (some ⟨some answer, nd.score, nd.visits, nd.playerJustMoved⟩)⟩ := by
        show (⟨_, _, _⟩ : Nodes G) = _
        rw [hcopy, NodeData.asks, hmoves]
        rfl
      have hout : out w.pool p := h.owned.mem (i := j) (by rw [held_eq hnd, hmoves])
      have hpa : p ≠ answer := fun heq => hfree (heq ▸ hout)
      obtain ⟨c, hc⟩ := Option.ne_none_iff_exists'.mp hout
      rw [hw']
      refine ⟨h.take hi hfree _ rfl, _, nd, hnd, if_pos rfl, ?_,
        iff_of_false (by simp) (by rw [hmoves]; simp), fun hij => ?_⟩
      · unfold NodeData.view
        rw [hmoves, Option.bind_some, Option.bind_some, MovesPool.elements_store,
          MovesPool.content, hc, Option.getD_some]
      · refine ⟨(if_neg (Ne.symm hij)).trans hnd, ?_, fun q hq hq' => ?_⟩
        · unfold NodeData.view
          rw [hmoves, Option.bind_some, Option.bind_some]
          show (⟨(w.pool.store answer _).elements p, _, _, _⟩ : MctsConnectFour.NodeData G) = _
          rw [MovesPool.store]
          simp only [if_neg hpa]
        · obtain rfl := Option.some.inj hq
          exact hpa (Option.some.inj (hmoves.symm.trans hq'))

/-- A copy that is assigned to a node with a list is no copy, or that list
is nobody's. -/
theorem OwnsLists.not_keeps (h : w.OwnsLists) (hd : w.nodes i = some d) (hnd : w.nodes j = some nd)
    {p : Nat} (hp : d.moves = some p) (hfree : ¬ out w.pool answer) :
    ¬ (NodeOp.copyAssign i j answer).Keeps w := by
  have hheld : held w.nodes i = some p := by rw [held_eq hd, hp]
  have hout := h.owned.mem hheld
  intro hkeeps
  obtain ⟨howns, a, b, hb, ha, -, hnull, -⟩ := hkeeps
  obtain rfl := Option.some.inj (hnd.symm.trans hb)
  simp only [step, hd, hnd] at ha howns
  have ha' : a = (d.copyAssign nd w.pool answer).1 := by
    rw [put, if_pos rfl] at ha
    exact (Option.some.inj ha).symm
  cases hmoves : nd.moves with
  | none =>
      rw [ha', NodeData.copyAssign, hmoves] at hnull
      exact absurd (hnull.mpr rfl) (by rw [hp]; simp)
  | some q =>
      rw [NodeData.copyAssign, hmoves] at howns
      refine h.owned.leak hheld ?_ (fun k hk hheld' => ?_) ?_ howns.owned
      · rw [held_put, if_pos rfl, Option.bind_some]
        exact fun heq => hfree (Option.some.inj heq ▸ hout)
      · rwa [held_put, if_neg hk] at hheld'
      · exact (out_store ..).mpr (Or.inl hout)

/-- A step does what it should if and only if it does not assign a copy to
a node with a list. -/
theorem step_keeps_iff (h : w.OwnsLists) {op : NodeOp G} (hv : op.Valid w) :
    op.Keeps w ↔ op.Clears w := by
  cases op with
  | construct i s answer =>
      obtain ⟨hi, hfree⟩ := hv
      have hheld : held w.nodes i = none := by rw [held, hi, Option.bind_none]
      refine iff_of_true ⟨?_, trivial⟩ trivial
      simp only [step, NodeData.ofState, MovesPool.newElement, MovesPool.store_store]
      split
      · exact h.take hheld hfree _ rfl
      · rw [MovesPool.deleteElement_store (not_not.mp hfree)]
        exact (h.giveBack hfree).unchanged hheld rfl
  | defaultConstruct i =>
      have hheld : held w.nodes i = none := by rw [held, hv, Option.bind_none]
      exact iff_of_true ⟨h.unchanged hheld rfl, trivial⟩ trivial
  | copyConstruct i j answer =>
      obtain ⟨hi, hj, hfree⟩ := hv
      obtain ⟨nd, hnd⟩ := Option.ne_none_iff_exists'.mp hj
      have hheld : held w.nodes i = none := by rw [held, hi, Option.bind_none]
      refine iff_of_true ?_ trivial
      unfold NodeOp.Keeps
      simp only [step, hnd]
      exact h.copy hheld hnd hfree
  | moveConstruct i j =>
      obtain ⟨hi, hj⟩ := hv
      obtain ⟨nd, hnd⟩ := Option.ne_none_iff_exists'.mp hj
      refine iff_of_true ⟨?_, trivial⟩ trivial
      simp only [step, hnd]
      refine h.swap ?_ ?_
      · rw [held_eq hnd]
        rfl
      · rw [held, hi]
        rfl
  | copyAssign i j answer =>
      obtain ⟨hi, hj, hfree⟩ := hv
      obtain ⟨d, hd⟩ := Option.ne_none_iff_exists'.mp hi
      obtain ⟨nd, hnd⟩ := Option.ne_none_iff_exists'.mp hj
      show _ ↔ held w.nodes i = none
      rw [held_eq hd]
      cases hmoves : d.moves with
      | none =>
          refine iff_of_true ?_ rfl
          unfold NodeOp.Keeps
          simp only [step, hd, hnd, NodeData.copyAssign_eq hmoves]
          exact h.copy (by rw [held_eq hd, hmoves]) hnd hfree
      | some p => exact iff_of_false (h.not_keeps hd hnd hmoves hfree) (by simp)
  | moveAssign i j =>
      obtain ⟨hi, hj⟩ := hv
      obtain ⟨d, hd⟩ := Option.ne_none_iff_exists'.mp hi
      obtain ⟨nd, hnd⟩ := Option.ne_none_iff_exists'.mp hj
      refine iff_of_true ⟨?_, trivial⟩ trivial
      simp only [step, hd, hnd]
      refine h.swap ?_ ?_
      · rw [held_eq hnd]
        rfl
      · rw [held_eq hd]
        rfl
  | getUntriedMove i ω =>
      obtain ⟨p, hp⟩ := Option.ne_none_iff_exists'.mp hv
      obtain ⟨d, hd, hmoves⟩ := Option.bind_eq_some_iff.mp hp
      refine iff_of_true ⟨?_, trivial⟩ trivial
      simp only [step, hd]
      unfold NodeData.getUntriedMove
      simp only [hmoves]
      by_cases hone : (w.pool.content p).size = 1
      · simp only [if_pos hone]
        exact h.give hp rfl
      · simp only [if_neg hone]
        exact h.write hd hmoves _
  | destroy i =>
      obtain ⟨d, hd⟩ := Option.ne_none_iff_exists'.mp hv
      refine iff_of_true ⟨?_, trivial⟩ trivial
      simp only [step, hd]
      cases hmoves : d.moves with
      | none => exact h.unchanged (by rw [held_eq hd, hmoves]) rfl
      | some p => exact h.give (by rw [held_eq hd, hmoves]) rfl

-- ============================================================ whole runs

theorem ownsLists_start : (start : Nodes G).OwnsLists :=
  ⟨⟨fun _ => iff_of_false (fun h => h rfl) (by simp [held, start]), by simp [held, start]⟩,
    Ownership.ledger_nil fun _ h => h rfl⟩

/-- From a state in order, a run does what it should exactly as long as
its assignments do. -/
theorem OwnsLists.run_iff (h : w.OwnsLists) {ops : List (NodeOp G)}
    (hv : w.EveryStep (fun w op => op.Valid w) ops) :
    w.EveryStep (fun w op => op.Keeps w) ops ↔ w.EveryStep (fun w op => op.Clears w) ops := by
  induction ops generalizing w with
  | nil => exact Iff.rfl
  | cons op ops ih =>
      have hstep := step_keeps_iff h hv.1
      constructor
      · intro hkeeps
        exact ⟨hstep.mp hkeeps.1, (ih hkeeps.1.1 hv.2).mp hkeeps.2⟩
      · intro hclears
        have hkeeps := hstep.mpr hclears.1
        exact ⟨hkeeps, (ih hkeeps.1 hv.2).mpr hclears.2⟩

end Nodes

/-- In every run, the nodes own their lists after each step, and copies are
copies, if and only if no copy is assigned to a node that has a list. -/
theorem keepsAll_iff {ops : List (NodeOp G)}
    (hv : (Nodes.start : Nodes G).EveryStep (fun w op => op.Valid w) ops) :
    (Nodes.start : Nodes G).EveryStep (fun w op => op.Keeps w) ops
      ↔ (Nodes.start : Nodes G).EveryStep (fun w op => op.Clears w) ops :=
  Nodes.ownsLists_start.run_iff hv

/-- A node, one that it is assigned to, and its end. -/
theorem keepsAll_iff_oneCell :
    let G := ConnectFour.game ConnectFour.oneCell
    let s : G.State := ConnectFour.new ConnectFour.oneCell .agent
    let ops : List (NodeOp G) :=
      [.construct 0 s 0, .defaultConstruct 1, .copyAssign 1 0 1, .destroy 0]
    (Nodes.start : Nodes G).EveryStep (fun w op => op.Keeps w) ops
      ↔ (Nodes.start : Nodes G).EveryStep (fun w op => op.Clears w) ops :=
  keepsAll_iff ⟨⟨rfl, fun h => h rfl⟩, rfl, ⟨nofun, nofun, fun h => h rfl⟩, nofun, trivial⟩

/-- Of two nodes with a list each, one is assigned to the other. -/
theorem assigned_list_leaks :
    let G := ConnectFour.game ConnectFour.oneCell
    let s : G.State := ConnectFour.new ConnectFour.oneCell .agent
    let ops : List (NodeOp G) := [.construct 0 s 0, .construct 1 s 1, .copyAssign 0 1 2]
    (Nodes.start : Nodes G).EveryStep (fun w op => op.Valid w) ops
      ∧ ¬ (Nodes.start : Nodes G).EveryStep (fun w op => op.Keeps w) ops := by
  intro G s ops
  have hv : (Nodes.start : Nodes G).EveryStep (fun w op => op.Valid w) ops :=
    ⟨⟨rfl, fun h => h rfl⟩, ⟨rfl, fun h => h rfl⟩, ⟨nofun, nofun, fun h => h rfl⟩, trivial⟩
  refine ⟨hv, fun hkeeps => ?_⟩
  obtain ⟨-, -, hclears, -⟩ := (Nodes.ownsLists_start.run_iff hv).mp hkeeps
  change Nodes.held _ 0 = none at hclears
  revert hclears
  decide

end MctsConnectFour.Pooled
