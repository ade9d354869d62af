/-
Expansion tries every move once.

Here a node is what it is in the source: its moves are behind a pointer
to an element of `m_moves_pool`. The pool is seen from outside, as the
contents of the elements handed out and a record of those given back; an
element that is asked for comes with its address, and what the allocator
promises of it is that nobody has it. `view` forgets the pointers, and
the operations of the node are those of the search (Mcts/Basic.lean) seen
through it.

Draining a node is then a loop whose measure is the number of untried
moves: it turns exactly as often as there are moves, and what it has
returned and what is untried are together the listed moves.
-/
import MctsConnectFour.Mcts.Tree

namespace MctsConnectFour

variable {G : Game} {s₀ s : G.State}

-- =========================================================== the pool

/-- `m_moves_pool`: the elements handed out, and those given back, the last
one first. -/
structure MovesPool (G : Game) where
  elements : Nat → Option (Moves G.Move G.maxNoMoves)
  returned : List Nat

namespace MovesPool

/-- An element is written. -/
def store (pool : MovesPool G) (p : Nat) (c : Moves G.Move G.maxNoMoves) : MovesPool G :=
  { pool with elements := fun i => if i = p then some c else pool.elements i }

/-- `new_element ( )`, answered: the element is default constructed. -/
def newElement (pool : MovesPool G) (answer : Nat) : MovesPool G := pool.store answer .new

/-- `delete_element ( )`, of null or an element. -/
def deleteElement (pool : MovesPool G) : Option Nat → MovesPool G
  | none => pool
  | some p =>
      { elements := fun i => if i = p then none else pool.elements i
        returned := p :: pool.returned }

/-- What is behind a pointer. -/
def content (pool : MovesPool G) (p : Nat) : Moves G.Move G.maxNoMoves :=
  (pool.elements p).getD .new

@[simp] theorem elements_store (pool : MovesPool G) (p : Nat) (c : Moves G.Move G.maxNoMoves) :
    (pool.store p c).elements p = some c := if_pos rfl

@[simp] theorem content_store (pool : MovesPool G) (p : Nat) (c : Moves G.Move G.maxNoMoves) :
    (pool.store p c).content p = c := by
  rw [content, elements_store, Option.getD_some]

@[simp] theorem store_store (pool : MovesPool G) (p : Nat) (c c' : Moves G.Move G.maxNoMoves) :
    (pool.store p c).store p c' = pool.store p c' := by
  unfold store
  simp only [mk.injEq, and_true]
  funext i
  split <;> rfl

/-- An element that was free is free again when it has been given back. -/
theorem deleteElement_store {pool : MovesPool G} {p : Nat} (hfree : pool.elements p = none)
    (c : Moves G.Move G.maxNoMoves) :
    (pool.store p c).deleteElement (some p) = { pool with returned := p :: pool.returned } := by
  unfold store deleteElement
  simp only [mk.injEq, and_true]
  funext i
  split
  · next heq => rw [heq, hfree]
  · rfl

end MovesPool

-- ============================================================== nodes

namespace Pooled

/-- `NodeData`, with its pointer. -/
structure NodeData (G : Game) where
  moves : Option Nat
  score : Float32
  visits : Int
  playerJustMoved : Player

namespace NodeData

/-- `NodeData ( const State & )`; `answer` is the pool's. -/
def ofState (s : G.State) (pool : MovesPool G) (answer : Nat) : NodeData G × MovesPool G :=
  let pool := pool.newElement answer
  let (more, c) := G.moves s (pool.content answer)
  let pool := pool.store answer c
  if more then (⟨some answer, 0, 0, G.playerJustMoved s⟩, pool)
  else (⟨none, 0, 0, G.playerJustMoved s⟩, pool.deleteElement (some answer))

/-- `NodeData::getUntriedMove ( )`, which is called on nodes with a
container only. -/
def getUntriedMove (d : NodeData G) (pool : MovesPool G) (ω : Rng) :
    G.Move × NodeData G × MovesPool G × Rng :=
  match d.moves with
  | none => (default, d, pool, ω)
  | some p =>
      let c := pool.content p
      if c.size = 1 then
        (c.front, { d with moves := none }, pool.deleteElement d.moves, ω)
      else ((c.draw ω).1, d, pool.store p (c.draw ω).2.1, (c.draw ω).2.2)

/-- The node with its moves in it. -/
def view (d : NodeData G) (pool : MovesPool G) : MctsConnectFour.NodeData G where
  moves := d.moves.bind pool.elements
  score := d.score
  visits := d.visits
  playerJustMoved := d.playerJustMoved

/-- A node constructed from a state is the one of the search. -/
theorem view_ofState (s : G.State) (pool : MovesPool G) (answer : Nat) :
    (ofState s pool answer).1.view (ofState s pool answer).2 = .ofState s := by
  unfold ofState MctsConnectFour.NodeData.ofState view
  simp only [MovesPool.newElement, MovesPool.content_store]
  cases hmore : (G.moves s .new).1 with
  | true =>
      simp only [if_true, Option.bind_some]
      rw [MovesPool.elements_store]
  | false => simp

/-- So is what `getUntriedMove ( )` returns and leaves. -/
theorem view_getUntriedMove {d : NodeData G} {pool : MovesPool G} {p : Nat}
    (hp : d.moves = some p) {c : Moves G.Move G.maxNoMoves} (hc : pool.elements p = some c)
    (ω : Rng) :
    (d.view pool).getUntriedMove ω
      = ((d.getUntriedMove pool ω).1,
          (d.getUntriedMove pool ω).2.1.view (d.getUntriedMove pool ω).2.2.1,
          (d.getUntriedMove pool ω).2.2.2) := by
  have hview : (d.view pool).moves = some c := by
    unfold view
    rw [hp, Option.bind_some, hc]
  have hcontent : pool.content p = c := by
    rw [MovesPool.content, hc, Option.getD_some]
  unfold getUntriedMove MctsConnectFour.NodeData.getUntriedMove
  simp only [hview, hp, hcontent]
  by_cases hone : c.size = 1
  · rw [if_pos hone, if_pos hone]
    rfl
  · rw [if_neg hone, if_neg hone]
    unfold view
    simp only [hp, Option.bind_some, MovesPool.elements_store]

end NodeData

-- =========================================================== draining

/-- A node in a loop that tries its moves, and what it has returned. -/
structure Drain (G : Game) where
  node : NodeData G
  pool : MovesPool G
  drawn : List G.Move
  rng : Rng

namespace Drain

/-- A node constructed from a state. -/
def ofState (s : G.State) (pool : MovesPool G) (answer : Nat) (ω : Rng) : Drain G :=
  let (node, pool) := NodeData.ofState s pool answer
  ⟨node, pool, [], ω⟩

/-- `m_moves` is not null. -/
def more (x : Drain G) : Bool := x.node.moves.isSome

/-- A call. -/
def turn (x : Drain G) : Drain G :=
  let (move, node, pool, rng) := x.node.getUntriedMove x.pool x.rng
  ⟨node, pool, x.drawn ++ [move], rng⟩

/-- Call after call, as long as there are moves. -/
def run (fuel : Nat) (x : Drain G) : Option (Drain G) :=
  Loops.whileLoop more (fun x => some x.turn) fuel x

/-- What is known of a node that is being drained: the moves returned and
those left are the listed moves, and the element at `p` is the node's as
long as there are some. -/
structure Inv (s : G.State) (pool : MovesPool G) (p : Nat) (x : Drain G) : Prop where
  moves : (x.drawn ++ (x.node.view x.pool).untried).Perm (G.legal s)
  stocked : (x.node.view x.pool).Stocked
  element : (x.node.moves = some p ∧ ∃ c, x.pool = pool.store p c)
    ∨ x.node.moves = none ∧ x.pool = { pool with returned := p :: pool.returned }

variable {pool : MovesPool G} {p : Nat} {x : Drain G}

/-- The node has a pointer exactly when it is seen to have moves. -/
theorem Inv.view_moves (h : x.Inv s pool p) :
    (x.node.view x.pool).moves = none ↔ x.node.moves = none := by
  rcases h.element with ⟨hp, c, hpool⟩ | ⟨hnull, -⟩
  · refine iff_of_false ?_ (by rw [hp]; exact Option.some_ne_none p)
    unfold NodeData.view
    rw [hp, hpool, Option.bind_some, MovesPool.elements_store]
    exact Option.some_ne_none c
  · refine iff_of_true ?_ hnull
    unfold NodeData.view
    rw [hnull, Option.bind_none]

/-- `m_moves` is null when all has been returned, and not before. -/
theorem Inv.moves_eq_none_iff (h : x.Inv s pool p) :
    x.node.moves = none ↔ x.drawn.length = (G.legal s).length := by
  rw [← h.view_moves, h.stocked.moves_eq_none_iff, ← h.moves.length_eq, List.length_append,
    ← List.length_eq_zero_iff]
  omega

/-- By then the listed moves have been returned, and the element with them. -/
theorem Inv.drained (h : x.Inv s pool p) (hnull : x.node.moves = none) :
    x.drawn.Perm (G.legal s) ∧ x.pool = { pool with returned := p :: pool.returned } := by
  constructor
  · have hleft := h.stocked.moves_eq_none_iff.mp (h.view_moves.mpr hnull)
    have hmoves := h.moves
    rwa [hleft, List.append_nil] at hmoves
  · rcases h.element with ⟨hp, -⟩ | ⟨-, hback⟩
    · rw [hp] at hnull
      cases hnull
    · exact hback

theorem Inv.length_drawn_le (h : x.Inv s pool p) : x.drawn.length ≤ (G.legal s).length := by
  rw [← h.moves.length_eq, List.length_append]
  omega

theorem length_drawn_turn (x : Drain G) : x.turn.drawn.length = x.drawn.length + 1 :=
  List.length_append

/-- A call takes one move out of what is left. -/
theorem Inv.turn (hfree : pool.elements p = none) (h : x.Inv s pool p) (hmore : x.more = true) :
    x.turn.Inv s pool p := by
  rcases h.element with ⟨hp, c, hpool⟩ | ⟨hnull, -⟩
  · have hc : x.pool.elements p = some c := by
      rw [hpool, MovesPool.elements_store]
    have hview := NodeData.view_getUntriedMove hp hc x.rng
    have hsome : (x.node.view x.pool).moves.isSome = true := by
      rw [Option.isSome_iff_ne_none, Ne, h.view_moves, hp]
      exact Option.some_ne_none p
    obtain ⟨hperm, hstocked, -⟩ := h.stocked.getUntriedMove hsome x.rng
    rw [hview] at hperm hstocked
    constructor
    case moves =>
      calc (x.drawn ++ [(x.node.getUntriedMove x.pool x.rng).1]
            ++ (x.turn.node.view x.turn.pool).untried).Perm
            (x.drawn ++ (x.node.view x.pool).untried) := by
              rw [List.append_assoc]
              exact hperm.append_left _
        _ |>.Perm (G.legal s) := h.moves
    case stocked => exact hstocked
    case element =>
      unfold Drain.turn NodeData.getUntriedMove
      simp only [hp]
      by_cases hone : (x.pool.content p).size = 1
      · -- the last move: the element is given back
        rw [if_pos hone, hpool, MovesPool.deleteElement_store hfree]
        exact Or.inr ⟨rfl, rfl⟩
      · rw [if_neg hone, hpool, MovesPool.store_store]
        exact Or.inl ⟨hp, _, rfl⟩
  · unfold more at hmore
    rw [hnull] at hmore
    cases hmore

/-- The loop makes as many calls as there are moves left. -/
theorem run_iff (hfree : pool.elements p = none) (h : x.Inv s pool p) (hnew : x.drawn = [])
    (fuel : Nat) : (∃ y, x.run fuel = some y) ↔ (G.legal s).length ≤ fuel := by
  have hcount : (∃ y, x.run fuel = some y) ↔ (G.legal s).length - x.drawn.length ≤ fuel := by
    refine Loops.whileLoop_count (I := Inv s pool p)
      (fun x : Drain G => (G.legal s).length - x.drawn.length) ?_ ?_ h
    · intro x h
      have hle := h.length_drawn_le
      unfold more
      rw [Option.isSome_iff_ne_none, Ne, h.moves_eq_none_iff]
      omega
    · intro x h hmore
      have hturn := h.turn hfree hmore
      have hle := hturn.length_drawn_le
      have hlength := length_drawn_turn x
      exact ⟨x.turn, rfl, hturn, by omega⟩
  rwa [hnew] at hcount

/-- A node constructed from a state has all listed moves left. -/
theorem inv_ofState (hG : G.Lawful s₀) (hs : G.Mixed s₀ s) (hfree : pool.elements p = none)
    (ω : Rng) : (ofState s pool p ω).Inv s pool p := by
  have hview := NodeData.view_ofState s pool p
  constructor
  case moves =>
    show ([] ++ ((NodeData.ofState s pool p).1.view (NodeData.ofState s pool p).2).untried).Perm _
    rw [hview, List.nil_append, NodeData.untried_ofState hG hs]
  case stocked =>
    show ((NodeData.ofState s pool p).1.view (NodeData.ofState s pool p).2).Stocked
    rw [hview]
    exact NodeData.stocked_ofState hG hs
  case element =>
    unfold ofState NodeData.ofState
    simp only [MovesPool.newElement, MovesPool.store_store]
    split
    · exact Or.inl ⟨rfl, _, rfl⟩
    · rw [MovesPool.deleteElement_store hfree]
      exact Or.inr ⟨rfl, rfl⟩

end Drain

/-- A node constructed from a state returns each listed move exactly once,
in as many calls; then, and not before, its element is given back, and it
is given back at once if the game has ended. -/
theorem expansion_complete (hgame : Setting G s₀) (hs : G.Mixed s₀ s) {pool : MovesPool G}
    {p : Nat} (hfree : pool.elements p = none) (ω : Rng) :
    let start := Drain.ofState s pool p ω
    let givenBack : MovesPool G := { pool with returned := p :: pool.returned }
    (G.ended s ≠ none → start.node.moves = none ∧ start.pool = givenBack)
      ∧ (∀ x, Loops.Met Drain.more (fun x => some x.turn) start x →
          (x.node.moves = none ↔ x.drawn.length = (G.legal s).length)
            ∧ (x.node.moves ≠ none → x.pool.returned = pool.returned))
      ∧ (∀ fuel, (∃ x, start.run fuel = some x) ↔ (G.legal s).length ≤ fuel)
      ∧ ∀ fuel x, start.run fuel = some x →
          x.drawn.Perm (G.legal s) ∧ x.drawn.Nodup ∧ x.node.moves = none
            ∧ x.pool = givenBack := by
  have hG := hgame.lawful
  have hstart := Drain.inv_ofState hG hs hfree ω
  intro start givenBack
  have hinv : ∀ x, Loops.Met Drain.more (fun x => some x.turn) start x → x.Inv s pool p :=
    fun x hx => hx.inv (fun y y' hy hmore hturn => by
      obtain rfl := Option.some.inj hturn
      exact hy.turn hfree hmore) hstart
  refine ⟨?_, ?_, ?_, ?_⟩
  · intro hended
    have hnull : start.node.moves = none := by
      rw [hstart.moves_eq_none_iff, hgame.legal_of_ended hs hended]
      rfl
    exact ⟨hnull, (hstart.drained hnull).2⟩
  · intro x hx
    refine ⟨(hinv x hx).moves_eq_none_iff, fun hmore => ?_⟩
    rcases (hinv x hx).element with ⟨-, c, hpool⟩ | ⟨hnull, -⟩
    · rw [hpool]
      rfl
    · exact absurd hnull hmore
  · intro fuel
    exact Drain.run_iff hfree hstart rfl fuel
  · intro fuel x hx
    obtain ⟨hmet, hdone⟩ := Loops.whileLoop_met .start hx
    have h := hinv x hmet
    have hnull : x.node.moves = none := by
      unfold Drain.more at hdone
      exact Option.not_isSome_iff_eq_none.mp (by rw [hdone]; decide)
    obtain ⟨hperm, hback⟩ := h.drained hnull
    exact ⟨hperm, hperm.nodup_iff.mpr (hG.legal_nodup hs), hnull, hback⟩

/-- The first moves on the default board. -/
theorem expansion_complete_default :
    let G := ConnectFour.game ConnectFour.defaultKeys
    let s := ConnectFour.new ConnectFour.defaultKeys .agent
    let pool : MovesPool G := ⟨fun _ => none, []⟩
    let start := Drain.ofState s pool 0 fun k => k
    let givenBack : MovesPool G := { pool with returned := 0 :: pool.returned }
    (G.ended s ≠ none → start.node.moves = none ∧ start.pool = givenBack)
      ∧ (∀ x, Loops.Met Drain.more (fun x => some x.turn) start x →
          (x.node.moves = none ↔ x.drawn.length = (G.legal s).length)
            ∧ (x.node.moves ≠ none → x.pool.returned = pool.returned))
      ∧ (∀ fuel, (∃ x, start.run fuel = some x) ↔ (G.legal s).length ≤ fuel)
      ∧ ∀ fuel x, start.run fuel = some x →
          x.drawn.Perm (G.legal s) ∧ x.drawn.Nodup ∧ x.node.moves = none
            ∧ x.pool = givenBack :=
  expansion_complete ConnectFour.setting_default .start rfl _

end Pooled

end MctsConnectFour
