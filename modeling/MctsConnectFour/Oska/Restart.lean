/-
Starting a second game on an Oska state.

The first `initialize ( )` and every later one lay the same boards and
stone lists (`Laid`), reset counters, verdict and last move, and leave the
choice of the player to move to chance. The hash is the exception: a new
state has the key of the vacant player, the first time adds the keys of
the stones, and later times leave what the game before has made of it. A
second game has the hashes of the first exactly when that game has brought
the hash back to where it began (`restarted_iff`).
-/
import MctsConnectFour.Laws
import MctsConnectFour.Oska.Hash

namespace MctsConnectFour.Oska

open MaMatrix (InRange)

variable {S : Nat} {T : Statics S} {s t : State S}

-- ============================================================== statements

/-- `t₀` starts a game like `s₀` does, but for the player to move: the
same stones, the same hash, and positions hash in its games as they do in
those of `s₀`. -/
structure Restarted (T : Statics S) (s₀ t₀ : State S) : Prop where
  agentBoard : t₀.agentBoard = s₀.agentBoard
  humanBoard : t₀.humanBoard = s₀.humanBoard
  agentStoneId : t₀.agentStoneId = s₀.agentStoneId
  humanStoneId : t₀.humanStoneId = s₀.humanStoneId
  noHomeAgent : t₀.noHomeAgent = s₀.noHomeAgent
  noHomeHuman : t₀.noHomeHuman = s₀.noHomeHuman
  winner : t₀.winner = s₀.winner
  lastMove : t₀.lastMove = s₀.lastMove
  zobristHash : t₀.zobristHash = s₀.zobristHash
  alike : ∀ {s t}, HashRun T s₀ s → HashRun T t₀ t → t.agentBoard = s.agentBoard →
    t.playerToMove = s.playerToMove → zobrist T t = zobrist T s

-- ============================================================ boards laid

section Laid

variable (hS : 3 ≤ S)

include hS

/-- The boards laid are always the same. -/
theorem Laid.boards_eq (h : Laid (cells S) s) (h' : Laid (cells S) t) :
    t.agentBoard = s.agentBoard ∧ t.humanBoard = s.humanBoard := by
  have hagent : t.agentBoard = s.agentBoard := by
    apply MaMatrix.ext_at'
    intro c r hr
    by_cases hhex : Hexagon S c r
    · obtain ⟨cell, hcell, rfl, rfl⟩ := hhex.exists_cell hS
      rw [h.inside cell hcell, h'.inside cell hcell]
    · have hnot : ∀ cell ∈ cells S, ¬ (c = (cell.1 : Int) ∧ r = (cell.2 : Int)) := by
        intro cell hcell heq
        rw [heq.1, heq.2] at hhex
        exact hhex ((mem_cells hS).mp hcell)
      rw [h.outside c r hr hnot, h'.outside c r hr hnot]
  refine ⟨hagent, ?_⟩
  apply MaMatrix.ext_at'
  intro c r hr
  rw [h.mirror c r hr, h'.mirror c r hr, hagent]

end Laid

-- ================================================= what the loops leave be

/-- The first `initialize ( )` leaves the last move of a new state. -/
theorem lastMove_once (hS : 3 ≤ S) {T₀ : Statics S} {p : Player} {ω : Rng} {x : Setup S}
    (hx : initializeState T₀ (new T₀ p) ω = some x) : x.state.lastMove = Move.root := by
  obtain ⟨-, rfl⟩ := initializeState_once hx
  refine rowLoops_inv hS (f := Setup.placeCell)
    (I := fun _ x => x.state.lastMove = Move.root) rfl ?_
  intro q row done cell x _ h
  unfold Setup.placeCell
  simp only
  split
  · exact h
  · exact h

/-- A later one leaves the hash, and is the only thing it leaves. -/
theorem again_spec (hS : 3 ≤ S) (hs : s.isOnceInitialized = true) (ω : Rng) :
    ∃ y, initializeState T s ω = some y ∧ y.statics = T ∧ Start y.state
      ∧ y.state.lastMove = Move.root ∧ y.state.zobristHash = s.zobristHash := by
  obtain ⟨y, hy⟩ : ∃ y, initializeState T s ω = some y := by
    unfold initializeState
    rw [if_neg (by simp [hs])]
    exact ⟨_, rfl⟩
  obtain ⟨hstatics, hstart, -⟩ := start_again hS hs hy
  refine ⟨y, hy, hstatics, hstart, ?_⟩
  unfold initializeState at hy
  rw [if_neg (by simp [hs])] at hy
  obtain rfl := Option.some.inj hy
  refine ⟨rfl, ?_⟩
  exact rowLoops_inv hS
    (f := fun p row (x : State S × Int) cell => (x.1.placeStone p row cell x.2, x.2 + 1))
    (I := fun _ (x : State S × Int) => x.1.zobristHash = s.zobristHash)
    (b := ({ s with
        agentBoard := .fill .invalid
        humanBoard := .fill .invalid
        agentStoneId := []
        humanStoneId := [] }, 0)) rfl fun _ _ _ _ _ _ h => h

/-- A state that has been initialised stays so. -/
theorem isOnceInitialized_run {ops : Game.MoveOp → Prop} {s₀ : State S}
    (h₀ : s₀.isOnceInitialized = true) (hrun : (game T).Run ops s₀ s) :
    s.isOnceInitialized = true := by
  refine hrun.invariant (I := fun s : State S => s.isOnceInitialized = true) h₀ ?_
  intro s op m h _ _
  obtain ⟨hash, winner, heq⟩ := apply_eq (T := T) (s := s) (m := m) op
  rw [heq]
  exact place_rest.2.2.2.2.trans h

-- ================================================================== hashes

section Hashes

variable (hS : 3 ≤ S) (hT : Located T)

include hS hT

/-- Two starts with the same board and hash hash alike. -/
theorem zobrist_alike {s₀ t₀ : State S} (hs₀ : Coherent T s₀) (ht₀ : Coherent T t₀)
    (hboard : t₀.agentBoard = s₀.agentBoard) (hhash : t₀.zobristHash = s₀.zobristHash)
    (hs : HashRun T s₀ s) (ht : HashRun T t₀ t) (hsame : t.agentBoard = s.agentBoard)
    (hplayer : t.playerToMove = s.playerToMove) : zobrist T t = zobrist T s := by
  have hrun : ∀ {u₀ u : State S}, Coherent T u₀ → HashRun T u₀ u →
      Coherent T u ∧ hashBase T u = hashBase T u₀ := fun hu₀ hu =>
    hashBase_run hS hT hu₀ hu.hash_follows
  obtain ⟨hcs, hbs⟩ := hrun hs₀ hs
  obtain ⟨hct, hbt⟩ := hrun ht₀ ht
  have hbase : hashBase T t₀ = hashBase T s₀ := by
    unfold hashBase
    rw [hhash, stoneKeys_congr ht₀ hs₀ hboard]
  unfold zobrist
  rw [hash_eq (T := T) (s := t), hash_eq (T := T) (s := s), hbt, hbs, hbase,
    stoneKeys_congr hct hcs hsame, hplayer]

end Hashes

/-- After a game of any moves from a state initialised once, a further
`initialize ( )` returns, and starts a second game like the first exactly
when the hash is again what the first `initialize ( )` made it. -/
theorem restarted_iff (hS : 3 ≤ S) {T₀ : Statics S} {p : Player} (hp : p.IsSide) {ω : Rng}
    {x : Setup S} (hx : initializeState T₀ (new T₀ p) ω = some x)
    (hrun : (game x.statics).Mixed x.state s) (ω' : Rng) :
    ∃ y, initializeState x.statics s ω' = some y ∧ y.statics = x.statics
      ∧ (Restarted x.statics x.state y.state ↔ s.zobristHash = x.state.zobristHash) := by
  obtain ⟨-, hT, hstart, honce⟩ := start_once hS hp hx
  obtain ⟨y, hy, hstatics, hagain, hlast, hhash⟩ :=
    again_spec (T := x.statics) hS (isOnceInitialized_run honce hrun) ω'
  refine ⟨y, hy, hstatics, ?_⟩
  constructor
  · intro h
    rw [← hhash, h.zobristHash]
  · intro hback
    obtain ⟨hagent, hhuman⟩ := hstart.laid.boards_eq hS hagain.laid
    have hsame : y.state.zobristHash = x.state.zobristHash := hhash.trans hback
    constructor
    case agentBoard => exact hagent
    case humanBoard => exact hhuman
    case agentStoneId => rw [hagain.laid.agent, hstart.laid.agent]
    case humanStoneId => rw [hagain.laid.human, hstart.laid.human]
    case noHomeAgent => rw [hagain.noHomeAgent, hstart.noHomeAgent]
    case noHomeHuman => rw [hagain.noHomeHuman, hstart.noHomeHuman]
    case winner => rw [hagain.winner, hstart.winner]
    case lastMove => rw [hlast, lastMove_once hS hx]
    case zobristHash => exact hsame
    case alike =>
      exact zobrist_alike hS hT (hstart.coherent hS hT) (hagain.coherent hS hT)
        hagent hsame

/-- The smallest board set up with keys that differ. -/
def keyedSetup : Setup 3 :=
  (initializeState smallStatics (new smallStatics .agent) fun k => k + 1).get rfl

theorem initializeState_keyed :
    initializeState smallStatics (new smallStatics .agent) (fun k => k + 1) = some keyedSetup :=
  (Option.some_get _).symm

/-- A first move of the agent. -/
def keyedMove : State 3 := moveHash keyedSetup.statics keyedSetup.state ⟨⟨1, 1⟩, ⟨2, 2⟩⟩

theorem mixed_keyedMove : (game keyedSetup.statics).Mixed keyedSetup.state keyedMove :=
  .move .moveHash .start trivial (by decide +kernel :
    (⟨⟨1, 1⟩, ⟨2, 2⟩⟩ : Move) ∈ (game keyedSetup.statics).legal keyedSetup.state)

theorem restarted_iff_keyed :
    ∃ y, initializeState keyedSetup.statics keyedMove (fun _ => 0) = some y
      ∧ y.statics = keyedSetup.statics
      ∧ (Restarted keyedSetup.statics keyedSetup.state y.state
        ↔ keyedMove.zobristHash = keyedSetup.state.zobristHash) :=
  restarted_iff (by decide) (Or.inl rfl) initializeState_keyed mixed_keyedMove _

/-- The keys of that move are still in the hash afterwards. -/
theorem keyedMove_not_restarted :
    ∃ s, (game keyedSetup.statics).Mixed keyedSetup.state s
      ∧ ∃ y, initializeState keyedSetup.statics s (fun _ => 0) = some y
        ∧ ¬ Restarted keyedSetup.statics keyedSetup.state y.state := by
  refine ⟨keyedMove, mixed_keyedMove, ?_⟩
  have hhash : (initializeState keyedSetup.statics keyedMove fun _ => 0).any
      (fun y => decide (y.state.zobristHash ≠ keyedSetup.state.zobristHash)) = true := by
    decide +kernel
  obtain ⟨y, hy, hne⟩ := (Option.any_eq_true _ _).mp hhash
  exact ⟨y, hy, fun h => of_decide_eq_true hne h.zobristHash⟩

end MctsConnectFour.Oska
