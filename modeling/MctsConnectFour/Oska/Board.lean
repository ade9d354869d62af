/-
Oska seen by one player: boards, stones and ids in the perspective of
either side, and the search for moves from there.

The source writes every function out for the agent and again, through
`at_r`, for the human. Here `State.board`, `State.stoneId`,
`State.noHome`, `Statics.idAt` and `Statics.locationOf` take the player
as an argument, each half of a source function is one of their values,
and everything proved below and later is proved once for a player `p`.

`Viewed` is the invariant, one record for each side, in the perspective
of that side. `forward_spec` is the spec of `leftMove` and `rightMove`,
`mem_legal_iff` that of `moves ( )` and `hasMoves_iff` that of
`hasMoves ( )`, all in terms of one relation, `Steps`.
-/
import MctsConnectFour.Oska.Setup

namespace MctsConnectFour.Oska

open MaMatrix (InRange)

variable {S : Nat}

-- ======================================================== perspectives

/-- The board as `p` sees it. -/
def State.board (s : State S) (p : Player) : Board S :=
  if p = .agent then s.agentBoard else s.humanBoard

/-- The ids of the stones of `p`. -/
def State.stoneId (s : State S) (p : Player) : List Int :=
  if p = .agent then s.agentStoneId else s.humanStoneId

/-- The home counter of `p`. -/
def State.noHome (s : State S) (p : Player) : Nat :=
  if p = .agent then s.noHomeAgent else s.noHomeHuman

/-- The id of the cell at `( c, r )` in the perspective of `p`. -/
def Statics.idAt (T : Statics S) (p : Player) (c r : Int) : Int :=
  if p = .agent then T.locationToId.at' c r else T.locationToId.atR c r

/-- The location of an id in the perspective of `p`. -/
def Statics.locationOf (T : Statics S) (p : Player) (id : Int) : Location :=
  if p = .agent then T.idToLocation.at' id else T.idToLocation.atR id

theorem haveRemainingHome_eq (s : State S) {p : Player} (hp : p.IsSide) :
    s.haveRemainingHome p = (s.noHome p != 0 && s.noHome p == (s.stoneId p).length) := by
  rcases hp with rfl | rfl <;> rfl

theorem notHaveStones_eq (s : State S) {p : Player} (hp : p.IsSide) :
    s.notHaveStones p = (s.stoneId p).isEmpty := by
  rcases hp with rfl | rfl <;> rfl

theorem hasMoves_eq (T : Statics S) (s : State S) {p : Player} (hp : p.IsSide) :
    s.hasMoves T p = (s.stoneId p).any fun id =>
      let l := T.locationOf p id
      leftMove (s.board p) l.c l.r != Move.invalid
        || rightMove (s.board p) l.c l.r != Move.invalid := by
  rcases hp with rfl | rfl <;> rfl

/-- The other side's id of a cell is that of the reflected one. -/
theorem idAt_opponent (T : Statics S) {p : Player} (hp : p.IsSide) (c r : Int) :
    T.idAt p.opponent c r = T.idAt p (obCols S - 1 - c) (obRows S - 1 - r) := by
  rcases hp with rfl | rfl
  · exact MaMatrix.atR_eq ..
  · refine Eq.trans ?_ (MaMatrix.atR_eq ..).symm
    show T.locationToId.at' c r = _
    congr 1 <;> ring

/-- The id counted from the other end is that of the reflected cell. -/
theorem Located.reflect {T : Statics S} (hT : Located T) (hS : 3 ≤ S) {i : Nat}
    (hi : i < (cells S).length) :
    T.locationToId.at' (obCols S - 1 - (cells S)[i].1) (obRows S - 1 - (cells S)[i].2)
        = noHexagons S - 1 - i
      ∧ T.idToLocation.at' (noHexagons S - 1 - i)
        = ⟨obCols S - 1 - (cells S)[i].1, obRows S - 1 - (cells S)[i].2⟩ := by
  have hlen := length_cells hS
  have hi' : (cells S).length - 1 - i < (cells S).length := by omega
  have hhex : Hexagon S (cells S)[i].1 (cells S)[i].2 := (mem_cells hS).mp (List.getElem_mem hi)
  have hin := hhex.inner hS
  have hid : ((noHexagons S : Nat) : Int) - 1 - (i : Int)
      = (((cells S).length - 1 - i : Nat) : Int) := by omega
  have hc : (obCols S : Int) - 1 - (cells S)[i].1 = (obCols S - 1 - (cells S)[i].1 : Nat) := by
    omega
  have hr : (obRows S : Int) - 1 - (cells S)[i].2 = (obRows S - 1 - (cells S)[i].2 : Nat) := by
    omega
  have hcell := hT ((cells S).length - 1 - i) hi'
  rw [cells_reflect hS hi hi'] at hcell
  rw [hid, hc, hr]
  exact hcell

/-- Ids and locations of hexagons are inverse to each other, in either
perspective. -/
theorem Located.locationOf_idAt {T : Statics S} (hT : Located T) (hS : 3 ≤ S)
    {p : Player} (hp : p.IsSide) {c r : Int} (h : Hexagon S c r) :
    T.locationOf p (T.idAt p c r) = ⟨c, r⟩ := by
  rcases hp with rfl | rfl
  · obtain ⟨cell, hcell, rfl, rfl⟩ := h.exists_cell hS
    obtain ⟨i, hi, rfl⟩ := List.mem_iff_getElem.mp hcell
    obtain ⟨hid, hloc⟩ := hT i hi
    show T.idToLocation.at' (T.locationToId.at' _ _) = _
    rw [hid, hloc]
  · obtain ⟨cell, hcell, hc, hr⟩ := ((hexagon_reflect hS).mpr h).exists_cell hS
    obtain ⟨i, hi, rfl⟩ := List.mem_iff_getElem.mp hcell
    obtain ⟨hid, -⟩ := hT i hi
    show T.idToLocation.atR (T.locationToId.atR c r) = _
    rw [MaMatrix.atR_eq, hc, hr, hid, MaVector.atR_eq, (hT.reflect hS hi).2, ← hc, ← hr,
      sub_sub_cancel, sub_sub_cancel]

/-- Two hexagons with the same id are the same. -/
theorem Located.idAt_inj {T : Statics S} (hT : Located T) (hS : 3 ≤ S)
    {p : Player} (hp : p.IsSide) {c r c' r' : Int} (h : Hexagon S c r) (h' : Hexagon S c' r')
    (heq : T.idAt p c r = T.idAt p c' r') : c = c' ∧ r = r' := by
  have hloc := hT.locationOf_idAt hS hp h
  rw [heq, hT.locationOf_idAt hS hp h'] at hloc
  exact ⟨(Location.mk.inj hloc).1.symm, (Location.mk.inj hloc).2.symm⟩

-- ======================================================= the invariant

/-- What holds of `p`'s side of a state, in the perspective of `p`. -/
structure Viewed (T : Statics S) (s : State S) (p : Player) : Prop where
  shape : ∀ c r, InRange (obCols S) (obRows S) c r →
    ((s.board p).at' c r = .invalid ↔ ¬ Hexagon S c r)
  nodup : (s.stoneId p).Nodup
  stones : ∀ id, id ∈ s.stoneId p
    ↔ ∃ c r, Hexagon S c r ∧ (s.board p).at' c r = p ∧ T.idAt p c r = id
  size : (s.stoneId p).length ≤ S
  home : s.noHome p
    = (s.stoneId p).countP fun id => (T.locationOf p id).r = obHomeRow S

/-- The redundant parts of a state agree. -/
structure Coherent (T : Statics S) (s : State S) : Prop where
  side : s.playerToMove.IsSide
  mirror : ∀ c r, InRange (obCols S) (obRows S) c r →
    s.humanBoard.at' c r = s.agentBoard.at' (obCols S - 1 - c) (obRows S - 1 - r)
  viewed : ∀ p : Player, p.IsSide → Viewed T s p

/-- The boards mirror each other from either side. -/
theorem Coherent.board_opponent {T : Statics S} {s : State S} (h : Coherent T s) {p : Player}
    (hp : p.IsSide) {c r : Int} (hr : InRange (obCols S) (obRows S) c r) :
    (s.board p.opponent).at' c r = (s.board p).at' (obCols S - 1 - c) (obRows S - 1 - r) := by
  rcases hp with rfl | rfl
  · exact h.mirror c r hr
  · have hback := h.mirror _ _ hr.reflect
    show s.agentBoard.at' c r = s.humanBoard.at' _ _
    rw [hback]
    congr 1 <;> ring

-- ===================================================== searching moves

/-- `leftMove` and `rightMove` in one: a search forward and by `d` to
the side. -/
def forward (b : Board S) (d c r : Int) : Move :=
  if b.at' (c + d) (r + 1) = .vacant then ⟨⟨c, r⟩, ⟨c + d, r + 1⟩⟩
  else if b.at' (c + d) (r + 1) = (b.at' c r).opponent ∧ b.at' (c + 2 * d) (r + 2) = .vacant then
    ⟨⟨c, r⟩, ⟨c + 2 * d, r + 2⟩⟩
  else Move.invalid

theorem leftMove_eq (b : Board S) (c r : Int) : leftMove b c r = forward b 1 c r := rfl

theorem rightMove_eq (b : Board S) (c r : Int) : rightMove b c r = forward b (-1) c r := rfl

/-- A move of `p` on its board: a stone goes one cell forward into a
vacant one, or two cells over an opposing stone. -/
structure Steps (s : State S) (p : Player) (m : Move) (d : Int) : Prop where
  sideways : d = 1 ∨ d = -1
  hexagon : Hexagon S m.mFrom.c m.mFrom.r
  own : (s.board p).at' m.mFrom.c m.mFrom.r = p
  vacant : (s.board p).at' m.mTo.c m.mTo.r = .vacant
  kind : m.mTo = ⟨m.mFrom.c + d, m.mFrom.r + 1⟩
    ∨ m.mTo = ⟨m.mFrom.c + 2 * d, m.mFrom.r + 2⟩
      ∧ (s.board p).at' (m.mFrom.c + d) (m.mFrom.r + 1) = p.opponent

/-- What a search from a stone of `p` returns. -/
theorem forward_spec {s : State S} {p : Player} (hp : p.IsSide) {d c r : Int}
    (hd : d = 1 ∨ d = -1) (hhex : Hexagon S c r) (hown : (s.board p).at' c r = p) {m : Move} :
    (forward (s.board p) d c r = m ∧ m ≠ Move.invalid)
      ↔ Steps s p m d ∧ m.mFrom = ⟨c, r⟩ := by
  -- a hexagon is not on row zero, where the invalid move starts
  have hrow : r ≠ 0 := by
    have := hhex.1
    omega
  have hne : ∀ l : Location, (⟨⟨c, r⟩, l⟩ : Move) ≠ Move.invalid := by
    intro l heq
    simp only [Move.invalid, Move.mk.injEq, Location.mk.injEq] at heq
    exact hrow heq.1.2
  unfold forward
  rw [hown]
  constructor
  · intro h
    obtain ⟨rfl, hvalid⟩ := h
    by_cases hfirst : (s.board p).at' (c + d) (r + 1) = .vacant
    · rw [if_pos hfirst]
      exact ⟨⟨hd, hhex, hown, hfirst, Or.inl rfl⟩, rfl⟩
    · rw [if_neg hfirst] at hvalid ⊢
      by_cases hjump : (s.board p).at' (c + d) (r + 1) = p.opponent
          ∧ (s.board p).at' (c + 2 * d) (r + 2) = .vacant
      · rw [if_pos hjump]
        exact ⟨⟨hd, hhex, hown, hjump.2, Or.inr ⟨rfl, hjump.1⟩⟩, rfl⟩
      · rw [if_neg hjump] at hvalid
        exact absurd rfl hvalid
  · intro h
    obtain ⟨⟨-, -, -, hvac, hkind⟩, hfrom⟩ := h
    obtain ⟨mFrom, mTo⟩ := m
    simp only at hfrom hvac hkind
    subst hfrom
    rcases hkind with rfl | ⟨rfl, hover⟩
    · rw [if_pos hvac]
      exact ⟨rfl, hne _⟩
    · rw [if_neg (by rw [hover]; exact hp.opponent.ne_vacant), if_pos ⟨hover, hvac⟩]
      exact ⟨rfl, hne _⟩

/-- The two searches from the stone with an id. -/
def movesFrom (T : Statics S) (s : State S) (p : Player) (id : Int) : List Move :=
  let l := T.locationOf p id
  [leftMove (s.board p) l.c l.r, rightMove (s.board p) l.c l.r].filter (· ≠ Move.invalid)

/-- The moves `moves ( )` finds for `p`, in order. -/
def moveList (T : Statics S) (s : State S) (p : Player) : List Move :=
  (s.stoneId p).flatMap (movesFrom T s p)

theorem length_moveList_le (T : Statics S) (s : State S) (p : Player) :
    (moveList T s p).length ≤ 2 * (s.stoneId p).length := by
  unfold moveList
  induction s.stoneId p with
  | nil => simp
  | cons id ids ih =>
      have hfrom : (movesFrom T s p id).length ≤ 2 := List.length_filter_le _ _
      rw [List.flatMap_cons, List.length_append, List.length_cons]
      omega

/-- The loop of `moves ( )` pushes the move list. -/
private theorem foldl_pushMoves (left right : Int → Move) :
    ∀ (ids : List Int) (m : Moves Move (2 * S)),
      ids.foldl (fun m id =>
          let m := if left id ≠ Move.invalid then m.pushBack (left id) else m
          if right id ≠ Move.invalid then m.pushBack (right id) else m) m
        = (ids.flatMap fun id => [left id, right id].filter (· ≠ Move.invalid)).foldl
            (fun m move => m.pushBack move) m := by
  intro ids
  induction ids with
  | nil => intro m; rfl
  | cons id ids ih =>
      intro m
      rw [List.foldl_cons, ih, List.flatMap_cons, List.foldl_append]
      congr 1
      by_cases hl : left id = Move.invalid <;> by_cases hr : right id = Move.invalid <;>
        simp [hl, hr]

/-- `moves ( )` without a winner: the container is filled with the move
list of the player to move. -/
theorem moves_eq (T : Statics S) {s : State S} (hside : s.playerToMove.IsSide)
    (m : Moves Move (2 * S)) :
    s.moves T m = if s.winner.occupied then (false, m)
      else
        let m := (moveList T s s.playerToMove).foldl (fun m move => m.pushBack move) m.clear
        (m.size != 0, m) := by
  unfold State.moves
  split
  · rfl
  · rcases hside with hp | hp
    · simp only [hp, if_true]
      rw [foldl_pushMoves]
      rfl
    · simp only [hp]
      rw [if_neg (by decide), foldl_pushMoves]
      rfl

/-- While nobody has won, the container holds the move list, and the
return value tells whether there is anything in it. -/
theorem moves_open {T : Statics S} {s : State S} (h : Coherent T s)
    (hfree : s.winner.occupied = false) (m : Moves Move (2 * S)) :
    (s.moves T m).2.toList = moveList T s s.playerToMove ∧ (s.moves T m).2.size ≤ 2 * S
      ∧ ((s.moves T m).1 = true ↔ moveList T s s.playerToMove ≠ []) := by
  have hroom : m.clear.size + (moveList T s s.playerToMove).length ≤ 2 * S := by
    have hlen := length_moveList_le T s s.playerToMove
    have hsize := (h.viewed _ h.side).size
    rw [Moves.size_clear]
    omega
  obtain ⟨hlist, hsize⟩ := Moves.toList_foldl_pushBack (fun move : Move => move)
    (moveList T s s.playerToMove) hroom
  rw [moves_eq T h.side, if_neg (by rw [hfree]; decide)]
  simp only
  rw [hlist, hsize, Moves.toList_clear, List.map_id', List.nil_append]
  refine ⟨rfl, hroom, ?_⟩
  rw [Moves.size_clear, Nat.zero_add]
  simp

/-- The moves listed, and whether there are any. -/
theorem moves_spec {T : Statics S} {s : State S} (h : Coherent T s) (m : Moves Move (2 * S)) :
    ((s.moves T m).1 = true ↔ s.winner.occupied = false ∧ moveList T s s.playerToMove ≠ [])
      ∧ ((s.moves T m).1 = true → (s.moves T m).2.toList = moveList T s s.playerToMove
          ∧ (s.moves T m).2.size ≤ 2 * S) := by
  cases hw : s.winner.occupied with
  | true =>
      rw [moves_eq T h.side, hw]
      simp
  | false =>
      obtain ⟨hlist, hsize, hret⟩ := moves_open h hw m
      exact ⟨hret.trans (by simp), fun _ => ⟨hlist, hsize⟩⟩

section Coherent

variable {T : Statics S} {s : State S} (hS : 3 ≤ S) (hT : Located T)

include hS hT

/-- The moves found for a player are its steps. -/
theorem mem_moveList {p : Player} (hp : p.IsSide) (hv : Viewed T s p) (m : Move) :
    m ∈ moveList T s p ↔ ∃ d, Steps s p m d := by
  unfold moveList movesFrom
  simp only [List.mem_flatMap, List.mem_filter, List.mem_cons, List.not_mem_nil, or_false,
    decide_eq_true_eq, leftMove_eq, rightMove_eq]
  constructor
  · intro h
    obtain ⟨id, hid, hm, hne⟩ := h
    obtain ⟨c, r, hhex, hown, rfl⟩ := (hv.stones id).mp hid
    rw [hT.locationOf_idAt hS hp hhex] at hm
    rcases hm with rfl | rfl
    · exact ⟨1, ((forward_spec hp (Or.inl rfl) hhex hown).mp ⟨rfl, hne⟩).1⟩
    · exact ⟨-1, ((forward_spec hp (Or.inr rfl) hhex hown).mp ⟨rfl, hne⟩).1⟩
  · intro h
    obtain ⟨d, hm⟩ := h
    refine ⟨_, (hv.stones _).mpr ⟨_, _, hm.hexagon, hm.own, rfl⟩, ?_⟩
    rw [hT.locationOf_idAt hS hp hm.hexagon]
    obtain ⟨heq, hne⟩ := (forward_spec hp hm.sideways hm.hexagon hm.own).mpr ⟨hm, rfl⟩
    rcases hm.sideways with rfl | rfl
    · exact ⟨Or.inl heq.symm, hne⟩
    · exact ⟨Or.inr heq.symm, hne⟩

/-- The listed moves: the steps of the player to move, while nobody has
won. -/
theorem mem_legal_iff (h : Coherent T s) (m : Move) :
    m ∈ (game T).legal s ↔ s.winner.occupied = false ∧ ∃ d, Steps s s.playerToMove m d := by
  rw [← mem_moveList hS hT h.side (h.viewed _ h.side)]
  obtain ⟨hret, hlist⟩ := moves_spec h .new
  show m ∈ (if (s.moves T .new).1 then (s.moves T .new).2.toList else []) ↔ _
  cases hb : (s.moves T .new).1 with
  | true =>
      rw [if_pos rfl, (hlist hb).1]
      exact ⟨fun hm => ⟨(hret.mp hb).1, hm⟩, fun hm => hm.2⟩
  | false =>
      rw [if_neg (by decide)]
      refine iff_of_false (List.not_mem_nil) ?_
      intro h'
      obtain ⟨hw, hm⟩ := h'
      rw [hret.mpr ⟨hw, List.ne_nil_of_mem hm⟩] at hb
      cases hb

/-- `hasMoves ( )` looks for a step. -/
theorem hasMoves_iff {p : Player} (hp : p.IsSide) (hv : Viewed T s p) :
    s.hasMoves T p = true ↔ ∃ m d, Steps s p m d := by
  have hany : s.hasMoves T p = true ↔ ∃ m, m ∈ moveList T s p := by
    rw [hasMoves_eq T s hp]
    unfold moveList movesFrom
    simp only [List.any_eq_true, Bool.or_eq_true, bne_iff_ne, List.mem_flatMap, List.mem_filter,
      List.mem_cons, List.not_mem_nil, or_false, decide_eq_true_eq]
    constructor
    · intro h
      obtain ⟨id, hid, hm | hm⟩ := h
      · exact ⟨_, id, hid, Or.inl rfl, hm⟩
      · exact ⟨_, id, hid, Or.inr rfl, hm⟩
    · intro h
      obtain ⟨m, id, hid, rfl | rfl, hm⟩ := h
      · exact ⟨id, hid, Or.inl hm⟩
      · exact ⟨id, hid, Or.inr hm⟩
  rw [hany]
  exact exists_congr fun m => mem_moveList hS hT hp hv m

end Coherent

end MctsConnectFour.Oska
