/-
The two players of Oska exchanged.

Every half of the program for the agent has a twin for the human, in
other coordinates. `roleSwap` turns a state around: the boards, stones and
counters change sides, each cell changes its owner, and an id is counted
from the other end, which is how `at_r` sees it. `Swapped` says the same
of two states side by side, in the perspective of a player, and leaves the
hash out; every operation is shown to keep it. Only `move` needs more, that
its cells are hexagons, for only these have ids.
-/
import MctsConnectFour.Oska.Verdict

namespace MctsConnectFour.Oska

variable {S : Nat} {T : Statics S} {s t : State S} {m : Move} {d : Int}

/-- An id counted from the other end. -/
def otherId (S : Nat) (i : Int) : Int := noHexagons S - 1 - i

/-- The state with the players exchanged. -/
def roleSwap (s : State S) : State S :=
  { s with
    agentBoard := s.humanBoard.map Player.opponent
    humanBoard := s.agentBoard.map Player.opponent
    agentStoneId := s.humanStoneId.map (otherId S)
    humanStoneId := s.agentStoneId.map (otherId S)
    noHomeAgent := s.noHomeHuman
    noHomeHuman := s.noHomeAgent
    playerToMove := s.playerToMove.opponent
    winner := s.winner.opponent }

/-- What is `p`'s in `t` is the other player's in `s`. -/
structure Swapped (s t : State S) : Prop where
  board : ∀ p : Player, p.IsSide → t.board p = (s.board p.opponent).map Player.opponent
  stoneId : ∀ p : Player, p.IsSide → t.stoneId p = (s.stoneId p.opponent).map (otherId S)
  noHome : ∀ p : Player, p.IsSide → t.noHome p = s.noHome p.opponent
  playerToMove : t.playerToMove = s.playerToMove.opponent
  winner : t.winner = s.winner.opponent
  lastMove : t.lastMove = s.lastMove
  isOnceInitialized : t.isOnceInitialized = s.isOnceInitialized

theorem swapped_roleSwap (s : State S) : Swapped s (roleSwap s) := by
  refine ⟨fun p hp => ?_, fun p hp => ?_, fun p hp => ?_, rfl, rfl, rfl, rfl⟩
  · rcases hp with rfl | rfl <;> rfl
  · rcases hp with rfl | rfl <;> rfl
  · rcases hp with rfl | rfl <;> rfl

/-- Up to the hash there is one such state. -/
theorem Swapped.eq (h : Swapped s t) : t = { roleSwap s with zobristHash := t.zobristHash } := by
  have hagent := h.board .agent (Or.inl rfl)
  have hhuman := h.board .human (Or.inr rfl)
  have hagent' := h.stoneId .agent (Or.inl rfl)
  have hhuman' := h.stoneId .human (Or.inr rfl)
  have hhome := h.noHome .agent (Or.inl rfl)
  have hhome' := h.noHome .human (Or.inr rfl)
  obtain ⟨-, -, -, hplayer, hwinner, hlast, honce⟩ := h
  cases t
  unfold roleSwap
  simp only [State.mk.injEq, true_and]
  exact ⟨hagent, hhuman, hagent', hhuman', hhome, hhome', hplayer, hwinner, hlast, honce⟩

theorem Swapped.withHash (h : Swapped s t) (hash hash' : UInt64) :
    Swapped { s with zobristHash := hash } { t with zobristHash := hash' } :=
  ⟨h.board, h.stoneId, h.noHome, h.playerToMove, h.winner, h.lastMove, h.isOnceInitialized⟩

theorem Swapped.next (h : Swapped s t) : Swapped s.next t.next :=
  ⟨h.board, h.stoneId, h.noHome, congrArg Player.opponent h.playerToMove, h.winner, h.lastMove,
    h.isOnceInitialized⟩

theorem Swapped.side (h : Swapped s t) (hp : s.playerToMove.IsSide) : t.playerToMove.IsSide :=
  h.playerToMove ▸ hp.opponent

-- ===================================================== searching moves

theorem opponent_eq_vacant_iff (p : Player) : p.opponent = .vacant ↔ p = .vacant := by
  cases p <;> decide

theorem opponent_inj {p q : Player} : p.opponent = q.opponent ↔ p = q :=
  ⟨fun h => by rw [← Player.opponent_opponent p, h, Player.opponent_opponent], congrArg _⟩

/-- A search does not see whose stones are whose. -/
theorem forward_map (b : Board S) (d c r : Int) :
    forward (b.map Player.opponent) d c r = forward b d c r := by
  unfold forward
  simp only [MaMatrix.at'_map (f := Player.opponent) rfl, opponent_eq_vacant_iff, opponent_inj]

theorem locationOf_otherId (T : Statics S) {p : Player} (hp : p.IsSide) (i : Int) :
    T.locationOf p (otherId S i) = T.locationOf p.opponent i := by
  unfold otherId
  rcases hp with rfl | rfl
  · exact (MaVector.atR_eq T.idToLocation i).symm
  · show T.idToLocation.atR _ = T.idToLocation.at' i
    rw [MaVector.atR_eq, sub_sub_cancel]

theorem Swapped.movesFrom (h : Swapped s t) {p : Player} (hp : p.IsSide) (i : Int) :
    movesFrom T t p (otherId S i) = movesFrom T s p.opponent i := by
  unfold Oska.movesFrom
  simp only [locationOf_otherId T hp, leftMove_eq, rightMove_eq, h.board p hp, forward_map]

/-- The same moves in the same order. -/
theorem Swapped.moveList (h : Swapped s t) {p : Player} (hp : p.IsSide) :
    moveList T t p = moveList T s p.opponent := by
  unfold Oska.moveList
  rw [h.stoneId p hp, List.flatMap_map]
  exact List.flatMap_congr fun i _ => h.movesFrom hp i

theorem Swapped.moves (h : Swapped s t) (hside : s.playerToMove.IsSide)
    (c : Moves Move (2 * S)) : t.moves T c = s.moves T c := by
  have hocc : t.winner.occupied = s.winner.occupied := by
    rw [h.winner]
    cases s.winner <;> rfl
  rw [moves_eq T (h.side hside), moves_eq T hside, hocc, h.moveList (h.side hside),
    h.playerToMove, Player.opponent_opponent]

theorem Swapped.legal (h : Swapped s t) (hside : s.playerToMove.IsSide) :
    (game T).legal t = (game T).legal s := by
  unfold Game.legal
  rw [show (game T).moves t .new = (game T).moves s .new from h.moves hside .new]

-- ============================================================= verdict

theorem Swapped.haveRemainingHome (h : Swapped s t) {p : Player} (hp : p.IsSide) :
    t.haveRemainingHome p = s.haveRemainingHome p.opponent := by
  rw [haveRemainingHome_eq t hp, haveRemainingHome_eq s hp.opponent, h.noHome p hp,
    h.stoneId p hp, List.length_map]

theorem Swapped.notHaveStones (h : Swapped s t) {p : Player} (hp : p.IsSide) :
    t.notHaveStones p = s.notHaveStones p.opponent := by
  rw [notHaveStones_eq t hp, notHaveStones_eq s hp.opponent, h.stoneId p hp, List.isEmpty_map]

theorem Swapped.hasMoves (h : Swapped s t) {p : Player} (hp : p.IsSide) :
    t.hasMoves T p = s.hasMoves T p.opponent := by
  rw [hasMoves_eq T t hp, hasMoves_eq T s hp.opponent, h.stoneId p hp, List.any_map]
  congr 1
  funext i
  simp only [Function.comp_apply, locationOf_otherId T hp, leftMove_eq, rightMove_eq, h.board p hp,
    forward_map]

theorem Swapped.playerMostHomeStones (h : Swapped s t) :
    t.playerMostHomeStones = s.playerMostHomeStones.opponent := by
  have hagent : t.noHomeAgent = s.noHomeHuman := h.noHome .agent (Or.inl rfl)
  have hhuman : t.noHomeHuman = s.noHomeAgent := h.noHome .human (Or.inr rfl)
  unfold State.playerMostHomeStones
  rw [hagent, hhuman]
  rcases lt_trichotomy s.noHomeAgent s.noHomeHuman with hlt | heq | hgt
  · rw [if_pos hlt, if_neg (by omega), if_pos hlt]
    rfl
  · rw [if_neg (by omega), if_neg (by omega), if_neg (by omega), if_neg (by omega)]
    rfl
  · rw [if_neg (by omega), if_pos hgt, if_pos hgt]
    rfl

theorem Swapped.setWinner (h : Swapped s t) (hside : s.playerToMove.IsSide) :
    Swapped (s.setWinner T) (t.setWinner T) := by
  have hwinner : (t.setWinner T).winner = (s.setWinner T).winner.opponent := by
    unfold State.setWinner
    rw [h.playerToMove, h.haveRemainingHome hside.opponent,
      h.haveRemainingHome hside.opponent.opponent, h.notHaveStones hside.opponent.opponent,
      h.hasMoves hside.opponent.opponent, Player.opponent_opponent, h.playerMostHomeStones]
    split_ifs
    · rfl
    · rfl
    · rfl
    · exact (Player.opponent_opponent _).symm
    · exact h.winner
  rw [setWinner_eq (s := s), setWinner_eq (s := t)]
  exact ⟨h.board, h.stoneId, h.noHome, h.playerToMove, hwinner, h.lastMove, h.isOnceInitialized⟩

theorem Swapped.ended (h : Swapped s t) : t.ended = s.ended.map Player.opponent := by
  have hopen : s.winner.opponent = .invalid ↔ s.winner = .invalid :=
    opponent_inj (q := .invalid)
  unfold State.ended
  simp only [h.winner, hopen]
  split_ifs <;> rfl

theorem Swapped.result (h : Swapped s t) (p : Player) : t.result p.opponent = s.result p := by
  unfold State.result
  simp only [h.winner, opponent_eq_vacant_iff, opponent_inj]

-- ============================================================== moving

theorem otherId_inj {i j : Int} : otherId S i = otherId S j ↔ i = j := by
  unfold otherId
  omega

/-- An id of a hexagon is counted from the other end from the other
side. -/
theorem Located.idAt_opponent (hT : Located T) (hS : 3 ≤ S) {p : Player}
    (hp : p.IsSide) {c r : Int} (h : Hexagon S c r) :
    T.idAt p.opponent c r = otherId S (T.idAt p c r) := by
  have hhuman : T.idAt .human c r = otherId S (T.idAt .agent c r) := by
    obtain ⟨cell, hcell, rfl, rfl⟩ := h.exists_cell hS
    obtain ⟨i, hi, rfl⟩ := List.mem_iff_getElem.mp hcell
    obtain ⟨hid, -⟩ := hT i hi
    show T.locationToId.atR _ _ = otherId S (T.locationToId.at' _ _)
    rw [MaMatrix.atR_eq, hid, (hT.reflect hS hi).1, otherId]
  rcases hp with rfl | rfl
  · exact hhuman
  · show T.idAt .agent c r = _
    rw [hhuman, otherId, otherId, sub_sub_cancel]

/-- A replacement in a list, seen through an injection. -/
theorem map_replace {α β : Type} [DecidableEq α] [DecidableEq β] {f : α → β}
    (hf : ∀ a b, f a = f b ↔ a = b) (l : List α) (a b : α) :
    (l.replace a b).map f = (l.map f).replace (f a) (f b) := by
  induction l with
  | nil => rfl
  | cons x l ih =>
      rw [List.map_cons, List.replace_cons, List.replace_cons]
      by_cases hx : a = x
      · rw [beq_iff_eq.mpr hx, beq_iff_eq.mpr (congrArg f hx)]
        rfl
      · rw [beq_eq_false_iff_ne.mpr hx, beq_eq_false_iff_ne.mpr fun heq => hx ((hf a x).mp heq)]
        simp only [List.map_cons, ih]

section Step

variable (hS : 3 ≤ S) (hT : Located T)

include hS hT

/-- A step of the player to move, made by the other player in the
exchanged state. -/
theorem Swapped.place (h : Swapped s t) (hc : Coherent T s) (hm : Steps s s.playerToMove m d) :
    Swapped (s.place T m) (t.place T m) := by
  have hp := hc.side
  have ht := h.side hp
  obtain ⟨hto, hkind⟩ := hm.geometry hS hp (hc.viewed _ hp)
  have hfromId := hT.idAt_opponent hS hp hm.hexagon
  have htoId := hT.idAt_opponent hS hp hto
  -- what either state's mover writes, and what the other side sees of it
  have hboard := place_board (T := T) (m := m) ht
  have hboard' := place_board_opponent (T := T) (m := m) ht
  have hstone := place_stoneId (T := T) (m := m) ht
  have hstone' := place_stoneId_opponent (T := T) (m := m) ht
  obtain ⟨hhome, hhome'⟩ := place_noHome (T := T) (m := m) ht
  rw [h.playerToMove] at hboard hboard' hstone hstone' hhome hhome'
  rw [Player.opponent_opponent] at hboard' hstone' hhome'
  obtain ⟨hplayer, hwinner, hlast, -, honce⟩ := place_rest (T := T) (s := s) (m := m)
  obtain ⟨hplayer', hwinner', hlast', -, honce'⟩ := place_rest (T := T) (s := t) (m := m)
  refine ⟨fun q hq => ?_, fun q hq => ?_, fun q hq => ?_, ?_, ?_, ?_, ?_⟩
  · rcases hp.eq_or_eq_opponent hq with rfl | rfl
    · rw [hboard', place_board_opponent hp, h.board _ hp]
      split_ifs
      · rw [MaMatrix.map_setAtR, MaMatrix.map_setAtR, MaMatrix.map_setAtR]
        rfl
      · rw [MaMatrix.map_setAtR, MaMatrix.map_setAtR]
        rfl
    · rw [hboard, Player.opponent_opponent, place_board hp, h.board _ hp.opponent,
        Player.opponent_opponent]
      split_ifs
      · rw [MaMatrix.map_setAt, MaMatrix.map_setAt, MaMatrix.map_setAt]
        rfl
      · rw [MaMatrix.map_setAt, MaMatrix.map_setAt]
        rfl
  · rcases hp.eq_or_eq_opponent hq with rfl | rfl
    · rw [hstone', place_stoneId_opponent hp, h.stoneId _ hp]
      rcases hkind with ⟨hno, -⟩ | ⟨hcap, -, -, hcapHex, -⟩
      · rw [if_neg (by rw [hno]; decide), if_neg (by rw [hno]; decide)]
      · rw [if_pos hcap, if_pos hcap, hT.idAt_opponent hS hp hcapHex, List.filter_map]
        congr 1
        refine List.filter_congr fun i _ => ?_
        simp only [Function.comp_apply, ne_eq, otherId_inj]
    · rw [hstone, Player.opponent_opponent, place_stoneId hp, h.stoneId _ hp.opponent,
        Player.opponent_opponent, hfromId, htoId]
      exact (map_replace (fun _ _ => otherId_inj) _ _ _).symm
  · rcases hp.eq_or_eq_opponent hq with rfl | rfl
    · rw [hhome', (place_noHome hp).2, h.noHome _ hp]
    · rw [hhome, Player.opponent_opponent, (place_noHome hp).1, h.noHome _ hp.opponent,
        Player.opponent_opponent]
  · rw [hplayer', hplayer, h.playerToMove]
  · rw [hwinner', hwinner, h.winner]
  · rw [hlast', hlast]
  · rw [honce', honce, h.isOnceInitialized]

/-- A listed move, made in any of the three ways. -/
theorem Swapped.apply (h : Swapped s t) (hc : Coherent T s) (op : Game.MoveOp)
    (hm : m ∈ (game T).legal s) :
    Swapped ((game T).apply op s m) ((game T).apply op t m) := by
  obtain ⟨-, d, hstep⟩ := (mem_legal_iff hS hT hc m).mp hm
  have hplace := h.place hS hT hc hstep
  have hside : (s.place T m).playerToMove.IsSide := by
    rw [place_rest.1]
    exact hc.side
  have hhash : Swapped (s.playHash T m) (t.playHash T m) := by
    rw [playHash_eq (s := s), playHash_eq (s := t)]
    exact hplace.withHash _ _
  have hside' : (s.playHash T m).playerToMove.IsSide := by
    rw [playHash_eq]
    exact hside
  cases op with
  | moveHash => exact hhash.next
  | moveHashWinner => exact (hhash.setWinner hside').next
  | moveWinner => exact (hplace.setWinner hside).next

/-- The same line from either state. -/
theorem Swapped.perform (h : Swapped s t) (hc : Coherent T s)
    (line : List (Game.MoveOp × Move)) :
    ((game T).ListedLine t line ↔ (game T).ListedLine s line)
      ∧ ((game T).ListedLine s line →
        Swapped ((game T).perform s line) ((game T).perform t line)) := by
  induction line generalizing s t with
  | nil => exact ⟨Iff.rfl, fun _ => h⟩
  | cons x line ih =>
      unfold Game.ListedLine
      rw [h.legal hc.side]
      constructor
      · refine and_congr_right fun hm => ?_
        exact (ih (h.apply hS hT hc x.1 hm) (hc.apply hS hT x.1 hm)).1
      · intro hline
        have hnext := ih (h.apply hS hT hc x.1 hline.1) (hc.apply hS hT x.1 hline.1)
        exact hnext.2 hline.2

end Step

/-- The program does with the players exchanged what it does with the
players as they are. -/
structure TreatsAlike (T : Statics S) (s : State S) : Prop where
  moves : ∀ c : Moves Move (2 * S), (roleSwap s).moves T c = s.moves T c
  moveWinner : ∀ m ∈ (game T).legal s,
    moveWinner T (roleSwap s) m = roleSwap (moveWinner T s m)
  moveHash : ∀ m ∈ (game T).legal s, ∃ hash,
    moveHash T (roleSwap s) m = { roleSwap (moveHash T s m) with zobristHash := hash }
  moveHashWinner : ∀ m ∈ (game T).legal s, ∃ hash,
    moveHashWinner T (roleSwap s) m = { roleSwap (moveHashWinner T s m) with zobristHash := hash }
  runs : ∀ line : List (Game.MoveOp × Move),
    ((game T).ListedLine (roleSwap s) line ↔ (game T).ListedLine s line)
      ∧ ((game T).ListedLine s line →
        ((game T).perform (roleSwap s) line).ended
            = ((game T).perform s line).ended.map Player.opponent
          ∧ ∀ p : Player, ((game T).perform (roleSwap s) line).result p.opponent
            = ((game T).perform s line).result p)

/-- The plain variant of a move leaves the hash alone. -/
theorem moveWinner_zobristHash (s : State S) (m : Move) :
    (moveWinner T s m).zobristHash = s.zobristHash := by
  show ((s.place T m).setWinner T).zobristHash = _
  rw [setWinner_eq]
  exact place_rest.2.2.2.1

/-- Oska treats the two players alike, in every state of a game. -/
theorem state_treatsAlike (hS : 3 ≤ S) {s₀ : State S} (hinit : Initialised T s₀)
    (hrun : (game T).Run (fun _ => True) s₀ s) : TreatsAlike T s := by
  obtain ⟨-, hT, hstart⟩ := hinit.start hS
  have hc := coherent_run hS hT (hstart.coherent hS hT) hrun
  have h := swapped_roleSwap s
  refine ⟨h.moves hc.side, fun m hm => ?_, fun m hm => ?_, fun m hm => ?_, fun line => ?_⟩
  · have heq := (h.apply hS hT hc .moveWinner hm).eq
    have hhash : (moveWinner T (roleSwap s) m).zobristHash
        = (roleSwap (moveWinner T s m)).zobristHash := by
      rw [moveWinner_zobristHash]
      exact (moveWinner_zobristHash s m).symm
    refine heq.trans ?_
    show ({ roleSwap (moveWinner T s m) with
      zobristHash := (moveWinner T (roleSwap s) m).zobristHash } : State S) = _
    rw [hhash]
  · exact ⟨(moveHash T (roleSwap s) m).zobristHash, (h.apply hS hT hc .moveHash hm).eq⟩
  · exact ⟨(moveHashWinner T (roleSwap s) m).zobristHash,
      (h.apply hS hT hc .moveHashWinner hm).eq⟩
  · obtain ⟨hlisted, hend⟩ := h.perform hS hT hc line
    exact ⟨hlisted, fun hline => ⟨(hend hline).ended, (hend hline).result⟩⟩

/-- After a first move on the smallest board. -/
theorem state_treatsAlike_three :
    TreatsAlike smallSetup.statics
      (moveHash smallSetup.statics smallSetup.state ⟨⟨1, 1⟩, ⟨2, 2⟩⟩) :=
  state_treatsAlike (by decide) (.once (Or.inl rfl) initializeState_small)
    (.move .moveHash .start trivial (by decide +kernel :
      (⟨⟨1, 1⟩, ⟨2, 2⟩⟩ : Move) ∈ (game smallSetup.statics).legal smallSetup.state))

end MctsConnectFour.Oska
