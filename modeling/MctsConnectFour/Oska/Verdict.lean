/-
The end of an Oska game.

`winner ( )` asks about home counters, stone lists and moves in turn;
`moves ( )` only asks whether somebody has won. `Judged` is what makes
them agree, as an invariant of games in which `winner ( )` follows every
move: there is a verdict exactly when the game is over on the board, and
a verdict that `moves ( )` does not see, a tie, leaves the player to
move without a move. The last is geometry again: in a tie both players
are home, and a stone on its home row is at the end of the board.
-/
import MctsConnectFour.Oska.Coherence

namespace MctsConnectFour.Oska

variable {S : Nat} {T : Statics S} {s t : State S} {p : Player}

-- ==================================================== over on the board

/-- `p` has a stone, and all its stones are on its home row. -/
def AllHome (s : State S) (p : Player) : Prop :=
  (∃ c r, Hexagon S c r ∧ (s.board p).at' c r = p)
    ∧ ∀ c r, Hexagon S c r → (s.board p).at' c r = p → r = obHomeRow S

/-- `p` has a move on the board. -/
def CanMove (s : State S) (p : Player) : Prop := ∃ m d, Steps s p m d

/-- A player that is home cannot move. -/
theorem AllHome.not_canMove (hS : 3 ≤ S) (hp : p.IsSide) (hv : Viewed T s p) (h : AllHome s p) :
    ¬ CanMove s p := by
  intro h'
  obtain ⟨m, d, hm⟩ := h'
  have hrow := h.2 _ _ hm.hexagon hm.own
  obtain ⟨hto, hkind⟩ := hm.geometry hS hp hv
  have hlast := hto.2.1
  rcases hkind with ⟨-, heq⟩ | ⟨-, heq, -⟩
  · rw [heq] at hlast
    simp only at hlast
    omega
  · rw [heq] at hlast
    simp only at hlast
    omega

/-- `haveRemainingHome ( )` of either side. -/
theorem haveRemainingHome_iff_noHome (hp : p.IsSide) :
    s.haveRemainingHome p = true ↔ s.noHome p ≠ 0 ∧ s.noHome p = (s.stoneId p).length := by
  rw [haveRemainingHome_eq s hp, Bool.and_eq_true, bne_iff_ne, beq_iff_eq]

section Queries

variable (hS : 3 ≤ S) (hT : Located T) (hp : p.IsSide) (hv : Viewed T s p)

include hS hT hp hv

/-- `haveRemainingHome ( )` compares two numbers and means the board. -/
theorem haveRemainingHome_iff : s.haveRemainingHome p = true ↔ AllHome s p := by
  rw [haveRemainingHome_iff_noHome hp, hv.home, List.countP_eq_length]
  constructor
  · intro h
    obtain ⟨hne, hall⟩ := h
    refine ⟨?_, fun c r hhex hat => ?_⟩
    · obtain ⟨id, hid, -⟩ := List.countP_pos_iff.mp (Nat.pos_of_ne_zero hne)
      obtain ⟨c, r, hhex, hat, -⟩ := (hv.stones id).mp hid
      exact ⟨c, r, hhex, hat⟩
    · have hrow := hall _ ((hv.stones _).mpr ⟨c, r, hhex, hat, rfl⟩)
      rw [decide_eq_true_eq, hT.locationOf_idAt hS hp hhex] at hrow
      exact hrow
  · intro h
    obtain ⟨⟨c, r, hhex, hat⟩, hall⟩ := h
    have hhome : ∀ id ∈ s.stoneId p, decide ((T.locationOf p id).r = obHomeRow S) = true := by
      intro id hid
      obtain ⟨c', r', hhex', hat', rfl⟩ := (hv.stones id).mp hid
      rw [decide_eq_true_eq, hT.locationOf_idAt hS hp hhex']
      exact hall c' r' hhex' hat'
    have hmem := (hv.stones _).mpr ⟨c, r, hhex, hat, rfl⟩
    exact ⟨Nat.ne_of_gt (List.countP_pos_iff.mpr ⟨_, hmem, hhome _ hmem⟩), hhome⟩

omit hS hT in
/-- A player without stones cannot move. -/
theorem not_canMove_of_notHaveStones (h : s.notHaveStones p = true) : ¬ CanMove s p := by
  rw [notHaveStones_eq s hp, List.isEmpty_iff] at h
  intro h'
  obtain ⟨m, d, hm⟩ := h'
  have hmem := (hv.stones _).mpr ⟨_, _, hm.hexagon, hm.own, rfl⟩
  rw [h] at hmem
  cases hmem

/-- `hasMoves ( )` looks for a move on the board. -/
theorem hasMoves_iff_canMove : s.hasMoves T p = true ↔ CanMove s p :=
  hasMoves_iff hS hT hp hv

end Queries

-- ============================================================= verdict

/-- The verdict and the board agree. -/
structure Judged (s : State S) : Prop where
  verdict : s.winner ≠ .invalid ↔
    AllHome s s.playerToMove.opponent ∨ ¬ CanMove s s.playerToMove
  tie : s.winner = .vacant → ¬ CanMove s s.playerToMove

/-- The boards after `winner ( )` and the change of turns are those
before. -/
theorem board_setWinner_next (q : Player) : ((s.setWinner T).next).board q = s.board q := by
  rw [setWinner_eq]
  rfl

theorem playerToMove_setWinner_next :
    ((s.setWinner T).next).playerToMove = s.playerToMove.opponent := by
  rw [setWinner_eq]
  rfl

theorem winner_setWinner_next : ((s.setWinner T).next).winner = (s.setWinner T).winner := rfl

theorem allHome_setWinner_next (q : Player) :
    AllHome ((s.setWinner T).next) q ↔ AllHome s q := by
  unfold AllHome
  rw [board_setWinner_next]

theorem canMove_setWinner_next (q : Player) :
    CanMove ((s.setWinner T).next) q ↔ CanMove s q := by
  unfold CanMove
  refine exists_congr fun m => exists_congr fun d => ?_
  constructor
  · intro h
    obtain ⟨h₁, h₂, h₃, h₄, h₅⟩ := h
    rw [board_setWinner_next] at h₃ h₄ h₅
    exact ⟨h₁, h₂, h₃, h₄, h₅⟩
  · intro h
    obtain ⟨h₁, h₂, h₃, h₄, h₅⟩ := h
    refine ⟨h₁, h₂, ?_, ?_, ?_⟩ <;> rw [board_setWinner_next]
    · exact h₃
    · exact h₄
    · exact h₅

section Judge

variable (hS : 3 ≤ S) (hT : Located T)

include hS hT

/-- `winner ( )`, called on a game without a verdict, judges it. -/
theorem Coherent.judged (h : Coherent T s) (hopen : s.winner = .invalid) :
    Judged ((s.setWinner T).next) := by
  have hp := h.side
  have hv := h.viewed _ hp
  have hv' := h.viewed _ hp.opponent
  have hhome := haveRemainingHome_iff hS hT hp hv
  have hhome' := haveRemainingHome_iff hS hT hp.opponent hv'
  have hmoves := hasMoves_iff_canMove hS hT hp.opponent hv'
  constructor
  · rw [allHome_setWinner_next, canMove_setWinner_next, playerToMove_setWinner_next,
      Player.opponent_opponent, winner_setWinner_next]
    unfold State.setWinner
    by_cases hwon : s.haveRemainingHome s.playerToMove = true
    · rw [if_pos hwon]
      refine iff_of_true ?_ (Or.inl (hhome.mp hwon))
      show (if _ then s.playerMostHomeStones else s.playerToMove) ≠ _
      split
      · unfold State.playerMostHomeStones
        split_ifs <;> decide
      · exact hp.ne_invalid
    · rw [if_neg hwon]
      have hnot := mt hhome.mpr hwon
      by_cases hbare : s.notHaveStones s.playerToMove.opponent = true
      · rw [if_pos hbare]
        exact iff_of_true hp.ne_invalid
          (Or.inr (not_canMove_of_notHaveStones hp.opponent hv' hbare))
      · rw [if_neg hbare]
        cases hstuck : s.hasMoves T s.playerToMove.opponent with
        | false =>
            rw [if_pos (by decide)]
            refine iff_of_true hp.opponent.ne_invalid (Or.inr fun hcan => ?_)
            rw [hmoves.mpr hcan] at hstuck
            cases hstuck
        | true =>
            rw [if_neg (by decide)]
            refine iff_of_false (not_not_intro hopen) ?_
            intro h'
            rcases h' with hall | hcannot
            · exact hnot hall
            · exact hcannot (hmoves.mp hstuck)
  · rw [canMove_setWinner_next, playerToMove_setWinner_next, winner_setWinner_next]
    unfold State.setWinner
    by_cases hwon : s.haveRemainingHome s.playerToMove = true
    · rw [if_pos hwon]
      by_cases hboth : s.haveRemainingHome s.playerToMove.opponent = true
      · intro _
        exact (hhome'.mp hboth).not_canMove hS hp.opponent hv'
      · simp only [hboth]
        intro htie
        exact absurd htie hp.ne_vacant
    · rw [if_neg hwon]
      split_ifs
      · intro htie
        exact absurd htie hp.ne_vacant
      · intro htie
        exact absurd htie hp.opponent.ne_vacant
      · rw [hopen]
        intro htie
        cases htie

omit hT in
/-- At the start either player has a stone on its first hexagon, and
nothing in front of it. -/
theorem Start.corner (h : Start s) (hp : p.IsSide) : Hexagon S 1 1 ∧ (s.board p).at' 1 1 = p
    ∧ (s.board p).at' 2 2 = .vacant := by
  have hhome : obHomeRow S = 2 * S - 3 := obHomeRow_eq (by omega)
  have hcols : obCols S = 2 * S + 1 := obCols_eq (by omega)
  have hrows : obRows S = 2 * S - 1 := obRows_eq (by omega)
  have hone : Hexagon S 1 1 := by
    unfold Hexagon
    omega
  have htwo : Hexagon S 2 2 := by
    unfold Hexagon
    omega
  have hcontent : ∀ {c r : Int}, Hexagon S c r →
      s.agentBoard.at' c r = startContent S r.toNat := by
    intro c r hhex
    obtain ⟨cell, hcell, rfl, rfl⟩ := hhex.exists_cell hS
    rw [h.laid.inside cell hcell, Int.toNat_natCast]
  refine ⟨hone, ?_⟩
  rcases hp with rfl | rfl
  · refine ⟨(hcontent hone).trans ?_, (hcontent htwo).trans ?_⟩
    · unfold startContent
      rw [if_pos (by decide)]
    · unfold startContent
      rw [if_neg (by decide), if_neg (by simp only [Int.reduceToNat]; omega)]
  · refine ⟨(h.laid.mirror 1 1 (hone.inRange hS)).trans
        ((hcontent ((hexagon_reflect hS).mpr hone)).trans ?_),
      (h.laid.mirror 2 2 (htwo.inRange hS)).trans
        ((hcontent ((hexagon_reflect hS).mpr htwo)).trans ?_)⟩
    · unfold startContent
      rw [if_neg (by omega), if_pos (by omega)]
    · unfold startContent
      rw [if_neg (by omega), if_neg (by omega)]

omit hT in
/-- At the start nobody is home. -/
theorem Start.not_allHome (h : Start s) (hp : p.IsSide) : ¬ AllHome s p := by
  intro hall
  obtain ⟨hone, hown, -⟩ := h.corner hS hp
  have hhome : obHomeRow S = 2 * S - 3 := obHomeRow_eq (by omega)
  have hrow := hall.2 1 1 hone hown
  omega

omit hT in
/-- At the start everybody can move. -/
theorem Start.canMove (h : Start s) (hp : p.IsSide) : CanMove s p := by
  obtain ⟨hone, hown, hvac⟩ := h.corner hS hp
  exact ⟨⟨⟨1, 1⟩, ⟨2, 2⟩⟩, 1, Or.inl rfl, hone, hown, hvac, Or.inl rfl⟩

omit hT in
theorem Start.judged (h : Start s) : Judged s := by
  refine ⟨iff_of_false (not_not_intro h.winner) ?_, fun htie => ?_⟩
  · intro h'
    rcases h' with hall | hcannot
    · exact h.not_allHome hS h.side.opponent hall
    · exact hcannot (h.canMove hS h.side)
  · rw [h.winner] at htie
    cases htie

/-- A listed move is played in a position without a verdict, where a draw
means that there are none. -/
theorem Coherent.winner_of_legal (h : Coherent T s)
    (htie : s.winner = .vacant → ¬ CanMove s s.playerToMove) {m : Move}
    (hm : m ∈ (game T).legal s) : s.winner = .invalid ∧ ∃ d, Steps s s.playerToMove m d := by
  obtain ⟨hfree, d, hstep⟩ := (mem_legal_iff hS hT h m).mp hm
  have hdraw := mt htie (not_not_intro ⟨m, d, hstep⟩)
  exact ⟨Player.eq_invalid hfree hdraw, d, hstep⟩

theorem Judged.winner_of_legal (h : Coherent T s) (hj : Judged s) {m : Move}
    (hm : m ∈ (game T).legal s) : s.winner = .invalid ∧ ∃ d, Steps s s.playerToMove m d :=
  h.winner_of_legal hS hT hj.tie hm

/-- A move of a game without a verdict, followed by `winner ( )`: the state
`winner ( )` looks at is coherent, without a verdict, and the mover has a
stone. -/
theorem Coherent.made (h : Coherent T s) (hopen : s.winner = .invalid) {op : Game.MoveOp}
    (hop : op ≠ .moveHash) {m : Move} (hm : m ∈ (game T).legal s) :
    ∃ t, (game T).apply op s m = (t.setWinner T).next ∧ Coherent T t ∧ t.winner = .invalid
      ∧ t.stoneId t.playerToMove ≠ [] := by
  obtain ⟨-, d, hstep⟩ := (mem_legal_iff hS hT h m).mp hm
  have hplace := h.place hS hT hstep
  have hwinner : (s.place T m).winner = .invalid := place_rest.2.1.trans hopen
  have hstone : (s.place T m).stoneId (s.place T m).playerToMove ≠ [] := by
    rw [place_rest.1]
    intro hnone
    have hown := (h.placed hS hT hstep).own
    rw [hnone] at hown
    exact List.cons_ne_nil _ _ hown.nil_eq.symm
  cases op with
  | moveHash => exact absurd rfl hop
  | moveWinner => exact ⟨s.place T m, rfl, hplace, hwinner, hstone⟩
  | moveHashWinner =>
      refine ⟨s.playHash T m, rfl, ?_, ?_, ?_⟩
      · rw [playHash_eq]
        exact hplace.congr hplace.side rfl rfl rfl rfl rfl rfl
      · rw [playHash_eq]
        exact hwinner
      · rw [playHash_eq]
        exact hstone

/-- The same for a listed move of a judged state. -/
theorem Judged.made (h : Coherent T s) (hj : Judged s) {op : Game.MoveOp} (hop : op ≠ .moveHash)
    {m : Move} (hm : m ∈ (game T).legal s) :
    ∃ t, (game T).apply op s m = (t.setWinner T).next ∧ Coherent T t ∧ t.winner = .invalid
      ∧ t.stoneId t.playerToMove ≠ [] :=
  h.made hS hT (hj.winner_of_legal hS hT h hm).1 hop hm

/-- In every state of a game, also where `winner ( )` has not followed a
move, a draw means that the player to move cannot. -/
theorem tie_run {ops : Game.MoveOp → Prop} {s₀ : State S} (h₀ : Coherent T s₀) (hj₀ : Judged s₀)
    (hrun : (game T).Run ops s₀ s) :
    Coherent T s ∧ (s.winner = .vacant → ¬ CanMove s s.playerToMove) := by
  refine hrun.invariant (I := fun s : State S =>
    Coherent T s ∧ (s.winner = .vacant → ¬ CanMove s s.playerToMove)) ⟨h₀, hj₀.tie⟩ ?_
  intro s op m hI _ hm
  obtain ⟨h, htie⟩ := hI
  have hopen := (h.winner_of_legal hS hT htie hm).1
  refine ⟨h.apply hS hT op hm, ?_⟩
  by_cases hop : op = .moveHash
  · -- the winner stays as it is
    subst hop
    have hkeep : ((game T).apply .moveHash s m).winner = .invalid := by
      show (s.playHash T m).winner = _
      rw [playHash_eq]
      exact place_rest.2.1.trans hopen
    rw [hkeep]
    exact nofun
  · obtain ⟨t, heq, ht, htopen, -⟩ := h.made hS hT hopen hop hm
    rw [heq]
    exact (ht.judged hS hT htopen).tie

/-- Every state of a game in which `winner ( )` follows every move is
judged. -/
theorem judged_run {s₀ : State S} (h₀ : Coherent T s₀) (hj₀ : Judged s₀)
    (hrun : (game T).Run (· ≠ .moveHash) s₀ s) : Coherent T s ∧ Judged s := by
  refine hrun.invariant (I := fun s => Coherent T s ∧ Judged s) ⟨h₀, hj₀⟩ ?_
  intro s op m h' hop hm
  obtain ⟨h, hj⟩ := h'
  obtain ⟨t, heq, ht, hopen, -⟩ := hj.made hS hT h hop hm
  refine ⟨h.apply hS hT op hm, ?_⟩
  rw [heq]
  exact ht.judged hS hT hopen

/-- `moves ( )` returns false exactly when there is a verdict. -/
theorem Judged.moves_iff (h : Coherent T s) (hj : Judged s) (m : Moves Move (2 * S)) :
    (s.moves T m).1 = false ↔ s.winner ≠ .invalid := by
  have hlist : moveList T s s.playerToMove ≠ [] ↔ CanMove s s.playerToMove := by
    have hmem := mem_moveList hS hT h.side (h.viewed _ h.side)
    constructor
    · intro hne
      obtain ⟨m, hm⟩ := List.exists_mem_of_ne_nil _ hne
      exact ⟨m, (hmem m).mp hm⟩
    · intro h'
      obtain ⟨m, hm⟩ := h'
      exact List.ne_nil_of_mem ((hmem m).mpr hm)
  rw [← Bool.not_eq_true, (moves_spec h m).1, hlist]
  constructor
  · intro hnot hopen
    have hgo := not_or.mp (mt hj.verdict.mpr (not_not_intro hopen))
    exact hnot ⟨by rw [hopen]; rfl, not_not.mp hgo.2⟩
  · intro hover h'
    obtain ⟨hfree, hcan⟩ := h'
    exact hover (Player.eq_invalid hfree (mt hj.tie (not_not_intro hcan)))

end Judge

theorem ended_ne_none_iff : s.ended ≠ none ↔ s.winner ≠ .invalid := by
  unfold State.ended
  split
  · next h => simp [h]
  · next h => simp [h]

/-- A game that has ended has no moves. -/
theorem legal_of_ended (hS : 3 ≤ S) {ops : Game.MoveOp → Prop} {s₀ : State S}
    (hinit : Initialised T s₀) (hrun : (game T).Run ops s₀ s) (hended : s.ended ≠ none) : (game T).legal s = [] := by
  obtain ⟨-, hT, hstart⟩ := hinit.start hS
  obtain ⟨h, htie⟩ := tie_run hS hT (hstart.coherent hS hT) (hstart.judged hS) hrun
  apply List.eq_nil_iff_forall_not_mem.mpr
  intro m hm
  exact ended_ne_none_iff.mp hended (h.winner_of_legal hS hT htie hm).1

/-- In every state of a game played by `move_winner ( )` and
`move_hash_winner ( )` the game has ended exactly when the last mover
has stones and all of them are home, or the player to move cannot move;
and `moves ( )` returns false exactly when the game has ended. -/
theorem ended_iff (hS : 3 ≤ S) {s₀ : State S} (hinit : Initialised T s₀)
    (hrun : (game T).Run (fun op => op = .moveWinner ∨ op = .moveHashWinner) s₀ s) :
    (s.ended ≠ none ↔ AllHome s s.playerToMove.opponent ∨ ¬ CanMove s s.playerToMove)
      ∧ ∀ m : Moves Move (2 * S), (s.moves T m).1 = false ↔ s.ended ≠ none := by
  obtain ⟨-, hT, hstart⟩ := hinit.start hS
  obtain ⟨h, hj⟩ := judged_run hS hT (hstart.coherent hS hT) (hstart.judged hS)
    hrun.winner_follows
  rw [ended_ne_none_iff]
  exact ⟨hj.verdict, fun m => hj.moves_iff hS hT h m⟩

/-- After a first move on the smallest board. -/
theorem ended_iff_three :
    let s := moveWinner smallSetup.statics smallSetup.state ⟨⟨1, 1⟩, ⟨2, 2⟩⟩
    (s.ended ≠ none ↔ AllHome s s.playerToMove.opponent ∨ ¬ CanMove s s.playerToMove)
      ∧ ∀ m : Moves Move (2 * 3),
          (s.moves smallSetup.statics m).1 = false ↔ s.ended ≠ none :=
  ended_iff (by decide) (.once (Or.inl rfl) initializeState_small)
    (.move .moveWinner .start (Or.inl rfl) (by decide +kernel :
      (⟨⟨1, 1⟩, ⟨2, 2⟩⟩ : Move) ∈ (game smallSetup.statics).legal smallSetup.state))

end MctsConnectFour.Oska
