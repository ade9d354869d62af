/-
Oska obeys the laws the search relies on.

A position is the agent's board and the player to move; coherence makes
it determine the other board, the stones up to their order and the keys,
and `Judged` the verdict. Games end because stones only walk forward: the
rows they still have to go, each in the perspective of its owner, are the
measure.
-/
import MctsConnectFour.Laws
import MctsConnectFour.Oska.Hash
import MctsConnectFour.Oska.Stones
import MctsConnectFour.Oska.Verdict

namespace MctsConnectFour.Oska

variable {S : Nat} {T : Statics S} {s t : State S} {m : Move} {d : Int}

-- ======================================================== moves and hash

/-- The hash is not looked at by moves. -/
theorem moveHashWinner_withHash (s : State S) (h : UInt64) (m : Move) :
    ∃ h', moveHashWinner T { s with zobristHash := h } m
      = { moveWinner T s m with zobristHash := h' } := by
  have hplace : State.place T { s with zobristHash := h } m
      = { s.place T m with zobristHash := h } := by
    unfold State.place State.moveStone State.captureStone
    simp only
    split_ifs <;> rfl
  have hjudge : ∀ (u : State S) (h' : UInt64), State.setWinner T { u with zobristHash := h' }
      = { u.setWinner T with zobristHash := h' } := by
    intro u h'
    unfold State.setWinner
    simp only
    split_ifs <;> first | rfl | contradiction
  refine ⟨(State.playHash T { s with zobristHash := h } m).zobristHash, ?_⟩
  unfold moveHashWinner moveWinner
  rw [playHash_eq, hplace, hjudge, hjudge]
  rfl

/-- The same for a whole line. -/
theorem play_withHash (s : State S) (ms : List Move) :
    ∃ h, (game T).play s ms = { ms.foldl (moveWinner T) s with zobristHash := h } := by
  induction ms using List.reverseRecOn with
  | nil => exact ⟨s.zobristHash, rfl⟩
  | append_singleton ms m ih =>
      obtain ⟨h, ih⟩ := ih
      rw [Game.play_concat, ih, List.foldl_append]
      exact moveHashWinner_withHash _ h m

/-- The board after a move is a function of the position before and the
move. -/
theorem position_apply (op : Game.MoveOp) (s : State S) (m : Move) :
    (game T).position ((game T).apply op s m)
      = ((s.place T m).agentBoard, s.playerToMove.opponent) := by
  obtain ⟨hash, winner, heq⟩ := apply_eq (T := T) (s := s) (m := m) op
  rw [heq]

theorem place_agentBoard_congr (hboard : s.agentBoard = t.agentBoard)
    (hplayer : s.playerToMove = t.playerToMove) (m : Move) :
    (s.place T m).agentBoard = (t.place T m).agentBoard := by
  unfold State.place
  simp only [moveStone_playerToMove, hplayer]
  unfold State.moveStone State.captureStone
  simp only [hboard]
  split_ifs <;> rfl

-- =========================================================== the measure

/-- The rows the stones of `p` still have to go. -/
def distance (T : Statics S) (s : State S) (p : Player) : Nat :=
  ((s.stoneId p).map fun id => (obHomeRow S + 1 - (T.locationOf p id).r).toNat).sum

section Laws

variable (hS : 3 ≤ S) (hT : Located T)

include hS hT

/-- Every listed move, however made, brings the game closer to its
end. -/
theorem Coherent.distance_apply (h : Coherent T s) (op : Game.MoveOp)
    (hm : m ∈ (game T).legal s) :
    distance T ((game T).apply op s m) .agent + distance T ((game T).apply op s m) .human
      < distance T s .agent + distance T s .human := by
  obtain ⟨-, d, hstep⟩ := (mem_legal_iff hS hT h m).mp hm
  obtain ⟨hlt, hle⟩ := hstep.advance hS h.side (h.viewed _ h.side)
  obtain ⟨hash, winner, heq⟩ := apply_eq (T := T) (s := s) (m := m) op
  rw [heq]
  apply h.sumStones_total hS hT hstep (f := fun l => (obHomeRow S + 1 - l.r).toNat)
  omega

-- ========================================================== listed moves

omit hS hT in
/-- The list of moves, while nobody has won. -/
theorem legal_eq (h : Coherent T s) :
    (game T).legal s = if s.winner.occupied then [] else moveList T s s.playerToMove := by
  obtain ⟨hret, hlist⟩ := moves_spec h .new
  show (if (s.moves T .new).1 then (s.moves T .new).2.toList else []) = _
  cases hb : (s.moves T .new).1 with
  | true =>
      rw [if_pos rfl, (hlist hb).1, (hret.mp hb).1]
      rfl
  | false =>
      rw [if_neg (by decide)]
      rw [← Bool.not_eq_true, hret, not_and, not_not] at hb
      cases hw : s.winner.occupied with
      | true => rfl
      | false => exact (hb hw).symm

/-- A stone's searches find moves of that stone, and different ones. -/
theorem moveList_nodup {p : Player} (hp : p.IsSide) (hv : Viewed T s p) :
    (moveList T s p).Nodup := by
  have hmem : ∀ id ∈ s.stoneId p, ∃ c r, Hexagon S c r ∧ (s.board p).at' c r = p
      ∧ T.idAt p c r = id ∧ T.locationOf p id = ⟨c, r⟩ := fun id hid => by
    obtain ⟨c, r, hhex, hown, rfl⟩ := (hv.stones id).mp hid
    exact ⟨c, r, hhex, hown, rfl, hT.locationOf_idAt hS hp hhex⟩
  have hfrom : ∀ id ∈ s.stoneId p, ∀ m ∈ movesFrom T s p id, m.mFrom = T.locationOf p id := by
    intro id hid m hm
    obtain ⟨c, r, hhex, hown, -, hloc⟩ := hmem id hid
    unfold movesFrom at hm
    rw [hloc, List.mem_filter, decide_eq_true_eq] at hm
    obtain ⟨hm, hne⟩ := hm
    rw [hloc]
    rcases List.mem_cons.mp hm with rfl | hm
    · exact ((forward_spec hp (Or.inl rfl) hhex hown).mp ⟨rfl, hne⟩).2
    · rw [List.mem_singleton] at hm
      subst hm
      exact ((forward_spec hp (Or.inr rfl) hhex hown).mp ⟨rfl, hne⟩).2
  refine List.nodup_flatMap.mpr ⟨fun id hid => ?_, ?_⟩
  · obtain ⟨c, r, hhex, hown, -, hloc⟩ := hmem id hid
    unfold movesFrom
    rw [hloc]
    -- were the two searches to agree on a move, it would go both ways
    by_cases hboth : leftMove (s.board p) c r = rightMove (s.board p) c r
    · have hinvalid : leftMove (s.board p) c r = Move.invalid := by
        by_contra hne
        obtain ⟨hl, -⟩ := (forward_spec hp (Or.inl rfl) hhex hown
          (m := leftMove (s.board p) c r)).mp ⟨leftMove_eq .., hne⟩
        obtain ⟨hr, -⟩ := (forward_spec hp (Or.inr rfl) hhex hown).mp
          ⟨(rightMove_eq ..).symm.trans hboth.symm, hne⟩
        rcases hl.kind with heq | ⟨heq, -⟩ <;> rcases hr.kind with heq' | ⟨heq', -⟩ <;>
          · rw [heq, Location.mk.injEq] at heq'
            omega
      simp [← hboth, hinvalid]
    · refine List.Nodup.filter _ ?_
      simpa using hboth
  · refine List.Pairwise.imp_of_mem ?_ hv.nodup
    intro id id' hid hid' hne
    refine List.disjoint_left.mpr fun m hm hm' => hne ?_
    obtain ⟨c, r, -, -, heq, hloc⟩ := hmem id hid
    obtain ⟨c', r', -, -, heq', hloc'⟩ := hmem id' hid'
    have hsame := (hfrom id hid m hm).symm.trans (hfrom id' hid' m hm')
    rw [hloc, hloc', Location.mk.injEq] at hsame
    rw [← heq, ← heq', hsame.1, hsame.2]

/-- The listed moves are distinct. -/
theorem legal_nodup (h : Coherent T s) : ((game T).legal s).Nodup := by
  rw [legal_eq h]
  split
  · exact List.nodup_nil
  · exact moveList_nodup hS hT h.side (h.viewed _ h.side)

omit hS hT in
/-- The steps of a player are those of the board. -/
private theorem steps_congr (h : Coherent T s) (h' : Coherent T t)
    (hboard : s.agentBoard = t.agentBoard) {p : Player} (hm : Steps s p m d) : Steps t p m d := by
  have hboards := h.board_congr h' hboard p
  exact ⟨hm.sideways, hm.hexagon, hboards ▸ hm.own, hboards ▸ hm.vacant, hboards ▸ hm.kind⟩

omit hS hT in
/-- So the verdict is a matter of the position. -/
private theorem winner_congr (h : Coherent T s ∧ Judged s) (h' : Coherent T t ∧ Judged t)
    (hboard : s.agentBoard = t.agentBoard) (hplayer : s.playerToMove = t.playerToMove)
    (hopen : s.winner = .invalid) : t.winner = .invalid := by
  by_contra hover
  have hno := mt h.2.verdict.mpr (not_not_intro hopen)
  refine hno ?_
  rcases h'.2.verdict.mp hover with hhome | hstuck
  · left
    unfold AllHome at hhome ⊢
    rwa [hplayer, h.1.board_congr h'.1 hboard]
  · right
    intro hyp
    obtain ⟨m, d, hm⟩ := hyp
    exact hstuck ⟨m, d, hplayer ▸ steps_congr h.1 h'.1 hboard hm⟩

/-- A listed move is neither of the two that stand for no move, which do
not start on a hexagon. -/
theorem legal_valid (h : Coherent T s) (hm : m ∈ (game T).legal s) :
    m ≠ Move.none ∧ m ≠ Move.invalid := by
  obtain ⟨-, d, hstep⟩ := (mem_legal_iff hS hT h m).mp hm
  have hrow := hstep.hexagon.1
  refine ⟨?_, ?_⟩
  · intro h'
    obtain rfl := h'
    exact absurd hrow (by decide)
  · intro h'
    obtain rfl := h'
    exact absurd hrow (by decide)

private theorem legal_congr (h : Coherent T s ∧ Judged s) (h' : Coherent T t ∧ Judged t)
    (hboard : s.agentBoard = t.agentBoard) (hplayer : s.playerToMove = t.playerToMove) {m : Move}
    (hm : m ∈ (game T).legal s) : m ∈ (game T).legal t := by
  obtain ⟨hopen, d, hstep⟩ := h.2.winner_of_legal hS hT h.1 hm
  have hopen' := winner_congr h h' hboard hplayer hopen
  refine (mem_legal_iff hS hT h'.1 m).mpr ⟨by rw [hopen']; rfl, d, ?_⟩
  rw [← hplayer]
  exact steps_congr h.1 h'.1 hboard hstep

end Laws

-- ================================================================ laws

/-- The games from any state that has been initialised are lawful. -/
theorem lawful (hS : 3 ≤ S) {s₀ : State S} (hinit : Initialised T s₀) : (game T).Lawful s₀ := by
  obtain ⟨-, hT, hstart⟩ := hinit.start hS
  have hcoherent := hstart.coherent hS hT
  have hinv : ∀ {s : State S}, (game T).Mixed s₀ s → Coherent T s :=
    coherent_run hS hT hcoherent
  have hjudged : ∀ {s : State S}, (game T).Played s₀ s → Coherent T s ∧ Judged s := fun hs =>
    judged_run hS hT hcoherent (hstart.judged hS) hs.judged
  have hopen : ∀ {s : State S} {m : Move}, (game T).Played s₀ s → m ∈ (game T).legal s →
      s.winner = .invalid := fun hs hm =>
    ((hjudged hs).2.winner_of_legal hS hT (hjudged hs).1 hm).1
  constructor
  case moves_iff =>
    intro s hs c
    rw [legal_eq (hinv hs)]
    refine (moves_spec (hinv hs) c).1.trans ?_
    cases s.winner.occupied <;> simp
  case moves_toList =>
    intro s hs c hmore
    obtain ⟨hret, hlist⟩ := moves_spec (hinv hs) c
    rw [legal_eq (hinv hs), (hret.mp hmore).1]
    exact hlist hmore
  case legal_nodup =>
    intro s hs
    exact legal_nodup hS hT (hinv hs)
  case ended_iff =>
    intro s hs
    obtain ⟨h, hj⟩ := hjudged hs
    have hmoves := hj.moves_iff hS hT h .new
    rw [← Bool.not_eq_true, (moves_spec h .new).1] at hmoves
    rw [legal_eq h, ← not_iff_not]
    refine ended_ne_none_iff.trans (hmoves.symm.trans ?_)
    cases s.winner.occupied <;> simp
  case moveHash_ended =>
    intro s m hs hm
    have hw : (moveHash T s m).winner = .invalid := by
      show (s.playHash T m).winner = _
      rw [playHash_eq]
      exact place_rest.2.1.trans (hopen hs hm)
    by_contra hne
    exact ended_ne_none_iff.mp hne hw
  case moveHash_eq =>
    intro s m hs hm hended
    have hw : ((s.playHash T m).setWinner T).winner = .invalid := by
      by_contra hne
      exact ended_ne_none_iff.mpr hne hended
    have hw' : (s.playHash T m).winner = .invalid := by
      rw [playHash_eq]
      exact place_rest.2.1.trans (hopen hs hm)
    show (s.playHash T m).next = ((s.playHash T m).setWinner T).next
    rw [setWinner_eq, hw, ← hw']
  case lastMove =>
    intro s m
    obtain ⟨hash, winner, heq⟩ := apply_eq (T := T) (s := s) (m := m) .moveHashWinner
    show ((game T).apply .moveHashWinner s m).lastMove = m
    rw [heq]
    exact place_rest.2.2.1
  case moveWinner_line =>
    intro s ms
    obtain ⟨h, hplay⟩ := play_withHash (T := T) s ms
    rw [hplay]
    exact ⟨rfl, rfl, rfl⟩
  case measure =>
    refine ⟨fun s => distance T s .agent + distance T s .human, ?_, ?_⟩
    · intro s m hs op hm
      exact (hinv hs).distance_apply hS hT op hm
    · intro s t hs ht hpos
      have hperm : ∀ p : Player, p.IsSide → distance T s p = distance T t p := fun p hp =>
        (((hinv hs.mixed).stoneId_perm (hinv ht.mixed) (congrArg Prod.fst hpos) hp).map _).sum_eq
      show distance T s .agent + distance T s .human = distance T t .agent + distance T t .human
      rw [hperm _ (Or.inl rfl), hperm _ (Or.inr rfl)]
  case legal_perm =>
    intro s t hs ht hpos
    have hboard : s.agentBoard = t.agentBoard := congrArg Prod.fst hpos
    have hplayer : s.playerToMove = t.playerToMove := congrArg Prod.snd hpos
    exact (List.perm_ext_iff_of_nodup (legal_nodup hS hT (hjudged hs).1)
      (legal_nodup hS hT (hjudged ht).1)).mpr fun m =>
        ⟨legal_congr hS hT (hjudged hs) (hjudged ht) hboard hplayer,
          legal_congr hS hT (hjudged ht) (hjudged hs) hboard.symm hplayer.symm⟩
  case zobrist_eq =>
    intro s t hs ht hpos
    have hboard : s.agentBoard = t.agentBoard := congrArg Prod.fst hpos
    have hplayer : s.playerToMove = t.playerToMove := congrArg Prod.snd hpos
    have hbase : ∀ {u : State S}, (game T).Played s₀ u →
        Coherent T u ∧ hashBase T u = hashBase T s₀ := fun hu =>
      hashBase_run hS hT hcoherent hu.hashed
    show s.zobristHash ^^^ T.zobrist.playerKey s.playerToMove
      = t.zobristHash ^^^ T.zobrist.playerKey t.playerToMove
    rw [hash_eq (T := T) (s := s), hash_eq (T := T) (s := t), (hbase hs).2, (hbase ht).2, hplayer,
      stoneKeys_congr (hbase hs).1 (hbase ht).1 hboard]
  case playerJustMoved_eq =>
    intro s t hpos
    have hplayer : s.playerToMove = t.playerToMove := congrArg Prod.snd hpos
    show s.playerToMove.opponent = t.playerToMove.opponent
    rw [hplayer]
  case position_move =>
    intro s t hpos m
    have hboard : s.agentBoard = t.agentBoard := congrArg Prod.fst hpos
    have hplayer : s.playerToMove = t.playerToMove := congrArg Prod.snd hpos
    have hs := position_apply (T := T) .moveHashWinner s m
    have ht := position_apply (T := T) .moveHashWinner t m
    rw [place_agentBoard_congr hboard hplayer m, hplayer] at hs
    exact hs.trans ht.symm

end MctsConnectFour.Oska
