/-
The redundant parts of an Oska state stay in step.

`place_board` to `place_noHome` say, in the perspective of the mover,
what a move writes; `Steps.geometry` says where its cells lie. From the
two, `Placed` is everything later modules need to know about a move:
what is on the board afterwards, and the stone lists up to order. One
stone of the mover has a new id, at most one of the opponent's is gone.

That the home counters are never decremented is harmless for two
reasons, both geometric: a stone on its home row has no cell to move
to, and a capture takes place in front of the mover, that is never on
the row where the opponent's home is.
-/
import MctsConnectFour.Oska.Board

namespace MctsConnectFour.Oska

open MaMatrix (InRange)

variable {S : Nat} {T : Statics S} {s : State S} {m : Move} {d : Int}

-- ================================================= what a move writes

@[simp] theorem moveStone_playerToMove (p : Player) :
    (s.moveStone T p m).playerToMove = s.playerToMove := by
  unfold State.moveStone
  split <;> rfl

@[simp] theorem captureStone_playerToMove (p : Player) :
    (s.captureStone T p m).playerToMove = s.playerToMove := by
  unfold State.captureStone
  split <;> rfl

/-- The fields a move leaves alone. -/
theorem place_rest :
    (s.place T m).playerToMove = s.playerToMove ∧ (s.place T m).winner = s.winner
      ∧ (s.place T m).lastMove = m ∧ (s.place T m).zobristHash = s.zobristHash
      ∧ (s.place T m).isOnceInitialized = s.isOnceInitialized := by
  unfold State.place State.moveStone State.captureStone
  simp only
  split_ifs <;> exact ⟨rfl, rfl, rfl, rfl, rfl⟩

section Writes

variable (hside : s.playerToMove.IsSide)

include hside

theorem place_board :
    (s.place T m).board s.playerToMove =
      let b := ((s.board s.playerToMove).setAt m.mFrom.c m.mFrom.r .vacant).setAt m.mTo.c m.mTo.r
        s.playerToMove
      if m.isCapture then b.setAt m.captured.c m.captured.r .vacant else b := by
  unfold State.place
  rcases hside with hp | hp
  · simp only [moveStone_playerToMove, hp]
    split <;> rfl
  · simp only [moveStone_playerToMove, hp]
    split <;> rfl

theorem place_board_opponent :
    (s.place T m).board s.playerToMove.opponent =
      let b := ((s.board s.playerToMove.opponent).setAtR m.mFrom.c m.mFrom.r .vacant).setAtR
        m.mTo.c m.mTo.r s.playerToMove
      if m.isCapture then b.setAtR m.captured.c m.captured.r .vacant else b := by
  unfold State.place
  rcases hside with hp | hp
  · simp only [moveStone_playerToMove, hp]
    split <;> rfl
  · simp only [moveStone_playerToMove, hp]
    split <;> rfl

theorem place_stoneId :
    (s.place T m).stoneId s.playerToMove
      = (s.stoneId s.playerToMove).replace (T.idAt s.playerToMove m.mFrom.c m.mFrom.r)
          (T.idAt s.playerToMove m.mTo.c m.mTo.r) := by
  unfold State.place
  rcases hside with hp | hp
  · simp only [moveStone_playerToMove, hp]
    split <;> rfl
  · simp only [moveStone_playerToMove, hp]
    split <;> rfl

theorem place_stoneId_opponent :
    (s.place T m).stoneId s.playerToMove.opponent
      = if m.isCapture then (s.stoneId s.playerToMove.opponent).filter
            (· ≠ T.idAt s.playerToMove m.captured.c m.captured.r)
        else s.stoneId s.playerToMove.opponent := by
  unfold State.place
  rcases hside with hp | hp
  · simp only [moveStone_playerToMove, hp]
    split <;> rfl
  · simp only [moveStone_playerToMove, hp]
    split <;> rfl

theorem place_noHome :
    (s.place T m).noHome s.playerToMove
        = s.noHome s.playerToMove + (if m.mTo.r = obHomeRow S then 1 else 0)
      ∧ (s.place T m).noHome s.playerToMove.opponent = s.noHome s.playerToMove.opponent := by
  unfold State.place
  rcases hside with hp | hp
  · simp only [moveStone_playerToMove, hp]
    split <;> exact ⟨rfl, rfl⟩
  · simp only [moveStone_playerToMove, hp]
    split <;> exact ⟨rfl, rfl⟩

end Writes

-- ==================================================== where a move goes

/-- A move is a single step or a jump over an opposing stone; either way
all its cells are hexagons. -/
theorem Steps.geometry {p : Player} (hS : 3 ≤ S) (hp : p.IsSide) (hv : Viewed T s p)
    (hm : Steps s p m d) :
    Hexagon S m.mTo.c m.mTo.r
      ∧ ((m.isCapture = false ∧ m.mTo = ⟨m.mFrom.c + d, m.mFrom.r + 1⟩)
        ∨ (m.isCapture = true ∧ m.mTo = ⟨m.mFrom.c + 2 * d, m.mFrom.r + 2⟩
          ∧ m.captured = ⟨m.mFrom.c + d, m.mFrom.r + 1⟩
          ∧ Hexagon S m.captured.c m.captured.r
          ∧ (s.board p).at' m.captured.c m.captured.r = p.opponent)) := by
  have hhex : ∀ {c r : Int}, InRange (obCols S) (obRows S) c r →
      (s.board p).at' c r ≠ .invalid → Hexagon S c r := by
    intro c r hr hne
    by_contra hnot
    exact hne ((hv.shape c r hr).mpr hnot)
  obtain ⟨hc, hc', hr, hr'⟩ := hm.hexagon.inner hS
  have hfirst : InRange (obCols S) (obRows S) (m.mFrom.c + d) (m.mFrom.r + 1) := by
    rcases hm.sideways with rfl | rfl <;> unfold InRange <;> omega
  have hvac := hm.vacant
  obtain ⟨⟨c, r⟩, l⟩ := m
  simp only at hc hc' hr hr' hfirst hvac ⊢
  rcases hm.kind with heq | ⟨heq, hover⟩
  · simp only at heq
    subst heq
    refine ⟨hhex hfirst (by rw [hvac]; decide), Or.inl ⟨?_, rfl⟩⟩
    simp [Move.isCapture]
  · simp only at heq hover
    subst heq
    have hcap : Hexagon S (c + d) (r + 1) := hhex hfirst (by rw [hover]; exact hp.opponent.ne_invalid)
    obtain ⟨hcc, hcc', hcr, hcr'⟩ := hcap.inner hS
    have hlocation : (⟨⟨c, r⟩, ⟨c + 2 * d, r + 2⟩⟩ : Move).captured = ⟨c + d, r + 1⟩ := by
      simp only [Move.captured, Location.mk.injEq]
      rw [show c + (c + 2 * d) = 2 * (c + d) by ring, show r + (r + 2) = 2 * (r + 1) by ring]
      exact ⟨Int.mul_tdiv_cancel_left _ (by decide), Int.mul_tdiv_cancel_left _ (by decide)⟩
    refine ⟨hhex ?_ (by rw [hvac]; decide), Or.inr ⟨?_, rfl, hlocation, ?_, ?_⟩⟩
    · rcases hm.sideways with rfl | rfl <;> simp only [InRange] <;> omega
    · rcases hm.sideways with rfl | rfl <;> simp [Move.isCapture]
    · rwa [hlocation]
    · rw [hlocation]
      exact hover

/-- The first element equal to `a` replaced, up to order. -/
theorem replace_perm {α : Type} [DecidableEq α] {l : List α} {a : α} (b : α) (ha : a ∈ l) :
    (l.replace a b).Perm (b :: l.erase a) := by
  induction l with
  | nil => cases ha
  | cons x l ih =>
      by_cases hx : x = a
      · subst hx
        simp
      · have hmem : a ∈ l := by
          rcases List.mem_cons.mp ha with h | h
          · exact absurd h.symm hx
          · exact h
        have hax : (a == x) = false := beq_eq_false_iff_ne.mpr fun h => hx h.symm
        rw [List.replace_cons, hax, List.erase_cons_tail (by simpa using hx)]
        exact ((ih hmem).cons x).trans (List.Perm.swap _ _ _)

-- ==================================================== the state after

/-- What is known of a state after a move of `s.playerToMove`, before
the verdict and the change of turns. -/
structure Placed (T : Statics S) (s : State S) (m : Move) (t : State S) : Prop where
  board : ∀ c r, InRange (obCols S) (obRows S) c r →
    (t.board s.playerToMove).at' c r =
      if m.isCapture ∧ c = m.captured.c ∧ r = m.captured.r then .vacant
      else if c = m.mTo.c ∧ r = m.mTo.r then s.playerToMove
      else if c = m.mFrom.c ∧ r = m.mFrom.r then .vacant
      else (s.board s.playerToMove).at' c r
  from_mem : T.idAt s.playerToMove m.mFrom.c m.mFrom.r ∈ s.stoneId s.playerToMove
  to_new : T.idAt s.playerToMove m.mTo.c m.mTo.r ∉ s.stoneId s.playerToMove
  own : (t.stoneId s.playerToMove).Perm
    (T.idAt s.playerToMove m.mTo.c m.mTo.r
      :: (s.stoneId s.playerToMove).erase (T.idAt s.playerToMove m.mFrom.c m.mFrom.r))
  captured_mem : m.isCapture = true →
    T.idAt s.playerToMove m.captured.c m.captured.r ∈ s.stoneId s.playerToMove.opponent
  other : t.stoneId s.playerToMove.opponent =
    if m.isCapture then (s.stoneId s.playerToMove.opponent).erase
        (T.idAt s.playerToMove m.captured.c m.captured.r)
    else s.stoneId s.playerToMove.opponent

section Step

variable (hS : 3 ≤ S) (hT : Located T)

include hS hT

/-- The id of a cell that a player does not hold is not among its
stones. -/
theorem Viewed.idAt_mem_iff {p : Player} (hp : p.IsSide) (hv : Viewed T s p) {c r : Int}
    (h : Hexagon S c r) : T.idAt p c r ∈ s.stoneId p ↔ (s.board p).at' c r = p := by
  rw [hv.stones]
  constructor
  · intro hyp
    obtain ⟨c', r', h', hat, heq⟩ := hyp
    obtain ⟨rfl, rfl⟩ := hT.idAt_inj hS hp h' h heq
    exact hat
  · intro hat
    exact ⟨c, r, h, hat, rfl⟩

/-- The same for the stones of the other side. -/
theorem Coherent.idAt_mem_opponent_iff (h : Coherent T s) {p : Player} (hp : p.IsSide) {c r : Int}
    (hhex : Hexagon S c r) :
    T.idAt p c r ∈ s.stoneId p.opponent ↔ (s.board p).at' c r = p.opponent := by
  have hreflect := (hexagon_reflect hS).mpr hhex
  have hid := idAt_opponent T hp.opponent c r
  rw [Player.opponent_opponent] at hid
  rw [hid, (h.viewed _ hp.opponent).idAt_mem_iff hS hT hp.opponent hreflect,
    h.board_opponent hp (hreflect.inRange hS)]
  rw [show (obCols S : Int) - 1 - (obCols S - 1 - c) = c by ring,
    show (obRows S : Int) - 1 - (obRows S - 1 - r) = r by ring]

/-- A step of the player to move, made. -/
theorem Coherent.placed (h : Coherent T s) (hm : Steps s s.playerToMove m d) :
    Placed T s m (s.place T m) := by
  have hp := h.side
  have hv := h.viewed _ hp
  obtain ⟨hto, hkind⟩ := hm.geometry hS hp hv
  have hfromR := hm.hexagon.inRange hS
  have htoR := hto.inRange hS
  have hfrom := (hv.idAt_mem_iff hS hT hp hm.hexagon).mpr hm.own
  refine ⟨fun c r hr => ?_, hfrom, ?_, ?_, ?_, ?_⟩
  · rw [place_board hp]
    rcases hkind with ⟨hcap, -⟩ | ⟨hcap, -, -, hcapHex, -⟩
    · simp only [hcap, Bool.false_eq_true, if_false, false_and]
      rw [MaMatrix.at'_setAt _ _ htoR hr, MaMatrix.at'_setAt _ _ hfromR hr]
    · simp only [hcap, if_true, true_and]
      rw [MaMatrix.at'_setAt _ _ (hcapHex.inRange hS) hr, MaMatrix.at'_setAt _ _ htoR hr,
        MaMatrix.at'_setAt _ _ hfromR hr]
  · rw [hv.idAt_mem_iff hS hT hp hto, hm.vacant]
    exact hp.ne_vacant.symm
  · rw [place_stoneId hp]
    exact replace_perm _ hfrom
  · intro hcap
    rcases hkind with ⟨hno, -⟩ | ⟨-, -, -, hcapHex, hover⟩
    · rw [hcap] at hno
      cases hno
    · exact (h.idAt_mem_opponent_iff hS hT hp hcapHex).mpr hover
  · rw [place_stoneId_opponent hp]
    split
    · rw [(h.viewed _ hp.opponent).nodup.erase_eq_filter]
      refine List.filter_congr fun id _ => ?_
      by_cases hid : id = T.idAt s.playerToMove m.captured.c m.captured.r <;> simp [hid]
    · rfl

omit hT in
/-- A cell of the opponent, looked at from either side. -/
theorem exists_cell_opponent {t : State S} {p : Player} (hp : p.IsSide)
    (hmirror : ∀ c r, InRange (obCols S) (obRows S) c r →
      (t.board p.opponent).at' c r = (t.board p).at' (obCols S - 1 - c) (obRows S - 1 - r))
    (q : Player) (id : Int) :
    (∃ c r, Hexagon S c r ∧ (t.board p.opponent).at' c r = q ∧ T.idAt p.opponent c r = id)
      ↔ ∃ c r, Hexagon S c r ∧ (t.board p).at' c r = q ∧ T.idAt p c r = id := by
  constructor
  · intro h
    obtain ⟨c, r, hhex, hat, rfl⟩ := h
    refine ⟨_, _, (hexagon_reflect hS).mpr hhex, ?_, (idAt_opponent T hp c r).symm⟩
    rw [← hmirror c r (hhex.inRange hS), hat]
  · intro h
    obtain ⟨c, r, hhex, hat, rfl⟩ := h
    have hreflect := (hexagon_reflect hS).mpr hhex
    refine ⟨_, _, hreflect, ?_, ?_⟩
    · rw [hmirror _ _ (hreflect.inRange hS), ← hat]
      congr 1 <;> ring
    · rw [idAt_opponent T hp]
      congr 1 <;> ring

section Move

variable (h : Coherent T s) (hm : Steps s s.playerToMove m d)

include h hm

omit hT in
/-- A move writes both boards alike. -/
theorem place_mirror {c r : Int} (hr : InRange (obCols S) (obRows S) c r) :
    ((s.place T m).board s.playerToMove.opponent).at' c r
      = ((s.place T m).board s.playerToMove).at' (obCols S - 1 - c) (obRows S - 1 - r) := by
  obtain ⟨hto, hkind⟩ := hm.geometry hS h.side (h.viewed _ h.side)
  have hfromR := hm.hexagon.inRange hS
  have htoR := hto.inRange hS
  have hwrite : ∀ (b b' : Board S) (x y : Int) (v : Player),
      InRange (obCols S) (obRows S) x y →
      (∀ c r, InRange (obCols S) (obRows S) c r →
        b'.at' c r = b.at' (obCols S - 1 - c) (obRows S - 1 - r)) →
      ∀ c r, InRange (obCols S) (obRows S) c r →
        (b'.setAtR x y v).at' c r = (b.setAt x y v).at' (obCols S - 1 - c) (obRows S - 1 - r) := by
    intro b b' x y v hxy hold c r hcr
    rw [MaMatrix.setAtR_eq, MaMatrix.at'_setAt _ _ hxy.reflect hcr,
      MaMatrix.at'_setAt _ _ hxy hcr.reflect, hold c r hcr]
    congr 1
    exact propext ⟨fun ⟨h₁, h₂⟩ => ⟨by omega, by omega⟩, fun ⟨h₁, h₂⟩ => ⟨by omega, by omega⟩⟩
  have htwo := hwrite _ _ _ _ s.playerToMove htoR
    (hwrite _ _ _ _ .vacant hfromR fun c r hcr => h.board_opponent h.side hcr)
  rw [place_board h.side, place_board_opponent h.side]
  rcases hkind with ⟨hcap, -⟩ | ⟨hcap, -, -, hcapHex, -⟩
  · simp only [hcap, Bool.false_eq_true, if_false]
    exact htwo c r hr
  · simp only [hcap, if_true]
    exact hwrite _ _ _ _ .vacant (hcapHex.inRange hS) htwo c r hr

/-- The mover's side after a move. -/
theorem viewed_mover : Viewed T (s.place T m) s.playerToMove := by
  have hp := h.side
  have hv := h.viewed _ hp
  have hpl := h.placed hS hT hm
  obtain ⟨hto, hkind⟩ := hm.geometry hS hp hv
  have hlen : (s.stoneId s.playerToMove).length
      = ((s.stoneId s.playerToMove).erase (T.idAt s.playerToMove m.mFrom.c m.mFrom.r)).length + 1 :=
    (List.perm_cons_erase hpl.from_mem).length_eq
  refine ⟨fun c r hr => ?_, ?_, fun id => ?_, ?_, ?_⟩
  · rw [hpl.board c r hr]
    split_ifs with hcap hat hat'
    · obtain ⟨hcap, rfl, rfl⟩ := hcap
      rcases hkind with ⟨hno, -⟩ | ⟨-, -, -, hcapHex, -⟩
      · rw [hcap] at hno
        cases hno
      · exact iff_of_false (by decide) (not_not_intro hcapHex)
    · obtain ⟨rfl, rfl⟩ := hat
      exact iff_of_false hp.ne_invalid (not_not_intro hto)
    · obtain ⟨rfl, rfl⟩ := hat'
      exact iff_of_false (by decide) (not_not_intro hm.hexagon)
    · exact hv.shape c r hr
  · rw [hpl.own.nodup_iff, List.nodup_cons]
    exact ⟨fun hmem => hpl.to_new (List.mem_of_mem_erase hmem), hv.nodup.erase _⟩
  · rw [hpl.own.mem_iff, List.mem_cons, hv.nodup.mem_erase_iff, hv.stones]
    constructor
    · intro h'
      rcases h' with rfl | ⟨hne, c, r, hhex, hat, rfl⟩
      · refine ⟨_, _, hto, ?_, rfl⟩
        rw [hpl.board _ _ (hto.inRange hS), if_neg, if_pos ⟨rfl, rfl⟩]
        intro h'
        obtain ⟨hcap, hc, hr⟩ := h'
        rcases hkind with ⟨hno, -⟩ | ⟨-, htwo, hone, -⟩
        · rw [hcap] at hno
          cases hno
        · rw [htwo, hone] at hr
          simp only at hr
          omega
      · refine ⟨c, r, hhex, ?_, rfl⟩
        rw [hpl.board _ _ (hhex.inRange hS), if_neg, if_neg (c := c = m.mFrom.c ∧ r = m.mFrom.r)]
        · rw [hat, ite_self]
        · intro h'
          obtain ⟨rfl, rfl⟩ := h'
          exact hne rfl
        · intro h'
          obtain ⟨hcap, rfl, rfl⟩ := h'
          rcases hkind with ⟨hno, -⟩ | ⟨-, -, -, -, hover⟩
          · rw [hcap] at hno
            cases hno
          · exact hp.opponent_ne (hover.symm.trans hat)
    · intro h'
      obtain ⟨c, r, hhex, hat, rfl⟩ := h'
      rw [hpl.board _ _ (hhex.inRange hS)] at hat
      split_ifs at hat with hcap hat₁ hat₂
      · exact absurd hat.symm hp.ne_vacant
      · obtain ⟨rfl, rfl⟩ := hat₁
        exact Or.inl rfl
      · exact absurd hat.symm hp.ne_vacant
      · refine Or.inr ⟨fun heq => hat₂ ?_, c, r, hhex, hat, rfl⟩
        exact hT.idAt_inj hS hp hhex hm.hexagon heq
  · rw [hpl.own.length_eq, List.length_cons, ← hlen]
    exact hv.size
  · -- the stone was not at home before its move
    have hnot : (T.locationOf s.playerToMove
        (T.idAt s.playerToMove m.mFrom.c m.mFrom.r)).r ≠ obHomeRow S := by
      rw [hT.locationOf_idAt hS hp hm.hexagon]
      have hrow := hto.2.1
      rcases hkind with ⟨-, hone⟩ | ⟨-, htwo, -⟩
      · rw [hone] at hrow
        simp only at hrow ⊢
        omega
      · rw [htwo] at hrow
        simp only at hrow ⊢
        omega
    have hold := hv.home
    rw [(List.perm_cons_erase hpl.from_mem).countP_eq, List.countP_cons_of_neg (by simpa using hnot)]
      at hold
    rw [(place_noHome hp).1, hold, hpl.own.countP_eq, List.countP_cons,
      hT.locationOf_idAt hS hp hto]
    simp only [decide_eq_true_eq]

/-- The other side after a move. -/
theorem viewed_opponent : Viewed T (s.place T m) s.playerToMove.opponent := by
  have hp := h.side
  have hv := h.viewed _ hp
  have hq := h.viewed _ hp.opponent
  have hpl := h.placed hS hT hm
  have hmirror := fun c r hr => place_mirror hS h hm (c := c) (r := r) hr
  obtain ⟨hto, hkind⟩ := hm.geometry hS hp hv
  refine ⟨fun c r hr => ?_, ?_, fun id => ?_, ?_, ?_⟩
  · rw [hmirror c r hr, (viewed_mover hS hT h hm).shape _ _ hr.reflect, hexagon_reflect hS]
  · rw [hpl.other]
    split
    · exact hq.nodup.erase _
    · exact hq.nodup
  · -- both the old and the new cells of the other side as the mover sees them
    have hold := (hq.stones id).trans
      (exists_cell_opponent hS hp (fun c r hr => h.board_opponent hp hr) _ id)
    rw [exists_cell_opponent hS hp hmirror, hpl.other]
    have hcell : ∀ {c r : Int}, Hexagon S c r →
        (((s.place T m).board s.playerToMove).at' c r = s.playerToMove.opponent
          ↔ (s.board s.playerToMove).at' c r = s.playerToMove.opponent
            ∧ ¬ (m.isCapture = true ∧ c = m.captured.c ∧ r = m.captured.r)) := by
      intro c r hhex
      rw [hpl.board _ _ (hhex.inRange hS)]
      split_ifs with hcap hat hat'
      · exact iff_of_false hp.opponent.ne_vacant.symm fun h => h.2 hcap
      · obtain ⟨rfl, rfl⟩ := hat
        rw [hm.vacant]
        exact iff_of_false hp.opponent_ne.symm fun h => hp.opponent.ne_vacant h.1.symm
      · obtain ⟨rfl, rfl⟩ := hat'
        rw [hm.own]
        exact iff_of_false hp.opponent.ne_vacant.symm fun h => hp.opponent_ne h.1.symm
      · exact ⟨fun h => ⟨h, hcap⟩, fun h => h.1⟩
    rcases hkind with ⟨hno, -⟩ | ⟨hcap, -, -, hcapHex, -⟩
    · rw [if_neg (by rw [hno]; decide), hold]
      refine exists_congr fun c => exists_congr fun r => and_congr_right fun hhex => ?_
      rw [hcell hhex, hno]
      simp
    · rw [if_pos hcap, hq.nodup.mem_erase_iff, hold]
      constructor
      · intro h'
        obtain ⟨hne, c, r, hhex, hat, rfl⟩ := h'
        refine ⟨c, r, hhex, (hcell hhex).mpr ⟨hat, ?_⟩, rfl⟩
        intro h'
        obtain ⟨-, rfl, rfl⟩ := h'
        exact hne rfl
      · intro h'
        obtain ⟨c, r, hhex, hat, rfl⟩ := h'
        obtain ⟨hat, hnot⟩ := (hcell hhex).mp hat
        refine ⟨fun heq => hnot ⟨hcap, ?_⟩, c, r, hhex, hat, rfl⟩
        exact hT.idAt_inj hS hp hhex hcapHex heq
  · rw [hpl.other]
    split
    · exact (List.length_erase_le ..).trans hq.size
    · exact hq.size
  · rw [(place_noHome hp).2, hpl.other, hq.home]
    rcases hkind with ⟨hno, -⟩ | ⟨hcap, -, hone, hcapHex, -⟩
    · rw [if_neg (by rw [hno]; decide)]
    · -- the captured stone stood in front of the mover, not at its own home
      have hid := idAt_opponent T hp.opponent m.captured.c m.captured.r
      rw [Player.opponent_opponent] at hid
      have hnot : (T.locationOf s.playerToMove.opponent
          (T.idAt s.playerToMove m.captured.c m.captured.r)).r ≠ obHomeRow S := by
        rw [hid, hT.locationOf_idAt hS hp.opponent ((hexagon_reflect hS).mpr hcapHex), hone]
        have hrow := hm.hexagon.1
        simp only
        rw [obHomeRow_eq (by omega), obRows_eq (by omega)]
        omega
      rw [if_pos hcap, (List.perm_cons_erase (hpl.captured_mem hcap)).countP_eq,
        List.countP_cons_of_neg (by simpa using hnot)]

/-- A move keeps the two sides in step. -/
theorem Coherent.place : Coherent T (s.place T m) := by
  have hplayer : (s.place T m).playerToMove = s.playerToMove := place_rest.1
  refine ⟨hplayer ▸ h.side, ?_, fun p hp => ?_⟩
  · intro c r hr
    have hmirror := fun c r hr => place_mirror hS h hm (c := c) (r := r) hr
    rcases h.side with hp | hp
    · rw [hp] at hmirror
      exact hmirror c r hr
    · rw [hp] at hmirror
      have hback := hmirror _ _ hr.reflect
      show ((s.place T m).board .human).at' c r = ((s.place T m).board (Player.opponent .human)).at' _ _
      rw [hback]
      congr 1 <;> ring
  · rcases h.side.eq_or_eq_opponent hp with rfl | rfl
    · exact viewed_mover hS hT h hm
    · exact viewed_opponent hS hT h hm

end Move

end Step

-- =================================================== every state in play

/-- Coherence is about boards, stones, counters and the side to move. -/
theorem Coherent.congr {t : State S} (h : Coherent T s) (hside : t.playerToMove.IsSide)
    (ha : t.agentBoard = s.agentBoard) (hh : t.humanBoard = s.humanBoard)
    (has : t.agentStoneId = s.agentStoneId) (hhs : t.humanStoneId = s.humanStoneId)
    (hna : t.noHomeAgent = s.noHomeAgent) (hnh : t.noHomeHuman = s.noHomeHuman) :
    Coherent T t := by
  have hboard : ∀ p, t.board p = s.board p := fun p => by unfold State.board; rw [ha, hh]
  have hstone : ∀ p, t.stoneId p = s.stoneId p := fun p => by unfold State.stoneId; rw [has, hhs]
  have hhome : ∀ p, t.noHome p = s.noHome p := fun p => by unfold State.noHome; rw [hna, hnh]
  refine ⟨hside, by rw [ha, hh]; exact h.mirror, fun p hp => ?_⟩
  obtain ⟨h₁, h₂, h₃, h₄, h₅⟩ := h.viewed p hp
  exact ⟨by rwa [hboard], by rwa [hstone], by rwa [hstone, hboard], by rwa [hstone],
    by rwa [hstone, hhome]⟩

/-- The hashing variant of a move differs from the plain one in the hash
only. -/
theorem playHash_eq :
    s.playHash T m = { s.place T m with zobristHash := (s.playHash T m).zobristHash } := by
  unfold State.playHash State.place State.moveStoneHash State.captureStoneHash State.moveStone
    State.captureStone
  simp only
  split_ifs <;> rfl

/-- `winner ( )` sets the verdict and nothing else. -/
theorem setWinner_eq : s.setWinner T = { s with winner := (s.setWinner T).winner } := by
  unfold State.setWinner
  split_ifs <;> rfl

/-- What the three ways of moving leave: the state after `place`, up to
hash and verdict, with the other side to move. -/
theorem apply_eq (op : Game.MoveOp) : ∃ hash winner,
    (game T).apply op s m = { s.place T m with
      zobristHash := hash
      winner := winner
      playerToMove := s.playerToMove.opponent } := by
  have hplayer : (s.place T m).playerToMove = s.playerToMove := place_rest.1
  cases op with
  | moveHash =>
      refine ⟨(s.playHash T m).zobristHash, (s.place T m).winner, ?_⟩
      show (s.playHash T m).next = _
      rw [playHash_eq, State.next, hplayer]
  | moveHashWinner =>
      refine ⟨(s.playHash T m).zobristHash, ((s.playHash T m).setWinner T).winner, ?_⟩
      show ((s.playHash T m).setWinner T).next = _
      rw [setWinner_eq, playHash_eq, State.next, hplayer]
  | moveWinner =>
      refine ⟨(s.place T m).zobristHash, ((s.place T m).setWinner T).winner, ?_⟩
      show ((s.place T m).setWinner T).next = _
      rw [setWinner_eq, State.next, hplayer]

section Reachable

variable (hS : 3 ≤ S) (hT : Located T)

include hS hT

/-- A listed move keeps a state coherent, however it is made. -/
theorem Coherent.apply (h : Coherent T s) (op : Game.MoveOp) (hm : m ∈ (game T).legal s) :
    Coherent T ((game T).apply op s m) := by
  obtain ⟨-, d, hstep⟩ := (mem_legal_iff hS hT h m).mp hm
  obtain ⟨hash, winner, heq⟩ := apply_eq (T := T) (s := s) (m := m) op
  rw [heq]
  exact (h.place hS hT hstep).congr h.side.opponent rfl rfl rfl rfl rfl rfl

/-- The cells on one row of the board as an id list, and as cells. -/
private theorem mem_startRow (hl : Laid (cells S) s) {row : Nat} {p : Player}
    (hrow : ∀ r : Nat, startContent S r = p ↔ r = row) (id : Int) :
    id ∈ idsOnRow (cells S) row
      ↔ ∃ c r, Hexagon S c r ∧ s.agentBoard.at' c r = p ∧ T.idAt .agent c r = id := by
  rw [mem_idsOnRow]
  constructor
  · intro h
    obtain ⟨i, hi, hat, rfl⟩ := h
    refine ⟨(cells S)[i].1, (cells S)[i].2, (mem_cells hS).mp (List.getElem_mem hi), ?_,
      (hT i hi).1⟩
    rw [hl.inside _ (List.getElem_mem hi), hrow]
    exact hat
  · intro h
    obtain ⟨c, r, hhex, hat, rfl⟩ := h
    obtain ⟨cell, hcell, rfl, rfl⟩ := hhex.exists_cell hS
    obtain ⟨i, hi, rfl⟩ := List.mem_iff_getElem.mp hcell
    refine ⟨i, hi, ?_, (hT i hi).1⟩
    rwa [hl.inside _ hcell, hrow] at hat

omit hT in
/-- Both players start with `S` stones. -/
private theorem length_startRow :
    (idsOnRow (cells S) 1).length = S ∧ (idsOnRow (cells S) (obHomeRow S)).length = S := by
  have hlen : ∀ row, (idsOnRow (cells S) row).length
      = ((cells S).filter fun cell => cell.2 = row).length := by
    intro row
    unfold idsOnRow
    rw [List.length_map]
    have hidx := congrArg List.length (List.filter_map (f := Prod.fst)
      (p := fun cell : Nat × Nat => decide (cell.2 = row)) (l := (cells S).zipIdx))
    rw [List.zipIdx_map_fst, List.length_map] at hidx
    exact hidx.symm
  rw [hlen, hlen, filter_row hS (Nat.le_refl 1) (by rw [obHomeRow_eq (by omega)]; omega),
    filter_row hS (by rw [obHomeRow_eq (by omega)]; omega) (Nat.le_refl _),
    RowLoop.length_cells, RowLoop.length_cells, obHomeRow_eq (by omega)]
  simp only
  omega

/-- A state at the start of a game is coherent. -/
theorem Start.coherent (h : Start s) : Coherent T s := by
  have hl := h.laid
  have hhome : obHomeRow S ≠ 1 := by
    rw [obHomeRow_eq (by omega)]
    omega
  have hagent : ∀ r : Nat, startContent S r = .agent ↔ r = 1 := by
    intro r
    unfold startContent
    split_ifs <;> simp_all
  have hhuman : ∀ r : Nat, startContent S r = .human ↔ r = obHomeRow S := by
    intro r
    unfold startContent
    split_ifs with hone hlast
    · exact iff_of_false (by decide) fun heq => hhome (heq.symm.trans hone)
    · exact iff_of_true rfl hlast
    · exact iff_of_false (by decide) hlast
  have hshape : ∀ c r, InRange (obCols S) (obRows S) c r →
      (s.agentBoard.at' c r = .invalid ↔ ¬ Hexagon S c r) := by
    intro c r hr
    constructor
    · intro hinv hhex
      obtain ⟨cell, hcell, rfl, rfl⟩ := hhex.exists_cell hS
      rw [hl.inside cell hcell] at hinv
      unfold startContent at hinv
      split_ifs at hinv
    · intro hnot
      refine hl.outside c r hr fun cell hcell hat => hnot ?_
      rw [hat.1, hat.2]
      exact (mem_cells hS).mp hcell
  have hstones : ∀ id, id ∈ s.agentStoneId
      ↔ ∃ c r, Hexagon S c r ∧ s.agentBoard.at' c r = .agent ∧ T.idAt .agent c r = id := by
    intro id
    rw [hl.agent]
    exact mem_startRow hS hT hl hagent id
  have hstones' : ∀ id, id ∈ s.humanStoneId
      ↔ ∃ c r, Hexagon S c r ∧ s.humanBoard.at' c r = .human ∧ T.idAt .human c r = id := by
    intro id
    rw [hl.human, mem_startRow hS hT hl hhuman id]
    exact (exists_cell_opponent hS (t := s) (Or.inl rfl) hl.mirror .human id).symm
  obtain ⟨hlen, hlen'⟩ := length_startRow hS
  refine ⟨h.side, hl.mirror, fun p hp => ?_⟩
  rcases hp with rfl | rfl
  · refine ⟨hshape, ?_, hstones, ?_, ?_⟩
    · show s.agentStoneId.Nodup
      rw [hl.agent]
      exact nodup_idsOnRow ..
    · show s.agentStoneId.length ≤ S
      rw [hl.agent, hlen]
    · show s.noHomeAgent = _
      rw [h.noHomeAgent, eq_comm, List.countP_eq_zero]
      intro id hid
      obtain ⟨c, r, hhex, hat, rfl⟩ := (hstones id).mp hid
      rw [hT.locationOf_idAt hS (Or.inl rfl) hhex]
      obtain ⟨cell, hcell, rfl, rfl⟩ := hhex.exists_cell hS
      rw [hl.inside cell hcell, hagent] at hat
      simp only [hat, decide_eq_true_eq]
      omega
  · refine ⟨fun c r hr => ?_, ?_, hstones', ?_, ?_⟩
    · show s.humanBoard.at' c r = .invalid ↔ _
      rw [hl.mirror c r hr, hshape _ _ hr.reflect, hexagon_reflect hS]
    · show s.humanStoneId.Nodup
      rw [hl.human]
      exact nodup_idsOnRow ..
    · show s.humanStoneId.length ≤ S
      rw [hl.human, hlen']
    · show s.noHomeHuman = _
      rw [h.noHomeHuman, eq_comm, List.countP_eq_zero]
      intro id hid
      obtain ⟨c, r, hhex, hat, rfl⟩ := (hstones' id).mp hid
      rw [hT.locationOf_idAt hS (Or.inr rfl) hhex]
      obtain ⟨cell, hcell, hc, hr⟩ := ((hexagon_reflect hS).mpr hhex).exists_cell hS
      rw [hl.mirror c r (hhex.inRange hS), hc, hr, hl.inside cell hcell, hhuman] at hat
      have hrow := hhex.1
      have hrows := obRows_eq (show 2 ≤ S by omega)
      have hhomeRow := obHomeRow_eq (show 2 ≤ S by omega)
      simp only [decide_eq_true_eq]
      omega

/-- Every state of a game is coherent. -/
theorem coherent_run {ops : Game.MoveOp → Prop} {s₀ : State S} (h₀ : Coherent T s₀)
    (hrun : (game T).Run ops s₀ s) : Coherent T s :=
  hrun.invariant (I := Coherent T) h₀ fun _ op _ h _ hm => h.apply hS hT op hm

end Reachable

-- ========================================================= board indices

/-- The board indices a search by `d` uses, in order. -/
def forwardCells (b : Board S) (d c r : Int) : List (Int × Int) :=
  (c + d, r + 1) ::
    if b.at' (c + d) (r + 1) = .vacant then []
    else (c, r) ::
      if b.at' (c + d) (r + 1) = (b.at' c r).opponent then [(c + 2 * d, r + 2)] else []

/-- The board indices `leftMove` uses. -/
def leftMoveCells (b : Board S) (c r : Int) : List (Int × Int) := forwardCells b 1 c r

/-- The board indices `rightMove` uses. -/
def rightMoveCells (b : Board S) (c r : Int) : List (Int × Int) := forwardCells b (-1) c r

/-- The indices with which the move and the capture code addresses
boards, ids and keys, through `at` or `at_r`. -/
def moveCells (S : Nat) (m : Move) : List (Int × Int) :=
  [(m.mFrom.c, m.mFrom.r), (m.mTo.c, m.mTo.r)] ++
    if m.isCapture then
      [(m.captured.c, m.captured.r),
        ((obCols S - 1) - m.captured.c, (obRows S - 1) - m.captured.r)]
    else []

/-- A search looks at no other cells: boards that agree on them give the
same move. -/
theorem forward_congr {b b' : Board S} {c r : Int}
    (h : ∀ cell ∈ forwardCells b d c r, b.at' cell.1 cell.2 = b'.at' cell.1 cell.2) :
    forward b d c r = forward b' d c r := by
  have hfirst := h (c + d, r + 1) (List.mem_cons_self ..)
  simp only at hfirst
  unfold forward
  unfold forwardCells at h
  rw [← hfirst]
  by_cases hvac : b.at' (c + d) (r + 1) = .vacant
  · rw [if_pos hvac, if_pos hvac]
  · rw [if_neg hvac, if_neg hvac]
    rw [if_neg hvac] at h
    have hown := h (c, r) (List.mem_cons_of_mem _ (List.mem_cons_self ..))
    simp only at hown
    rw [← hown]
    by_cases hover : b.at' (c + d) (r + 1) = (b.at' c r).opponent
    · rw [if_pos hover] at h
      have hlast := h (c + 2 * d, r + 2) (by simp)
      simp only at hlast
      rw [← hlast]
    · rw [if_neg fun hand => hover hand.1, if_neg fun hand => hover hand.1]

section Indices

variable (hS : 3 ≤ S)

include hS

/-- A search from a stone stays on the rectangle: the cell it jumps over
is a hexagon, so there is another cell behind it. -/
theorem forwardCells_inRange {p : Player} (hp : p.IsSide) (hv : Viewed T s p) {c r : Int}
    (hd : d = 1 ∨ d = -1) (hhex : Hexagon S c r) (hown : (s.board p).at' c r = p) :
    ∀ cell ∈ forwardCells (s.board p) d c r, InRange (obCols S) (obRows S) cell.1 cell.2 := by
  obtain ⟨hc, hc', hr, hr'⟩ := hhex.inner hS
  have hfirst : InRange (obCols S) (obRows S) (c + d) (r + 1) := by
    rcases hd with rfl | rfl <;> simp only [InRange] <;> omega
  intro cell hcell
  unfold forwardCells at hcell
  split_ifs at hcell with hvac hover
  · obtain rfl := List.mem_singleton.mp hcell
    exact hfirst
  · rcases List.mem_cons.mp hcell with rfl | hcell
    · exact hfirst
    · rcases List.mem_cons.mp hcell with rfl | hcell
      · exact hhex.inRange hS
      · obtain rfl := List.mem_singleton.mp hcell
        have hjumped : Hexagon S (c + d) (r + 1) := by
          by_contra hnot
          rw [(hv.shape _ _ hfirst).mpr hnot, hown] at hover
          exact hp.opponent.ne_invalid hover.symm
        obtain ⟨hc₁, hc₁', hr₁, hr₁'⟩ := hjumped.inner hS
        rcases hd with rfl | rfl <;> simp only [InRange] <;> omega
  · rcases List.mem_cons.mp hcell with rfl | hcell
    · exact hfirst
    · obtain rfl := List.mem_singleton.mp hcell
      exact hhex.inRange hS

/-- So does a move. -/
theorem moveCells_inRange {p : Player} (hp : p.IsSide) (hv : Viewed T s p) (hm : Steps s p m d) :
    ∀ cell ∈ moveCells S m, InRange (obCols S) (obRows S) cell.1 cell.2 := by
  obtain ⟨hto, hkind⟩ := hm.geometry hS hp hv
  intro cell hcell
  rcases List.mem_append.mp hcell with hcell | hcell
  · rcases List.mem_cons.mp hcell with rfl | hcell
    · exact hm.hexagon.inRange hS
    · obtain rfl := List.mem_singleton.mp hcell
      exact hto.inRange hS
  · rcases hkind with ⟨hno, -⟩ | ⟨hcap, -, -, hcapHex, -⟩
    · rw [if_neg (by rw [hno]; decide)] at hcell
      cases hcell
    · rw [if_pos hcap] at hcell
      rcases List.mem_cons.mp hcell with rfl | hcell
      · exact hcapHex.inRange hS
      · obtain rfl := List.mem_singleton.mp hcell
        exact (hcapHex.inRange hS).reflect

variable (hT : Located T)

include hT

/-- The home counter counts cells of the home row. -/
theorem Viewed.home_eq_cells {p : Player} (hp : p.IsSide) (hv : Viewed T s p) :
    s.noHome p = ((List.range (obCols S)).filter fun c : Nat =>
      (s.board p).at' c (obHomeRow S) = p).length := by
  have hperm : (((s.stoneId p).filter fun id => (T.locationOf p id).r = obHomeRow S).map
      fun id => (T.locationOf p id).c.toNat).Perm
        ((List.range (obCols S)).filter fun c : Nat => (s.board p).at' c (obHomeRow S) = p) := by
    have hstone : ∀ id ∈ s.stoneId p, ∃ c : Nat, ∃ r : Int, T.locationOf p id = ⟨c, r⟩
        ∧ Hexagon S c r ∧ (s.board p).at' c r = p ∧ T.idAt p c r = id := by
      intro id hid
      obtain ⟨c, r, hhex, hat, rfl⟩ := (hv.stones id).mp hid
      obtain ⟨c', rfl⟩ := Int.eq_ofNat_of_zero_le (show 0 ≤ c by have := hhex.inner hS; omega)
      exact ⟨c', r, hT.locationOf_idAt hS hp hhex, hhex, hat, rfl⟩
    refine (List.perm_ext_iff_of_nodup ?_ (List.nodup_range.filter _)).mpr fun c => ?_
    · refine List.Nodup.map_on ?_ (hv.nodup.filter _)
      intro id hid id' hid' hcol
      rw [List.mem_filter, decide_eq_true_eq] at hid hid'
      obtain ⟨c, r, hloc, -, -, rfl⟩ := hstone id hid.1
      obtain ⟨c', r', hloc', -, -, rfl⟩ := hstone id' hid'.1
      rw [hloc, hloc'] at hcol
      rw [hloc] at hid
      rw [hloc'] at hid'
      simp only [Int.toNat_natCast] at hcol hid hid'
      rw [hcol, hid.2, hid'.2]
    · simp only [List.mem_map, List.mem_filter, decide_eq_true_eq, List.mem_range]
      constructor
      · intro h
        obtain ⟨id, ⟨hid, hhome⟩, rfl⟩ := h
        obtain ⟨c, r, hloc, hhex, hat, -⟩ := hstone id hid
        rw [hloc] at hhome ⊢
        simp only [Int.toNat_natCast] at hhome ⊢
        have := hhex.inner hS
        exact ⟨by omega, hhome ▸ hat⟩
      · intro h
        obtain ⟨hc, hat⟩ := h
        have hrow : obHomeRow S + 1 < obRows S := by
          rw [obHomeRow_eq (by omega), obRows_eq (by omega)]
          omega
        have hr : InRange (obCols S) (obRows S) c (obHomeRow S) := by
          unfold InRange
          omega
        have hhex : Hexagon S c (obHomeRow S) := by
          by_contra hnot
          rw [(hv.shape _ _ hr).mpr hnot] at hat
          exact hp.ne_invalid hat.symm
        refine ⟨_, ⟨(hv.stones _).mpr ⟨c, _, hhex, hat, rfl⟩, ?_⟩, ?_⟩
        · rw [hT.locationOf_idAt hS hp hhex]
        · rw [hT.locationOf_idAt hS hp hhex]
          rfl
  rw [← hperm.length_eq, List.length_map, ← List.countP_eq_length_filter, hv.home]

end Indices

/-- What the source's data structures promise about a state: the two
boards mirror each other, the cells off the board are the invalid ones,
the stone lists and home counters are those of the boards, and every
board index in use is in range. -/
structure InStep (T : Statics S) (s : State S) : Prop where
  mirror : ∀ c r, InRange (obCols S) (obRows S) c r →
    s.humanBoard.at' c r = s.agentBoard.at' (obCols S - 1 - c) (obRows S - 1 - r)
  shape : ∀ c r, InRange (obCols S) (obRows S) c r →
    (s.agentBoard.at' c r = .invalid ↔ ¬ Hexagon S c r)
  agentStones : s.agentStoneId.Nodup ∧ ∀ id, id ∈ s.agentStoneId ↔ ∃ c r,
    InRange (obCols S) (obRows S) c r ∧ s.agentBoard.at' c r = .agent
      ∧ T.locationToId.at' c r = id
  humanStones : s.humanStoneId.Nodup ∧ ∀ id, id ∈ s.humanStoneId ↔ ∃ c r,
    InRange (obCols S) (obRows S) c r ∧ s.agentBoard.at' c r = .human
      ∧ T.locationToId.at' c r = id
  homeAgent : s.noHomeAgent = ((List.range (obCols S)).filter fun c : Nat =>
    s.agentBoard.at' c (obHomeRow S) = .agent).length
  homeHuman : s.noHomeHuman = ((List.range (obCols S)).filter fun c : Nat =>
    s.humanBoard.at' c (obHomeRow S) = .human).length
  searches : ∀ p : Player, p.IsSide → ∀ id ∈ s.stoneId p,
    ∀ cell ∈ leftMoveCells (s.board p) (T.locationOf p id).c (T.locationOf p id).r
        ++ rightMoveCells (s.board p) (T.locationOf p id).c (T.locationOf p id).r,
      InRange (obCols S) (obRows S) cell.1 cell.2
  moves : ∀ m ∈ (game T).legal s, ∀ cell ∈ moveCells S m,
    InRange (obCols S) (obRows S) cell.1 cell.2

/-- Every state of a game is in step, from whatever `initialize ( )`
sets up and however the moves are made. -/
theorem state_inStep (hS : 3 ≤ S) {s₀ : State S} (hinit : Initialised T s₀)
    (hrun : (game T).Run (fun _ => True) s₀ s) : InStep T s := by
  obtain ⟨-, hT, hstart⟩ := hinit.start hS
  have h := coherent_run hS hT (hstart.coherent hS hT) hrun
  have ha := h.viewed .agent (Or.inl rfl)
  have hh := h.viewed .human (Or.inr rfl)
  -- a cell with a stone is a hexagon
  have hcell : ∀ (p : Player), p.IsSide → ∀ id,
      (∃ c r, Hexagon S c r ∧ s.agentBoard.at' c r = p ∧ T.idAt .agent c r = id)
        ↔ ∃ c r, InRange (obCols S) (obRows S) c r ∧ s.agentBoard.at' c r = p
            ∧ T.locationToId.at' c r = id := by
    intro p hp id
    refine exists_congr fun c => exists_congr fun r => ?_
    constructor
    · intro h'
      obtain ⟨hhex, hat⟩ := h'
      exact ⟨hhex.inRange hS, hat⟩
    · intro h'
      obtain ⟨hr, hat, hid⟩ := h'
      refine ⟨?_, hat, hid⟩
      by_contra hnot
      exact hp.ne_invalid (hat.symm.trans ((ha.shape c r hr).mpr hnot))
  refine ⟨h.mirror, ha.shape, ⟨ha.nodup, fun id => ?_⟩, ⟨hh.nodup, fun id => ?_⟩,
    ha.home_eq_cells hS hT (Or.inl rfl), hh.home_eq_cells hS hT (Or.inr rfl), ?_, ?_⟩
  · exact (ha.stones id).trans (hcell .agent (Or.inl rfl) id)
  · exact ((hh.stones id).trans (exists_cell_opponent hS (t := s) (Or.inl rfl) h.mirror .human
      id)).trans (hcell .human (Or.inr rfl) id)
  · intro p hp id hid cell hcells
    have hv := h.viewed p hp
    obtain ⟨c, r, hhex, hat, rfl⟩ := (hv.stones id).mp hid
    rw [hT.locationOf_idAt hS hp hhex] at hcells
    rcases List.mem_append.mp hcells with hcells | hcells
    · exact forwardCells_inRange hS hp hv (Or.inl rfl) hhex hat cell hcells
    · exact forwardCells_inRange hS hp hv (Or.inr rfl) hhex hat cell hcells
  · intro m hm
    obtain ⟨-, d, hstep⟩ := (mem_legal_iff hS hT h m).mp hm
    exact moveCells_inRange hS h.side (h.viewed _ h.side) hstep

/-- After a first move on the smallest board. -/
theorem state_inStep_three :
    InStep smallSetup.statics
      (moveHash smallSetup.statics smallSetup.state ⟨⟨1, 1⟩, ⟨2, 2⟩⟩) :=
  state_inStep (by decide) (.once (Or.inl rfl) initializeState_small)
    (.move .moveHash .start trivial (by decide +kernel :
      (⟨⟨1, 1⟩, ⟨2, 2⟩⟩ : Move) ∈ (game smallSetup.statics).legal smallSetup.state))

end MctsConnectFour.Oska
