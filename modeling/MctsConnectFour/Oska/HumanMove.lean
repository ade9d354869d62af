/-
A move entered by hand, as two ids.

`humanMove ( )` looks a pair of ids up in a table of the pairs of hexagons
that are one or two apart on a diagonal, and asks the board about the two
hexagons and the one between them. The table is symmetric, and nothing
asks whether the move is a forward one. So a stone of the human can be
entered with a vacant hexagon behind it, and without a stone between them
even two rows behind (`Backward`); everything else is decided as
`moves ( )` lists it (`humanMove_exact_iff`).
-/
import MctsConnectFour.Oska.Coherence

namespace MctsConnectFour.Oska

open MaMatrix (InRange)

variable {S : Nat}

-- ========================================================== the program

/-- `other ( )`. -/
def other (S : Nat) (l : Location) : Location := ⟨obCols S - 1 - l.c, obRows S - 1 - l.r⟩

/-- The value `buildMoveValidator ( )` gives the entry `( c, r )`. -/
def validatorEntry (T : Statics S) (c r : Int) : Bool :=
  if r = c then false
  else
    let a := T.idToLocation.at' r
    let b := T.idToLocation.at' c
    if (a.r - b.r).natAbs > 2 ∨ (a.c - b.c).natAbs > 2 ∨ (a.r - b.r).natAbs ≠ (a.c - b.c).natAbs
    then false
    else true

/-- `buildMoveValidator ( )`. -/
def buildMoveValidator (T : Statics S) : MaMatrix Bool (noHexagons S) (noHexagons S) :=
  (List.range (noHexagons S)).foldl (fun validator (r : Nat) =>
    (List.range (noHexagons S)).foldl (fun validator (c : Nat) =>
      validator.setAt c r (validatorEntry T c r)) validator) (.fill default)

/-- `humanMove ( )`. -/
def humanMove (T : Statics S) (s : State S) (f t : Int) : Move :=
  if f = t then Move.none
  else if f < 0 ∨ f > noHexagons S - 1 ∨ t < 0 ∨ t > noHexagons S - 1
      ∨ ¬ (buildMoveValidator T).at' f t then
    Move.invalid
  else
    let move : Move := ⟨other S (T.idToLocation.at' f), other S (T.idToLocation.at' t)⟩
    if s.humanBoard.at' move.mFrom.c move.mFrom.r ≠ .human
        ∨ s.humanBoard.at' move.mTo.c move.mTo.r ≠ .vacant
        ∨ (move.mTo.r - move.mFrom.r = 2
          ∧ s.humanBoard.at' ((move.mFrom.c + move.mTo.c).tdiv 2)
            ((move.mFrom.r + move.mTo.r).tdiv 2) ≠ .agent) then
      Move.invalid
    else move

-- ================================================================= ids

/-- An id of a hexagon. -/
def IsId (S : Nat) (i : Int) : Prop := 0 ≤ i ∧ i < noHexagons S

/-- The move from one hexagon to another, in the perspective of the
human. -/
def hexagonMove (T : Statics S) (f t : Int) : Move :=
  ⟨T.locationOf .human f, T.locationOf .human t⟩

section Ids

variable {T : Statics S} (hS : 3 ≤ S) (hT : Located T)

include hS hT

/-- An id is the position of a cell. -/
theorem Located.exists_position {i : Int} (hi : IsId S i) :
    ∃ (k : Nat) (hk : k < (cells S).length), i = k
      ∧ T.idToLocation.at' i = ⟨(cells S)[k].1, (cells S)[k].2⟩
      ∧ T.locationToId.at' (cells S)[k].1 (cells S)[k].2 = i := by
  have hlen := length_cells hS
  obtain ⟨k, rfl⟩ := Int.eq_ofNat_of_zero_le hi.1
  have hk : k < (cells S).length := by
    have := hi.2
    omega
  obtain ⟨hid, hloc⟩ := hT k hk
  exact ⟨k, hk, rfl, hloc, hid⟩

/-- An id is that of a hexagon; the human sees it reflected. -/
theorem Located.of_isId {i : Int} (hi : IsId S i) :
    Hexagon S (T.locationOf .human i).c (T.locationOf .human i).r
      ∧ T.idAt .human (T.locationOf .human i).c (T.locationOf .human i).r = i
      ∧ other S (T.idToLocation.at' i) = T.locationOf .human i := by
  obtain ⟨k, hk, rfl, hloc, hid⟩ := hT.exists_position hS hi
  have hhex : Hexagon S (cells S)[k].1 (cells S)[k].2 := (mem_cells hS).mp (List.getElem_mem hk)
  have hreflect : T.locationOf .human k
      = ⟨obCols S - 1 - (cells S)[k].1, obRows S - 1 - (cells S)[k].2⟩ := by
    show T.idToLocation.atR k = _
    rw [MaVector.atR_eq, (hT.reflect hS hk).2]
  rw [hreflect]
  refine ⟨(hexagon_reflect hS).mpr hhex, ?_, ?_⟩
  · show T.locationToId.atR _ _ = _
    rw [MaMatrix.atR_eq, sub_sub_cancel, sub_sub_cancel, hid]
  · show other S (T.idToLocation.at' k) = _
    rw [hloc]
    rfl

/-- Different ids are those of different hexagons. -/
theorem Located.locationOf_ne {f t : Int} (hf : IsId S f) (ht : IsId S t) (hne : f ≠ t) :
    T.locationOf .human f ≠ T.locationOf .human t := by
  intro heq
  have hid := (hT.of_isId hS hf).2.1
  rw [heq, (hT.of_isId hS ht).2.1] at hid
  exact hne hid.symm

omit hT hS in
/-- The table has the entries the loops give it. -/
theorem buildMoveValidator_at' {c r : Int} (hc : IsId S c) (hr : IsId S r) :
    (buildMoveValidator T).at' c r = validatorEntry T c r := by
  have hrange : InRange (noHexagons S) (noHexagons S) c r := ⟨hc.1, hc.2, hr.1, hr.2⟩
  have hloop : buildMoveValidator T
      = ((List.range (noHexagons S)).flatMap fun r : Nat =>
          (List.range (noHexagons S)).map fun c : Nat => ((c : Int), (r : Int))).foldl
        (fun m x => m.setAt x.1 x.2 (validatorEntry T x.1 x.2)) (.fill default) := by
    unfold buildMoveValidator
    rw [List.foldl_flatMap]
    simp only [List.foldl_map]
  rw [hloop, MaMatrix.at'_foldl_setAt (validatorEntry T) hrange, if_pos]
  · obtain ⟨a, rfl⟩ := Int.eq_ofNat_of_zero_le hc.1
    obtain ⟨b, rfl⟩ := Int.eq_ofNat_of_zero_le hr.1
    have ha := hc.2
    have hb := hr.2
    exact List.mem_flatMap.mpr ⟨b, List.mem_range.mpr (by omega),
      List.mem_map.mpr ⟨a, List.mem_range.mpr (by omega), rfl⟩⟩
  · intro x hx
    obtain ⟨b, hb, hx⟩ := List.mem_flatMap.mp hx
    obtain ⟨a, ha, rfl⟩ := List.mem_map.mp hx
    have ha := List.mem_range.mp ha
    have hb := List.mem_range.mp hb
    exact ⟨Int.natCast_nonneg _, by simpa using ha, Int.natCast_nonneg _, by simpa using hb⟩

end Ids

-- ============================================================ accepted

/-- One or two hexagons apart on a diagonal. -/
def Diagonal (m : Move) : Prop :=
  (m.mTo.r - m.mFrom.r).natAbs ≤ 2 ∧ (m.mTo.c - m.mFrom.c).natAbs ≤ 2
    ∧ (m.mTo.r - m.mFrom.r).natAbs = (m.mTo.c - m.mFrom.c).natAbs

/-- What is asked of the board: a stone of the human goes to a vacant
hexagon, over one of the agent if it goes forward two rows. -/
structure BoardAllows (s : State S) (m : Move) : Prop where
  own : s.humanBoard.at' m.mFrom.c m.mFrom.r = .human
  vacant : s.humanBoard.at' m.mTo.c m.mTo.r = .vacant
  jumped : m.mTo.r - m.mFrom.r = 2 →
    s.humanBoard.at' ((m.mFrom.c + m.mTo.c).tdiv 2) ((m.mFrom.r + m.mTo.r).tdiv 2) = .agent

/-- The id pairs accepted although no listed move has them: a stone of
the human and a vacant hexagon one or two rows behind it. -/
structure Backward (T : Statics S) (s : State S) (f t : Int) : Prop where
  ids : IsId S f ∧ IsId S t
  own : s.humanBoard.at' (hexagonMove T f t).mFrom.c (hexagonMove T f t).mFrom.r = .human
  vacant : s.humanBoard.at' (hexagonMove T f t).mTo.c (hexagonMove T f t).mTo.r = .vacant
  behind : (hexagonMove T f t).mTo.r < (hexagonMove T f t).mFrom.r
  diagonal : Diagonal (hexagonMove T f t)

/-- `humanMove ( )` accepts the pair if and only if it is that of a listed
move, and returns the move. -/
structure Exact (T : Statics S) (s : State S) (f t : Int) : Prop where
  accepts : humanMove T s f t ≠ Move.invalid
    ↔ IsId S f ∧ IsId S t ∧ hexagonMove T f t ∈ (game T).legal s
  returns : humanMove T s f t ≠ Move.invalid → humanMove T s f t = hexagonMove T f t

section Accepted

variable {T : Statics S} {s : State S} {f t : Int}

/-- Pairs that are not ids are not accepted. -/
theorem humanMove_of_not_isId (hne : f ≠ t) (h : ¬ (IsId S f ∧ IsId S t)) :
    humanMove T s f t = Move.invalid := by
  unfold humanMove
  rw [if_neg hne, if_pos]
  unfold IsId at h
  by_contra hall
  simp only [not_or] at hall
  exact h ⟨⟨by omega, by omega⟩, by omega, by omega⟩

variable (hS : 3 ≤ S) (hT : Located T) (hf : IsId S f) (ht : IsId S t) (hne : f ≠ t)

include hS hT hf ht

/-- The table knows the diagonals. -/
theorem validatorEntry_iff (hne : f ≠ t) :
    validatorEntry T f t = true ↔ Diagonal (hexagonMove T f t) := by
  have hfrom := (hT.of_isId hS hf).2.2
  have hto := (hT.of_isId hS ht).2.2
  have hdc : (T.idToLocation.at' t).c - (T.idToLocation.at' f).c
      = -((hexagonMove T f t).mTo.c - (hexagonMove T f t).mFrom.c) := by
    unfold hexagonMove
    rw [← hfrom, ← hto]
    simp only [other]
    ring
  have hdr : (T.idToLocation.at' t).r - (T.idToLocation.at' f).r
      = -((hexagonMove T f t).mTo.r - (hexagonMove T f t).mFrom.r) := by
    unfold hexagonMove
    rw [← hfrom, ← hto]
    simp only [other]
    ring
  unfold validatorEntry Diagonal
  rw [if_neg hne.symm]
  simp only [hdc, hdr, Int.natAbs_neg]
  split
  · next h => exact iff_of_false (by decide) (by omega)
  · next h => exact iff_of_true rfl (by omega)

/-- What is returned for two ids. -/
theorem humanMove_ne_invalid_iff (hne : f ≠ t) :
    (humanMove T s f t ≠ Move.invalid
      ↔ Diagonal (hexagonMove T f t) ∧ BoardAllows s (hexagonMove T f t))
      ∧ (humanMove T s f t ≠ Move.invalid → humanMove T s f t = hexagonMove T f t) := by
  obtain ⟨hhex, -, hfrom⟩ := hT.of_isId hS hf
  have hto := (hT.of_isId hS ht).2.2
  -- a hexagon is not on row zero, where the invalid move starts
  have hvalid : hexagonMove T f t ≠ Move.invalid := by
    intro heq
    have hrow : (T.locationOf .human f).r = 0 := congrArg (fun m : Move => m.mFrom.r) heq
    have := hhex.1
    omega
  have hmove : (⟨other S (T.idToLocation.at' f), other S (T.idToLocation.at' t)⟩ : Move)
      = hexagonMove T f t := by
    rw [hfrom, hto]
    rfl
  unfold humanMove
  rw [if_neg hne, hmove]
  by_cases hentry : validatorEntry T f t = true
  · have hin : ¬ (f < 0 ∨ f > noHexagons S - 1 ∨ t < 0 ∨ t > noHexagons S - 1
        ∨ ¬ (buildMoveValidator T).at' f t = true) := by
      rw [buildMoveValidator_at' hf ht, hentry]
      have := hf.1
      have := hf.2
      have := ht.1
      have := ht.2
      simp only [not_true_eq_false, or_false]
      omega
    have hdiagonal := (validatorEntry_iff hS hT hf ht hne).mp hentry
    rw [if_neg hin]
    simp only
    split
    · next hnot =>
        refine ⟨iff_of_false (fun h => h rfl) ?_, fun h => absurd rfl h⟩
        intro h'
        obtain ⟨-, hboard⟩ := h'
        rcases hnot with hown | hvac | ⟨htwo, hover⟩
        · exact hown hboard.own
        · exact hvac hboard.vacant
        · exact hover (hboard.jumped htwo)
    · next hall =>
        simp only [not_or, not_and, not_not] at hall
        exact ⟨iff_of_true hvalid ⟨hdiagonal, hall.1, hall.2.1, hall.2.2⟩, fun _ => rfl⟩
  · have hout : f < 0 ∨ f > noHexagons S - 1 ∨ t < 0 ∨ t > noHexagons S - 1
        ∨ ¬ (buildMoveValidator T).at' f t = true := by
      rw [buildMoveValidator_at' hf ht]
      exact Or.inr (Or.inr (Or.inr (Or.inr hentry)))
    rw [if_pos hout]
    refine ⟨iff_of_false (fun h => h rfl) ?_, fun h => absurd rfl h⟩
    exact fun h => hentry ((validatorEntry_iff hS hT hf ht hne).mpr h.1)

end Accepted

-- ============================================================== listed

/-- The coordinate between two that are two apart. -/
theorem between_tdiv (x d : Int) : (x + (x + 2 * d)).tdiv 2 = x + d := by
  rw [show x + (x + 2 * d) = 2 * (x + d) by ring]
  exact Int.mul_tdiv_cancel_left _ (by decide)

/-- The steps of the human are the forward moves the board allows. -/
theorem exists_steps_iff {s : State S} {m : Move} (hhex : Hexagon S m.mFrom.c m.mFrom.r) :
    (∃ d, Steps s .human m d) ↔ m.mFrom.r < m.mTo.r ∧ Diagonal m ∧ BoardAllows s m := by
  obtain ⟨⟨c, r⟩, l⟩ := m
  constructor
  · intro h
    obtain ⟨d, hside, -, hown, hvac, hkind⟩ := h
    simp only at hkind
    rcases hkind with rfl | ⟨rfl, hover⟩
    · refine ⟨by simp only; omega, ?_, hown, hvac, fun htwo => ?_⟩
      · unfold Diagonal
        simp only
        omega
      · simp only at htwo
        omega
    · refine ⟨by simp only; omega, ?_, hown, hvac, fun _ => ?_⟩
      · unfold Diagonal
        simp only
        omega
      · have hrow := between_tdiv r 1
        rw [mul_one] at hrow
        simp only
        rw [between_tdiv, hrow]
        exact hover
  · intro h
    obtain ⟨hforward, ⟨hrow, -, heq⟩, hboard⟩ := h
    obtain ⟨c', r'⟩ := l
    simp only at hforward hrow heq
    have hover := hboard.jumped
    simp only at hover
    rcases (by omega : r' = r + 1 ∨ r' = r + 2) with rfl | rfl
    · refine ⟨c' - c, by omega, hhex, hboard.own, hboard.vacant, Or.inl ?_⟩
      simp only [add_sub_cancel]
    · obtain ⟨d, hd, rfl⟩ : ∃ d, (d = 1 ∨ d = -1) ∧ c' = c + 2 * d := by
        rcases (by omega : c' = c + 2 ∨ c' = c - 2) with rfl | rfl
        · exact ⟨1, Or.inl rfl, rfl⟩
        · exact ⟨-1, Or.inr rfl, rfl⟩
      have hrow := between_tdiv r 1
      rw [mul_one] at hrow
      rw [between_tdiv, hrow] at hover
      exact ⟨d, hd, hhex, hboard.own, hboard.vacant, Or.inr ⟨rfl, hover (by omega)⟩⟩

/-- In every state of a game that has not ended and in which it is the
turn of the human, and for every two different ids, `humanMove ( )` does
what the listed moves say, except on the backward pairs. -/
theorem humanMove_exact_iff (hS : 3 ≤ S) {T : Statics S} {s₀ s : State S}
    (hinit : Initialised T s₀) (hrun : (game T).Run (fun _ => True) s₀ s) (hopen : s.ended = none)
    (hturn : s.playerToMove = .human) {f t : Int} (hne : f ≠ t) :
    Exact T s f t ↔ ¬ Backward T s f t := by
  obtain ⟨-, hT, hstart⟩ := hinit.start hS
  have hc : Coherent T s := coherent_run hS hT (hstart.coherent hS hT) hrun
  have hfree : s.winner.occupied = false := by
    unfold State.ended at hopen
    split at hopen
    · next hw => rw [hw]; rfl
    · cases hopen
  by_cases hids : IsId S f ∧ IsId S t
  · obtain ⟨hf, ht⟩ := hids
    obtain ⟨hhex, -, -⟩ := hT.of_isId hS hf
    obtain ⟨haccept, hreturn⟩ := humanMove_ne_invalid_iff (s := s) hS hT hf ht hne
    have hlegal : hexagonMove T f t ∈ (game T).legal s
        ↔ (hexagonMove T f t).mFrom.r < (hexagonMove T f t).mTo.r
          ∧ Diagonal (hexagonMove T f t) ∧ BoardAllows s (hexagonMove T f t) := by
      rw [mem_legal_iff hS hT hc, hturn, exists_steps_iff hhex]
      exact and_iff_right hfree
    constructor
    · intro h' hback
      obtain ⟨hexact, -⟩ := h'
      have hallows : BoardAllows s (hexagonMove T f t) := by
        refine ⟨hback.own, hback.vacant, fun htwo => ?_⟩
        have := hback.behind
        omega
      have hlisted := (hexact.mp (haccept.mpr ⟨hback.diagonal, hallows⟩)).2.2
      have hforward := (hlegal.mp hlisted).1
      have := hback.behind
      omega
    · intro hnot
      refine ⟨haccept.trans ?_, hreturn⟩
      rw [hlegal, and_iff_right hf, and_iff_right ht]
      constructor
      · intro h'
        obtain ⟨hdiagonal, hboard⟩ := h'
        refine ⟨?_, hdiagonal, hboard⟩
        -- the rows are not the same, or the hexagons were
        by_contra hle
        rcases lt_or_eq_of_le (not_lt.mp hle) with hlt | heq
        · exact hnot ⟨⟨hf, ht⟩, hboard.own, hboard.vacant, hlt, hdiagonal⟩
        · have hcol := hdiagonal.2.2
          rw [heq, sub_self] at hcol
          refine hT.locationOf_ne hS hf ht hne ?_
          have hsame : (hexagonMove T f t).mTo.c = (hexagonMove T f t).mFrom.c := by
            simp only [Int.natAbs_zero] at hcol
            omega
          exact congrArg₂ Location.mk hsame.symm heq.symm
      · exact fun h => h.2
  · have hinvalid := humanMove_of_not_isId (T := T) (s := s) hne hids
    refine iff_of_true ⟨iff_of_false (fun h => h hinvalid) fun h => hids ⟨h.1, h.2.1⟩,
      fun h => absurd hinvalid h⟩ fun hback => hids hback.ids

/-- After a first move on the smallest board. -/
theorem humanMove_exact_iff_three :
    let s := moveHashWinner smallSetup.statics smallSetup.state ⟨⟨1, 1⟩, ⟨2, 2⟩⟩
    Exact smallSetup.statics s 6 4 ↔ ¬ Backward smallSetup.statics s 6 4 :=
  humanMove_exact_iff (by decide) (.once (Or.inl rfl) initializeState_small)
    (.move .moveHashWinner .start trivial (by decide +kernel :
      (⟨⟨1, 1⟩, ⟨2, 2⟩⟩ : Move) ∈ (game smallSetup.statics).legal smallSetup.state))
    (by decide +kernel) (by decide +kernel) (by decide)

/-- The moves of a game after which a stone of the human can be entered
two rows back. -/
def beforeBackward : List Move := [⟨⟨1, 1⟩, ⟨2, 2⟩⟩, ⟨⟨3, 1⟩, ⟨5, 3⟩⟩, ⟨⟨3, 1⟩, ⟨4, 2⟩⟩]

/-- The stone on the hexagon 0 goes back to the hexagon 6. -/
theorem humanMove_not_exact :
    let T := smallSetup.statics
    let s := (game T).play smallSetup.state beforeBackward
    Initialised T smallSetup.state ∧ (game T).LegalLine smallSetup.state beforeBackward
      ∧ s.ended = none ∧ s.playerToMove = .human
      ∧ humanMove T s 0 6 = ⟨⟨5, 3⟩, ⟨3, 1⟩⟩ ∧ ¬ Exact T s 0 6 := by
  intro T s
  have hmove : humanMove T s 0 6 = ⟨⟨5, 3⟩, ⟨3, 1⟩⟩ ∧ hexagonMove T 0 6 ∉ (game T).legal s := by
    decide +kernel
  refine ⟨.once (Or.inl rfl) initializeState_small, by decide +kernel, by decide +kernel,
    by decide +kernel, hmove.1, fun h => hmove.2 (h.accepts.mp ?_).2.2⟩
  rw [hmove.1]
  decide

end MctsConnectFour.Oska
