/-
Games of Oska that nobody wins.

The switch of `wmain ( )` over the winner has cases for the agent and the
human and aborts on anything else. `winner ( )` hands out `vacant` when
both players are home with the same number of stones. In a game this
takes one kind of move, `TieCapture`: the mover brings its last stone
home by a jump over the last stone the other side had to bring home.
Nobody was home before, or the game would have been over.
-/
import MctsConnectFour.Laws
import MctsConnectFour.Oska.Verdict

namespace MctsConnectFour.Oska

variable {S : Nat} {T : Statics S} {s s₀ : State S} {m : Move}

/-- A capture that brings both players home, with the same number of
stones. -/
structure TieCapture (s : State S) (m : Move) : Prop where
  capture : m.isCapture = true
  home : m.mTo.r = obHomeRow S
  own : s.noHome s.playerToMove + 1 = (s.stoneId s.playerToMove).length
  other : s.noHome s.playerToMove.opponent + 1 = (s.stoneId s.playerToMove.opponent).length
  even : s.noHome s.playerToMove + 1 = s.noHome s.playerToMove.opponent

/-- `playerMostHomeStones ( )` is nobody when the counters are equal. -/
theorem playerMostHomeStones_eq_vacant_iff (hp : s.playerToMove.IsSide) :
    s.playerMostHomeStones = .vacant
      ↔ s.noHome s.playerToMove = s.noHome s.playerToMove.opponent := by
  have hcount : s.playerMostHomeStones = .vacant ↔ s.noHomeAgent = s.noHomeHuman := by
    unfold State.playerMostHomeStones
    split_ifs
    · exact iff_of_false (by decide) (by omega)
    · exact iff_of_false (by decide) (by omega)
    · exact iff_of_true rfl (by omega)
  rw [hcount]
  rcases hp with hp | hp
  · rw [hp]
    exact Iff.rfl
  · rw [hp]
    exact eq_comm

/-- When `winner ( )` hands out `vacant`. -/
theorem setWinner_eq_vacant_iff (hp : s.playerToMove.IsSide) (hopen : s.winner = .invalid) :
    (s.setWinner T).winner = .vacant
      ↔ s.haveRemainingHome s.playerToMove = true
        ∧ s.haveRemainingHome s.playerToMove.opponent = true
        ∧ s.noHome s.playerToMove = s.noHome s.playerToMove.opponent := by
  rw [← playerMostHomeStones_eq_vacant_iff hp]
  unfold State.setWinner
  by_cases hown : s.haveRemainingHome s.playerToMove = true
  · rw [if_pos hown]
    by_cases hother : s.haveRemainingHome s.playerToMove.opponent = true
    · simp only [hown, hother, if_true, true_and]
    · simp only [hother]
      exact iff_of_false hp.ne_vacant fun h => by cases h.2.1
  · rw [if_neg hown]
    refine iff_of_false ?_ fun h => hown h.1
    split_ifs
    · exact hp.ne_vacant
    · exact hp.opponent.ne_vacant
    · rw [hopen]
      decide

section Tie

variable (hS : 3 ≤ S) (hT : Located T)

include hS hT

/-- A listed move ends a game without a winner exactly when it is a tie
capture. -/
theorem Judged.winner_eq_vacant_iff (h : Coherent T s) (hj : Judged s)
    (hm : m ∈ (game T).legal s) :
    (moveHashWinner T s m).winner = .vacant ↔ TieCapture s m := by
  have hp := h.side
  obtain ⟨hopen, d, hstep⟩ := hj.winner_of_legal hS hT h hm
  have hpl := h.placed hS hT hstep
  obtain ⟨hhome, hhome'⟩ := place_noHome (T := T) (m := m) hp
  -- the mover has a stone on its way, and so has the other side
  have haway : ¬ (s.noHome s.playerToMove ≠ 0
      ∧ s.noHome s.playerToMove = (s.stoneId s.playerToMove).length) := by
    intro hall
    have hv := h.viewed _ hp
    have hallHome := (haveRemainingHome_iff hS hT hp hv).mp
      ((haveRemainingHome_iff_noHome hp).mpr hall)
    exact hallHome.not_canMove hS hp hv ⟨m, d, hstep⟩
  have haway' : ¬ (s.noHome s.playerToMove.opponent ≠ 0
      ∧ s.noHome s.playerToMove.opponent = (s.stoneId s.playerToMove.opponent).length) := by
    intro hall
    have hallHome := (haveRemainingHome_iff hS hT hp.opponent (h.viewed _ hp.opponent)).mp
      ((haveRemainingHome_iff_noHome hp.opponent).mpr hall)
    exact hj.verdict.mpr (Or.inl hallHome) hopen
  -- what the move does to the numbers of stones
  have hown : ((s.place T m).stoneId s.playerToMove).length
      = (s.stoneId s.playerToMove).length := by
    rw [hpl.own.length_eq, (List.perm_cons_erase hpl.from_mem).length_eq, List.length_cons,
      List.length_cons]
  have hother : ((s.place T m).stoneId s.playerToMove.opponent).length
      + (if m.isCapture then 1 else 0) = (s.stoneId s.playerToMove.opponent).length := by
    rw [hpl.other]
    split
    · next hcap => rw [(List.perm_cons_erase (hpl.captured_mem hcap)).length_eq, List.length_cons]
    · rfl
  have hjudge : (moveHashWinner T s m).winner = ((s.playHash T m).setWinner T).winner := rfl
  have hplayer : (s.playHash T m).playerToMove = s.playerToMove := by
    rw [playHash_eq]
    exact place_rest.1
  have hwinner : (s.playHash T m).winner = .invalid := by
    rw [playHash_eq]
    exact place_rest.2.1.trans hopen
  have hnoHome : ∀ q, (s.playHash T m).noHome q = (s.place T m).noHome q := by
    intro q
    rw [playHash_eq]
    rfl
  have hstoneId : ∀ q, (s.playHash T m).stoneId q = (s.place T m).stoneId q := by
    intro q
    rw [playHash_eq]
    rfl
  rw [hjudge, setWinner_eq_vacant_iff (hplayer ▸ hp) hwinner, hplayer,
    haveRemainingHome_iff_noHome hp, haveRemainingHome_iff_noHome hp.opponent, hnoHome, hnoHome,
    hstoneId, hstoneId, hhome, hhome', hown]
  constructor
  · intro h'
    obtain ⟨⟨-, hall⟩, ⟨hpos, hall'⟩, heven⟩ := h'
    have hto : m.mTo.r = obHomeRow S := by
      by_contra hne
      rw [if_neg hne] at hall heven
      exact haway ⟨by omega, by omega⟩
    have hcap : m.isCapture = true := by
      by_contra hne
      rw [if_neg hne] at hother
      exact haway' ⟨by omega, by omega⟩
    rw [if_pos hto] at hall heven
    rw [if_pos hcap] at hother
    exact ⟨hcap, hto, by omega, by omega, by omega⟩
  · intro ht
    rw [if_pos ht.capture] at hother
    have hlen := ht.own
    have hlen' := ht.other
    have heven := ht.even
    rw [if_pos ht.home]
    exact ⟨⟨by omega, by omega⟩, ⟨by omega, by omega⟩, by omega⟩

end Tie

-- ================================================================ runs

/-- Every move of the list is listed in the state in which
`move_hash_winner ( )` makes it. -/
def ListedRun (T : Statics S) (s₀ : State S) (ms : List Move) : Prop :=
  ∀ pre m, pre ++ [m] <+: ms → m ∈ (game T).legal ((game T).play s₀ pre)

theorem ListedRun.played {ms : List Move} (h : ListedRun T s₀ ms) {pre : List Move}
    (hpre : pre <+: ms) : (game T).Played s₀ ((game T).play s₀ pre) := by
  induction pre using List.reverseRecOn with
  | nil => exact .start
  | append_singleton pre m ih =>
      rw [Game.play_concat]
      exact (ih ((List.prefix_append pre [m]).trans hpre)).moveHashWinner (h pre m hpre)

theorem listedRun_of_legalLine {ms : List Move} (h : (game T).LegalLine s₀ ms) :
    ListedRun T s₀ ms := by
  intro pre m hpre
  obtain ⟨rest, rfl⟩ := hpre
  rw [List.append_assoc, Game.legalLine_append] at h
  exact h.2.2.1

/-- In every run of `move_hash_winner ( )` from the start, the verdict of
every state that has one is the agent or the human exactly when no move of
the run is a tie capture. -/
theorem verdict_isSide_iff (hS : 3 ≤ S) (hinit : Initialised T s₀) {ms : List Move}
    (h : ListedRun T s₀ ms) :
    (∀ pre, pre <+: ms → ∀ w, ((game T).play s₀ pre).ended = some w → w = .agent ∨ w = .human)
      ↔ ∀ pre m, pre ++ [m] <+: ms → ¬ TieCapture ((game T).play s₀ pre) m := by
  obtain ⟨-, hT, hstart⟩ := hinit.start hS
  have hstep : ∀ {pre : List Move} {m : Move}, pre ++ [m] <+: ms →
      (((game T).play s₀ (pre ++ [m])).winner = .vacant
        ↔ TieCapture ((game T).play s₀ pre) m) := by
    intro pre m hpre
    obtain ⟨hc, hj⟩ := judged_run hS hT (hstart.coherent hS hT) (hstart.judged hS)
      (h.played ((List.prefix_append pre [m]).trans hpre)).judged
    rw [Game.play_concat]
    exact hj.winner_eq_vacant_iff hS hT hc (h pre m hpre)
  constructor
  · intro hall pre m hpre htie
    have hvacant := (hstep hpre).mpr htie
    have hended : ((game T).play s₀ (pre ++ [m])).ended = some .vacant := by
      unfold State.ended
      rw [hvacant, if_neg (by decide)]
    rcases hall _ hpre _ hended with hw | hw <;> cases hw
  · intro hnone pre hpre w hended
    have hw : ((game T).play s₀ pre).winner = w ∧ w ≠ .invalid := by
      unfold State.ended at hended
      split at hended
      · cases hended
      · next hne =>
          obtain rfl := Option.some.inj hended
          exact ⟨rfl, hne⟩
    obtain ⟨hw, hne⟩ := hw
    have hnot : w ≠ .vacant := by
      intro h'
      obtain rfl := h'
      rcases List.eq_nil_or_concat' pre with rfl | ⟨init, m, rfl⟩
      · rw [Game.play_nil, hstart.winner] at hw
        cases hw
      · exact hnone init m hpre ((hstep hpre).mp hw)
    revert hne hnot
    cases w <;> decide

/-- A first move on the smallest board. -/
theorem verdict_isSide_iff_three :
    let T := smallSetup.statics
    let s₀ := smallSetup.state
    let ms : List Move := [⟨⟨1, 1⟩, ⟨2, 2⟩⟩]
    (∀ pre, pre <+: ms → ∀ w, ((game T).play s₀ pre).ended = some w → w = .agent ∨ w = .human)
      ↔ ∀ pre m, pre ++ [m] <+: ms → ¬ TieCapture ((game T).play s₀ pre) m := by
  intro T s₀ ms
  have hline : (game smallSetup.statics).LegalLine smallSetup.state [⟨⟨1, 1⟩, ⟨2, 2⟩⟩] := by
    decide +kernel
  exact verdict_isSide_iff (by decide) (.once (Or.inl rfl) initializeState_small)
    (listedRun_of_legalLine hline)

/-- Tables of size four, nothing filled in. -/
def fourStatics : Statics 4 where
  locationToId := .fill 0
  idToLocation := ⟨Vector.replicate _ default⟩
  zobrist := ⟨⟨Vector.replicate _ 0⟩, Vector.replicate 3 0⟩

/-- The board of size four set up, the agent to move and every key
zero. -/
def fourSetup : Setup 4 :=
  (initializeState fourStatics (new fourStatics .agent) fun _ => 0).get rfl

theorem initializeState_four :
    initializeState fourStatics (new fourStatics .agent) (fun _ => 0) = some fourSetup :=
  (Option.some_get _).symm

/-- A game in which the last move is a tie capture. -/
def tiedGame : List Move :=
  [⟨⟨5, 1⟩, ⟨6, 2⟩⟩, ⟨⟨5, 1⟩, ⟨6, 2⟩⟩, ⟨⟨3, 1⟩, ⟨2, 2⟩⟩, ⟨⟨3, 1⟩, ⟨2, 2⟩⟩, ⟨⟨2, 2⟩, ⟨3, 3⟩⟩,
    ⟨⟨6, 2⟩, ⟨4, 4⟩⟩, ⟨⟨1, 1⟩, ⟨2, 2⟩⟩, ⟨⟨2, 2⟩, ⟨3, 3⟩⟩, ⟨⟨6, 2⟩, ⟨4, 4⟩⟩, ⟨⟨4, 4⟩, ⟨5, 5⟩⟩,
    ⟨⟨4, 4⟩, ⟨5, 5⟩⟩, ⟨⟨7, 1⟩, ⟨6, 2⟩⟩, ⟨⟨7, 1⟩, ⟨6, 2⟩⟩, ⟨⟨1, 1⟩, ⟨2, 2⟩⟩, ⟨⟨2, 2⟩, ⟨3, 3⟩⟩,
    ⟨⟨6, 2⟩, ⟨4, 4⟩⟩, ⟨⟨6, 2⟩, ⟨5, 3⟩⟩, ⟨⟨4, 4⟩, ⟨3, 5⟩⟩, ⟨⟨5, 3⟩, ⟨7, 5⟩⟩]

/-- It is a run from the start, and ends with a verdict that is neither
the agent nor the human. -/
theorem tiedGame_ended :
    Initialised fourSetup.statics fourSetup.state
      ∧ ListedRun fourSetup.statics fourSetup.state tiedGame
      ∧ ((game fourSetup.statics).play fourSetup.state tiedGame).ended = some .vacant :=
  ⟨.once (Or.inl rfl) initializeState_four, listedRun_of_legalLine (by decide +kernel),
    by decide +kernel⟩

end MctsConnectFour.Oska
