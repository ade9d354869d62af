/-
A match of wmain, and the loop over the matches.

Two searches play against each other on one state. The player to move
searches and moves; then the `Mcts` of the player to move next is pruned
to the new state, which is what the protocol of `Course` asks for before
its `compute`. The other one is left with the state before, until it has
been answered.

One fuel is given to all loops, and enough of it settles the match: a
turn settles because its `compute` and its `prune` do, and the turns come
to an end with the game.
-/
import MctsConnectFour.Lib.Settles
import MctsConnectFour.Mcts.BestMove

namespace MctsConnectFour

open SearchTree LawfulSearchTree
open Loops (Settles whileLoop whileLoop_settles settles_const settles_of_mono)

variable (G : Game) {τ : Type} [SearchTree τ (ArcData G) (NodeData G)]

-- =============================================================== match

/-- `playerToMove ( )`: the opponent of the player who has just moved, in
both classes. -/
def Game.playerToMove (s : G.State) : Player := (G.playerJustMoved s).opponent

/-- `state`, `mcts_agent` and `mcts_human`. -/
structure Match (τ : Type) (G : Game) where
  state : G.State
  agent : Mcts τ
  human : Mcts τ
  rng : Rng

namespace Match

variable {G}

/-- A match begins with two new `Mcts`. -/
def new (s : G.State) (ω : Rng) : Match τ G where
  state := s
  agent := .new
  human := .new
  rng := ω

/-- `p == Player::Type::agent ? mcts_agent : mcts_human`. -/
def mcts (x : Match τ G) (p : Player) : Mcts τ := if p = .agent then x.agent else x.human

/-- The same on the left of an assignment. -/
def setMcts (x : Match τ G) (p : Player) (m : Mcts τ) : Match τ G :=
  if p = .agent then { x with agent := m } else { x with human := m }

/-- `state.move_hash_winner ( compute ( ) )`, after `compute` of the
player `p`. -/
def moved (x : Match τ G) (p : Player) (c : Computed τ G) : Match τ G :=
  { x.setMcts p c.mcts with
    state := G.moveHashWinner x.state c.move
    rng := c.rng }

variable (G)

/-- One turn of the match: the player to move moves, and `prune ( )` is
called for the next. -/
def turn (fuel agentIterations humanIterations : Nat) (x : Match τ G) : Option (Match τ G) :=
  let p := G.playerToMove x.state
  ((x.mcts p).compute G fuel x.state (if p = .agent then agentIterations else humanIterations)
    x.rng).bind fun c =>
      let y := x.moved p c
      let q := G.playerToMove y.state
      ((y.mcts q).prune G fuel y.state).map fun m => y.setMcts q m

/-- `do ... while ( not ( winner = state.ended ( ) ) )`. -/
def play (fuel agentIterations humanIterations : Nat) (x : Match τ G) : Option (Match τ G) :=
  (turn G fuel agentIterations humanIterations x).bind
    (whileLoop (fun y => (G.ended y.state).isNone)
      (turn G fuel agentIterations humanIterations) fuel)

variable {G}

omit [SearchTree τ (ArcData G) (NodeData G)] in
@[simp] theorem state_setMcts (x : Match τ G) (p : Player) (m : Mcts τ) :
    (x.setMcts p m).state = x.state := by
  unfold setMcts
  split <;> rfl

omit [SearchTree τ (ArcData G) (NodeData G)] in
/-- The `Mcts` assigned to, and the other one. -/
theorem mcts_setMcts (x : Match τ G) (p q : Player) (m : Mcts τ) :
    (x.setMcts p m).mcts q = if (q = .agent) = (p = .agent) then m else x.mcts q := by
  unfold setMcts mcts
  by_cases hp : p = .agent <;> by_cases hq : q = .agent <;> simp [hp, hq]

omit [SearchTree τ (ArcData G) (NodeData G)] in
theorem mcts_setMcts_self (x : Match τ G) (p : Player) (m : Mcts τ) :
    (x.setMcts p m).mcts p = m := by
  rw [mcts_setMcts, if_pos rfl]

omit [SearchTree τ (ArcData G) (NodeData G)] in
theorem mcts_setMcts_cases (x : Match τ G) (p q : Player) (m : Mcts τ) :
    (x.setMcts p m).mcts q = m ∨ (x.setMcts p m).mcts q = x.mcts q := by
  rw [mcts_setMcts]
  split
  · exact Or.inl rfl
  · exact Or.inr rfl

end Match

-- ======================================================= what is settled

section Settled

variable {G} {s₀ s : G.State} {m : Mcts τ} {given : Option G.State}

theorem iterations_mono {fuel fuel' : Nat} (hle : fuel ≤ fuel') :
    ∀ {count : Nat} {m : Mcts τ} {ω : Rng} {x : Mcts τ × Rng × List (Turn τ G)},
      m.iterations G fuel s count ω = some x → m.iterations G fuel' s count ω = some x := by
  intro count
  induction count with
  | zero => exact fun h => h
  | succ count ih =>
      intro m ω x hrun
      rw [Mcts.iterations] at hrun ⊢
      obtain ⟨turn, hturn, hmap⟩ := Option.bind_eq_some_iff.mp hrun
      obtain ⟨y, hy, rfl⟩ := Option.map_eq_some_iff.mp hmap
      rw [iteration_mono hle hturn, Option.bind_some, ih hy]
      rfl

variable [LawfulSearchTree τ]

/-- A `compute` in the course of a game, on an open state. -/
theorem Course.compute_settles (hgame : Setting G s₀) (hcol : G.NoCollision s₀)
    (h : Course s₀ m given) (hmay : MayCompute m given s) (hs : G.Played s₀ s) (count : Nat)
    (ω : Rng) : ∃ c, Settles (fun fuel => m.compute G fuel s count ω) (some c) := by
  have hG := hgame.lawful
  obtain ⟨μ, hμ⟩ := hG.exists_measure
  obtain ⟨m₁, hbegin⟩ := begin_total (s := s) (h.last_valid hgame hcol)
  obtain ⟨pos, hm, hroot, hvalid, -, -⟩ := begin_spec hG hcol h.reached hs hmay hbegin
  obtain ⟨bound, hiterations⟩ := iterations_total hG hcol hμ hs count (ω := ω) hm hroot hvalid
  obtain ⟨x, hx⟩ := hiterations bound le_rfl
  have hsettles : Settles (fun fuel => m₁.iterations G fuel s count ω) (some x) :=
    settles_of_mono (fun hle => iterations_mono hle) hx
  unfold Mcts.compute
  simp only [hbegin, Option.bind_some]
  exact ⟨_, hsettles.map _⟩

/-- A `prune` between two calls. -/
theorem Reached.prune_settles (h : Reached s₀ m (.between given)) (s : G.State) :
    ∃ m', Settles (fun fuel => m.prune G fuel s) (some m') := by
  by_cases hunknown : m.notInitialized = true ∨ m.getNode (G.zobrist s) = none
  · simp only [prune_unknown hunknown]
    exact ⟨_, settles_const _⟩
  · obtain ⟨hinit, hknown⟩ := not_or.mp hunknown
    obtain ⟨old, hfind⟩ := Option.ne_none_iff_exists'.mp hknown
    rw [Bool.not_eq_true] at hinit
    have hm : Sound m := by
      rcases reached_sound h with ⟨rfl, -⟩ | hm
      · cases hinit
      · exact hm
    obtain ⟨x, hx⟩ := copy_total (G := G) hm.tree.targets_lt (hm.tree.find_lt hfind) _ le_rfl
    simp only [prune_eq hinit hfind, Mcts.pruneImpl]
    exact ⟨_, (settles_of_mono Loops.whileLoop_mono hx).map _⟩

end Settled

-- ========================================================== one compute

section Free

variable (τ)

/-- The free function `compute ( )`: a move by a search of its own. -/
def freeCompute (fuel : Nat) (s : G.State) (maxIterations : Nat) (ω : Rng) :
    Option (G.State × Rng) :=
  ((.new : Mcts τ).compute G fuel s maxIterations ω).map fun c =>
    (G.moveHashWinner s c.move, c.rng)

variable {G} {τ} [LawfulSearchTree τ]

/-- A search of its own needs no history: from any open state of a game
the next one is reached. -/
theorem freeCompute_settles {s₀ s : G.State} (hgame : Setting G s₀) (hcol : G.NoCollision s₀)
    (hs : G.Played s₀ s) (hopen : G.ended s = none) {count : Nat} (hcount : 1 ≤ count) (ω : Rng) :
    ∃ m ω', Settles (fun fuel => freeCompute G τ fuel s count ω)
        (some (G.moveHashWinner s m, ω')) ∧ m ∈ G.legal s := by
  have hmay : MayCompute (.new : Mcts τ) none s := Or.inr ⟨rfl, rfl⟩
  obtain ⟨c, hc⟩ := (Course.new (τ := τ)).compute_settles hgame hcol hmay hs count ω
  obtain ⟨bound, hbound⟩ := hc
  have hbest := (Course.new (τ := τ)).reached.isBest hgame hcol hmay hs hopen hcount
    (hbound bound le_rfl)
  exact ⟨c.move, c.rng, Settles.map ⟨bound, hbound⟩ _, hbest.legal⟩

end Free

-- ============================================================ the match

section Play

variable {G} {s₀ : G.State}

/-- Between two turns of a match: the moves so far are a legal line, both
searches are in the course of the game, and that of the player to move may
compute. -/
structure MatchInv (s₀ : G.State) (x : Match τ G) (ms : List G.Move) : Prop where
  line : G.LegalLine s₀ ms
  state : x.state = G.play s₀ ms
  course : ∀ p, ∃ given, Course s₀ (x.mcts p) given
    ∧ (p = G.playerToMove x.state → MayCompute (x.mcts p) given x.state)

theorem MatchInv.played {x : Match τ G} {ms : List G.Move} (h : MatchInv s₀ x ms) :
    G.Played s₀ x.state := h.state ▸ Game.run_play h.line

theorem matchInv_new (s₀ : G.State) (ω : Rng) :
    MatchInv s₀ (Match.new s₀ ω : Match τ G) [] where
  line := trivial
  state := rfl
  course := by
    intro p
    have hnew : (Match.new s₀ ω : Match τ G).mcts p = .new := by
      unfold Match.mcts Match.new
      split <;> rfl
    rw [hnew]
    exact ⟨none, .new, fun _ => Or.inr ⟨rfl, rfl⟩⟩

variable {agentIterations humanIterations : Nat} [LawfulSearchTree τ]

/-- A turn plays a listed move. -/
theorem MatchInv.turn (hgame : Setting G s₀) (hcol : G.NoCollision s₀)
    (ha : 1 ≤ agentIterations) (hh : 1 ≤ humanIterations) {x : Match τ G} {ms : List G.Move}
    (h : MatchInv s₀ x ms) (hopen : G.ended x.state = none) :
    ∃ x' m, Settles (fun fuel => Match.turn G fuel agentIterations humanIterations x) (some x')
      ∧ m ∈ G.legal x.state ∧ MatchInv s₀ x' (ms ++ [m]) := by
  generalize hp : G.playerToMove x.state = p
  obtain ⟨given, hcourse, hmay⟩ := h.course p
  have hmay := hmay hp.symm
  generalize hcount : (if p = .agent then agentIterations else humanIterations) = count
  have hpos : 1 ≤ count := by
    rw [← hcount]
    split
    · exact ha
    · exact hh
  -- the search
  obtain ⟨c, hc⟩ := hcourse.compute_settles hgame hcol hmay h.played count x.rng
  obtain ⟨bound, hbound⟩ := hc
  have hrun := hbound bound le_rfl
  have hbest := hcourse.reached.isBest hgame hcol hmay h.played hopen hpos hrun
  have hcomputed : Course s₀ c.mcts none :=
    .compute hcourse hmay h.played hopen hpos hrun
  have hline : G.LegalLine s₀ (ms ++ [c.move]) := by
    rw [G.legalLine_append, ← h.state]
    exact ⟨h.line, hopen, hbest.legal, trivial⟩
  have hstate : G.moveHashWinner x.state c.move = G.play s₀ (ms ++ [c.move]) := by
    rw [h.state, Game.play_concat]
  -- and what it leaves
  obtain ⟨y, hy⟩ : ∃ y, y = x.moved p c := ⟨_, rfl⟩
  have hystate : y.state = G.play s₀ (ms ++ [c.move]) := by
    rw [hy, Game.play_concat, ← h.state]
    rfl
  have hyplayed : G.Played s₀ y.state := hystate ▸ Game.run_play hline
  have hycourse : ∀ q, ∃ given, Course s₀ (y.mcts q) given := by
    intro q
    have hmcts : y.mcts q = (x.setMcts p c.mcts).mcts q := by rw [hy]; rfl
    rcases x.mcts_setMcts_cases p q c.mcts with heq | heq
    · exact ⟨none, by rw [hmcts, heq]; exact hcomputed⟩
    · obtain ⟨given, hq, -⟩ := h.course q
      exact ⟨given, by rw [hmcts, heq]; exact hq⟩
  -- the pruning
  generalize hq : G.playerToMove y.state = q
  obtain ⟨given', hyq⟩ := hycourse q
  obtain ⟨m', hprune⟩ := hyq.reached.prune_settles y.state
  have hpruned : Course s₀ m' (some y.state) := by
    obtain ⟨bound', hbound'⟩ := hprune
    exact .prune hyq hyplayed (hbound' bound' le_rfl)
  refine ⟨y.setMcts q m', c.move, ?_, hbest.legal, hline, ?_, ?_⟩
  · unfold Match.turn
    simp only [hp, hcount]
    refine Settles.bind ⟨bound, hbound⟩ ?_
    simp only [← hy, hq]
    exact hprune.map _
  · rw [Match.state_setMcts, hystate]
  · intro r
    rw [Match.state_setMcts, hq]
    by_cases hrq : r = q
    · subst hrq
      rw [y.mcts_setMcts_self]
      exact ⟨_, hpruned, fun _ => Or.inl rfl⟩
    · rcases y.mcts_setMcts_cases q r m' with heq | heq
      · rw [heq]
        exact ⟨_, hpruned, fun heq' => absurd heq' hrq⟩
      · obtain ⟨given, hr⟩ := hycourse r
        rw [heq]
        exact ⟨given, hr, fun heq' => absurd heq' hrq⟩

omit [SearchTree τ (ArcData G) (NodeData G)] [LawfulSearchTree τ] in
/-- A game starts open. -/
theorem Setting.opens (h : Setting G s₀) : G.ended s₀ = none := by
  cases h with
  | connectFour => rfl
  | oska hS hinit =>
      obtain ⟨-, -, hstart⟩ := hinit.start hS
      exact if_pos hstart.winner

omit [SearchTree τ (ArcData G) (NodeData G)] [LawfulSearchTree τ] in
/-- The verdict on a game is a side or a draw. -/
theorem Setting.verdict (h : Setting G s₀) {s : G.State} {w : Player}
    (hended : G.ended s = some w) : w.IsSide ∨ w = .vacant := by
  have hvalid : w ≠ .invalid := by
    cases h with
    | connectFour =>
        obtain ⟨hw, heq⟩ := Option.ite_none_left_eq_some.mp hended
        exact Option.some.inj heq ▸ hw
    | oska =>
        obtain ⟨hw, heq⟩ := Option.ite_none_left_eq_some.mp hended
        exact Option.some.inj heq ▸ hw
  cases w with
  | invalid => exact absurd rfl hvalid
  | agent => exact Or.inl (Or.inl rfl)
  | vacant => exact Or.inr rfl
  | human => exact Or.inl (Or.inr rfl)

/-- The turns of a match come to an end. -/
theorem Match.play_settles (hgame : Setting G s₀) (hcol : G.NoCollision s₀)
    (ha : 1 ≤ agentIterations) (hh : 1 ≤ humanIterations) (ω : Rng) :
    ∃ (x : Match τ G) (ms : List G.Move) (w : Player),
      Settles (fun fuel => Match.play G fuel agentIterations humanIterations (.new s₀ ω)) (some x)
        ∧ MatchInv s₀ x ms ∧ ms ≠ [] ∧ G.ended x.state = some w ∧ (w.IsSide ∨ w = .vacant)
        ∧ G.legal x.state = [] := by
  obtain ⟨μ, hμ⟩ := hgame.lawful.exists_measure
  obtain ⟨x₁, m₁, hfirst, -, hx₁⟩ :=
    (matchInv_new (τ := τ) s₀ ω).turn hgame hcol ha hh hgame.opens
  obtain ⟨x, hrest, hx, hdone⟩ := Loops.whileLoop_settles
    (c := fun y : Match τ G => (G.ended y.state).isNone)
    (b := fun fuel => Match.turn G fuel agentIterations humanIterations)
    (I := fun x => ∃ ms, ms ≠ [] ∧ MatchInv s₀ x ms) (fun x => μ x.state)
    (by
      intro x hx hopen
      obtain ⟨ms, -, hx⟩ := hx
      obtain ⟨x', m, hturn, hm, hx'⟩ :=
        hx.turn hgame hcol ha hh (Option.isNone_iff_eq_none.mp hopen)
      refine ⟨x', hturn, ⟨ms ++ [m], by simp, hx'⟩, ?_⟩
      rw [hx'.state, Game.play_concat, ← hx.state]
      exact hμ.1 hx.played.mixed .moveHashWinner hm)
    (show ∃ ms, ms ≠ [] ∧ MatchInv s₀ x₁ ms from ⟨_, by simp, hx₁⟩)
  obtain ⟨ms, hne, hx⟩ := hx
  obtain ⟨w, hw⟩ := Option.isSome_iff_exists.mp (Option.isNone_eq_false_iff.mp hdone)
  refine ⟨x, ms, w, hfirst.bind hrest, hx, hne, hw, hgame.verdict hw, ?_⟩
  exact hgame.legal_of_ended hx.played.mixed (hw ▸ Option.some_ne_none w)

end Play

-- ============================================================= wmain

/-- `matches`, `agent_wins` and `human_wins`. -/
structure Score where
  matchesPlayed : Nat
  agentWins : Nat
  humanWins : Nat
deriving DecidableEq, Repr

/-- What is added for a match; a draw aborts. -/
def Score.add (x : Score) (winner : Player) : Option Score :=
  match winner with
  | .agent => some {
      x with
      matchesPlayed := x.matchesPlayed + 1
      agentWins := x.agentWins + 1 }
  | .human => some {
      x with
      matchesPlayed := x.matchesPlayed + 1
      humanWins := x.humanWins + 1 }
  | _ => none

/-- What `State state; state.initialize ( );` leaves: a game at its start,
with the keys drawn for it, which tell its positions apart, and a tree for
the searches. -/
structure Opening where
  game : Game
  tree : Type
  [searchTree : SearchTree tree (ArcData game) (NodeData game)]
  [lawful : LawfulSearchTree tree]
  state : game.State
  setting : Setting game state
  noCollision : game.NoCollision state
  rng : Rng

instance (x : Opening) : SearchTree x.tree (ArcData x.game) (NodeData x.game) := x.searchTree

instance (x : Opening) : LawfulSearchTree x.tree := x.lawful

/-- One turn of the loop of wmain, with `start` for the first two lines of
its body. -/
def wmainTurn (start : Rng → Opening) (agentIterations humanIterations fuel : Nat)
    (x : Score × Rng) : Option (Score × Rng) :=
  let opening := start x.2
  (Match.play opening.game fuel agentIterations humanIterations
    (.new opening.state opening.rng : Match opening.tree opening.game)).bind fun y =>
      (opening.game.ended y.state).bind fun winner =>
        (x.1.add winner).map fun score => (score, y.rng)

/-- `for ( index_t i = 0; i < count; ++i )`. -/
def wmain (start : Rng → Opening) (agentIterations humanIterations fuel : Nat) :
    Nat → Score × Rng → Option (Score × Rng)
  | 0, x => some x
  | count + 1, x =>
      (wmainTurn start agentIterations humanIterations fuel x).bind
        (wmain start agentIterations humanIterations fuel count)

variable {agentIterations humanIterations : Nat}

/-- A match that is not drawn is counted for one of the players. -/
theorem Score.add_spec (x : Score) {w : Player} (hw : w.IsSide ∨ w = .vacant) :
    (w = .vacant ∧ x.add w = none)
      ∨ ∃ y, x.add w = some y ∧ y.matchesPlayed = x.matchesPlayed + 1
        ∧ y.agentWins + y.humanWins = x.agentWins + x.humanWins + 1 := by
  rcases hw with (rfl | rfl) | rfl
  · refine Or.inr ⟨_, rfl, rfl, ?_⟩
    show x.agentWins + 1 + x.humanWins = _
    omega
  · exact Or.inr ⟨_, rfl, rfl, rfl⟩
  · exact Or.inl ⟨rfl, rfl⟩

/-- A game from this opening that nobody wins. -/
def Opening.Drawn (x : Opening) : Prop :=
  ∃ ms, x.game.LegalLine x.state ms ∧ x.game.ended (x.game.play x.state ms) = some .vacant

/-- What a turn of the loop, or the loop, comes to: as many matches more
have been won as played, or one was drawn. -/
def Counts (start : Rng → Opening) (f : Nat → Option (Score × Rng)) (x : Score)
    (count : Nat) : Prop :=
  (∃ y : Score × Rng, Settles f (some y) ∧ y.1.matchesPlayed = x.matchesPlayed + count
      ∧ y.1.agentWins + y.1.humanWins = x.agentWins + x.humanWins + count)
    ∨ Settles f none ∧ ∃ ω, (start ω).Drawn

theorem wmainTurn_counts (start : Rng → Opening) (ha : 1 ≤ agentIterations)
    (hh : 1 ≤ humanIterations) (x : Score × Rng) :
    Counts start (fun fuel => wmainTurn start agentIterations humanIterations fuel x) x.1 1 := by
  obtain ⟨y, ms, w, hplay, hy, -, hw, hverdict, -⟩ := Match.play_settles (τ := (start x.2).tree)
    (start x.2).setting (start x.2).noCollision ha hh (start x.2).rng
  rcases x.1.add_spec hverdict with ⟨rfl, hnone⟩ | ⟨score, hscore, hplayed, hwins⟩
  · refine Or.inr ⟨hplay.bind ?_, x.2, ms, hy.line, hy.state ▸ hw⟩
    simp only [hw, Option.bind_some, hnone, Option.map_none]
    exact settles_const _
  · refine Or.inl ⟨(score, y.rng), hplay.bind ?_, hplayed, hwins⟩
    simp only [hw, Option.bind_some, hscore, Option.map_some]
    exact settles_const _

/-- The loop, from any score. -/
theorem wmain_counts_from (start : Rng → Opening) (ha : 1 ≤ agentIterations)
    (hh : 1 ≤ humanIterations) : ∀ (count : Nat) (x : Score × Rng),
      Counts start (fun fuel => wmain start agentIterations humanIterations fuel count x)
        x.1 count := by
  intro count
  induction count with
  | zero => exact fun x => Or.inl ⟨x, settles_const _, rfl, rfl⟩
  | succ count ih =>
      intro x
      rcases wmainTurn_counts start ha hh x with ⟨y, hy, hplayed, hwins⟩ | ⟨hnone, hdrawn⟩
      · rcases ih y with ⟨z, hz, hplayed', hwins'⟩ | ⟨hnone, hdrawn⟩
        · exact Or.inl ⟨z, hy.bind hz, by omega, by omega⟩
        · exact Or.inr ⟨hy.bind hnone, hdrawn⟩
      · exact Or.inr ⟨hnone.bind_none _, hdrawn⟩

/-- The opening of a game on one cell. -/
def oneCellOpening (ω : Rng) : Opening where
  game := ConnectFour.game ConnectFour.oneCell
  tree := OneCellTree
  state := ConnectFour.new ConnectFour.oneCell .agent
  setting := ConnectFour.setting_oneCell
  noCollision := ConnectFour.noCollision_oneCell
  rng := ω

end MctsConnectFour
