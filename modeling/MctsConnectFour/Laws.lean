/-
What the search relies on of a game, as laws of a `Game` and the state
`s₀` its games start in.

Two kinds of states occur. In a `Played` state hash and winner have been
kept up to date by `move_hash_winner ( )` since the start; these are the
states `compute` is called with and nodes stand for. A `Mixed` state may
have been reached by any of the three ways of moving; the selection and
the playouts pass through these.

The laws name no board. That they hold of the two games is proved from
their invariants (ConnectFour/Laws.lean, Oska/Laws.lean), and what
follows from them is about any game: a line replayed by `move_hash ( )`
is the line played as long as the game is open (`hashLine_eq`), and loses
the verdict of the last move when it is not (`hashLine_ended`); a playout
comes to an end, at the end of the game if it starts in an open one.
-/
import MctsConnectFour.Game

namespace MctsConnectFour.Game

variable (G : Game)

/-- A state of a game from `s₀` with hash and winner kept up to date. -/
abbrev Played (s₀ s : G.State) : Prop := G.Run (· = .moveHashWinner) s₀ s

/-- A state reached from `s₀` by listed moves, made in any way. -/
abbrev Mixed (s₀ s : G.State) : Prop := G.Run (fun _ => True) s₀ s

/-- The laws of games from `s₀`. -/
structure Lawful (s₀ : G.State) : Prop where
  /-- `moves ( )` does not look at what the container held -/
  moves_iff : ∀ {s}, G.Mixed s₀ s → ∀ c, (G.moves s c).1 = true ↔ G.legal s ≠ []
  moves_toList : ∀ {s}, G.Mixed s₀ s → ∀ c, (G.moves s c).1 = true →
    (G.moves s c).2.toList = G.legal s ∧ (G.moves s c).2.size ≤ G.maxNoMoves
  legal_nodup : ∀ {s}, G.Mixed s₀ s → (G.legal s).Nodup
  ended_iff : ∀ {s}, G.Played s₀ s → (G.ended s = none ↔ G.legal s ≠ [])
  /-- `move_hash ( )` leaves the game open -/
  moveHash_ended : ∀ {s m}, G.Played s₀ s → m ∈ G.legal s → G.ended (G.moveHash s m) = none
  moveHash_eq : ∀ {s m}, G.Played s₀ s → m ∈ G.legal s →
    G.ended (G.moveHashWinner s m) = none → G.moveHash s m = G.moveHashWinner s m
  lastMove : ∀ s m, G.lastMove (G.moveHashWinner s m) = m
  /-- a line without its hash -/
  moveWinner_line : ∀ s (ms : List G.Move),
    G.legal (ms.foldl G.moveWinner s) = G.legal (G.play s ms)
      ∧ G.ended (ms.foldl G.moveWinner s) = G.ended (G.play s ms)
      ∧ G.result (ms.foldl G.moveWinner s) = G.result (G.play s ms)
  /-- games come to an end, and the position tells how far it is -/
  measure : ∃ μ : G.State → Nat,
    (∀ {s m}, G.Mixed s₀ s → ∀ op, m ∈ G.legal s → μ (G.apply op s m) < μ s)
      ∧ ∀ {s t}, G.Played s₀ s → G.Played s₀ t → G.position s = G.position t → μ s = μ t
  legal_perm : ∀ {s t}, G.Played s₀ s → G.Played s₀ t → G.position s = G.position t →
    (G.legal s).Perm (G.legal t)
  zobrist_eq : ∀ {s t}, G.Played s₀ s → G.Played s₀ t → G.position s = G.position t →
    G.zobrist s = G.zobrist t
  playerJustMoved_eq : ∀ {s t}, G.position s = G.position t →
    G.playerJustMoved s = G.playerJustMoved t
  position_move : ∀ {s t}, G.position s = G.position t → ∀ m,
    G.position (G.moveHashWinner s m) = G.position (G.moveHashWinner t m)

/-- `zobrist ( )` tells the positions of games from `s₀` apart. -/
def NoCollision (s₀ : G.State) : Prop :=
  ∀ {s t}, G.Played s₀ s → G.Played s₀ t → G.zobrist s = G.zobrist t → G.position s = G.position t

variable {G} {s₀ s : G.State}

theorem Played.mixed (h : G.Played s₀ s) : G.Mixed s₀ s := h.mono fun _ _ => trivial

/-- The winner has followed every move. -/
theorem Played.judged (h : G.Played s₀ s) : G.Run (· ≠ .moveHash) s₀ s :=
  h.mono fun _ hop => by rw [hop]; decide

/-- The hash has followed every move. -/
theorem Played.hashed (h : G.Played s₀ s) : G.Run (· ≠ .moveWinner) s₀ s :=
  h.mono fun _ hop => by rw [hop]; decide

/-- The laws hold of the games that start later. -/
theorem Lawful.of_played (hG : G.Lawful s₀) (h : G.Played s₀ s) : G.Lawful s where
  moves_iff ht := hG.moves_iff (h.mixed.trans ht)
  moves_toList ht := hG.moves_toList (h.mixed.trans ht)
  legal_nodup ht := hG.legal_nodup (h.mixed.trans ht)
  ended_iff ht := hG.ended_iff (h.trans ht)
  moveHash_ended ht := hG.moveHash_ended (h.trans ht)
  moveHash_eq ht := hG.moveHash_eq (h.trans ht)
  lastMove := hG.lastMove
  moveWinner_line := hG.moveWinner_line
  measure := by
    obtain ⟨μ, hdec, hcongr⟩ := hG.measure
    exact ⟨μ, fun ht => hdec (h.mixed.trans ht), fun ht ht' => hcongr (h.trans ht) (h.trans ht')⟩
  legal_perm ht ht' := hG.legal_perm (h.trans ht) (h.trans ht')
  zobrist_eq ht ht' := hG.zobrist_eq (h.trans ht) (h.trans ht')
  playerJustMoved_eq := hG.playerJustMoved_eq
  position_move := hG.position_move

-- =============================================================== lines

/-- A listed move from a played state leads to one. -/
theorem Played.moveHashWinner (h : G.Played s₀ s) {m : G.Move} (hm : m ∈ G.legal s) :
    G.Played s₀ (G.moveHashWinner s m) := .move .moveHashWinner h rfl hm

/-- A legal line from a played state leads to one. -/
theorem Played.play (h : G.Played s₀ s) {ms : List G.Move} (hline : G.LegalLine s ms) :
    G.Played s₀ (G.play s ms) := by
  induction ms using List.reverseRecOn with
  | nil => exact h
  | append_singleton ms m ih =>
      rw [legalLine_append] at hline
      rw [play_concat]
      exact (ih hline.1).moveHashWinner hline.2.2.1

/-- A legal line goes on with a listed move of the state it leads to. -/
theorem Lawful.legalLine_concat (hG : G.Lawful s₀) (h : G.Played s₀ s) {ms : List G.Move}
    (hline : G.LegalLine s ms) {m : G.Move} (hm : m ∈ G.legal (G.play s ms)) :
    G.LegalLine s (ms ++ [m]) := by
  rw [legalLine_append]
  exact ⟨hline, (hG.ended_iff (h.play hline)).mpr (List.ne_nil_of_mem hm), hm, trivial⟩

/-- While the game is open, replaying a line by `move_hash ( )` is
playing it. -/
theorem Lawful.hashLine_eq (hG : G.Lawful s₀) (h : G.Played s₀ s) {ms : List G.Move}
    (hline : G.LegalLine s ms) (hopen : G.ended (G.play s ms) = none) :
    ms.foldl G.moveHash s = G.play s ms := by
  induction ms using List.reverseRecOn with
  | nil => rfl
  | append_singleton ms m ih =>
      rw [legalLine_append] at hline
      obtain ⟨hfirst, hended, hm, -⟩ := hline
      rw [play_concat] at hopen ⊢
      rw [List.foldl_append, ih hfirst hended]
      exact hG.moveHash_eq (h.play hfirst) hm hopen

/-- A line replayed by `move_hash ( )` differs from the line played in
its last move at most. -/
theorem Lawful.hashLine_concat (hG : G.Lawful s₀) (h : G.Played s₀ s) {ms : List G.Move}
    {m : G.Move} (hline : G.LegalLine s (ms ++ [m])) :
    (ms ++ [m]).foldl G.moveHash s = G.moveHash (G.play s ms) m := by
  rw [legalLine_append] at hline
  rw [List.foldl_append, hG.hashLine_eq h hline.1 hline.2.1]
  rfl

/-- It leaves the game open, whatever its last move did. -/
theorem Lawful.hashLine_ended (hG : G.Lawful s₀) (h : G.Played s₀ s) {ms : List G.Move}
    (hline : G.LegalLine s ms) (hne : ms ≠ []) : G.ended (ms.foldl G.moveHash s) = none := by
  obtain ⟨init, m, rfl⟩ := (List.eq_nil_or_concat' ms).resolve_left hne
  have hparts := (legalLine_append G s init [m]).mp hline
  rw [hG.hashLine_concat h hline]
  exact hG.moveHash_ended (h.play hparts.1) hparts.2.2.1

theorem Lawful.hashLine_mixed (hG : G.Lawful s₀) (h : G.Played s₀ s) {ms : List G.Move}
    (hline : G.LegalLine s ms) : G.Mixed s₀ (ms.foldl G.moveHash s) := by
  rcases List.eq_nil_or_concat' ms with rfl | ⟨init, m, rfl⟩
  · exact h.mixed
  · have hparts := (legalLine_append G s init [m]).mp hline
    rw [hG.hashLine_concat h hline]
    exact .move .moveHash (h.play hparts.1).mixed trivial hparts.2.2.1

-- ============================================================ playouts

/-- Every move of the list is listed in the state in which
`move_winner ( )` makes it. -/
def Listed : G.State → List G.Move → Prop
  | _, [] => True
  | s, m :: ms => m ∈ G.legal s ∧ Listed (G.moveWinner s m) ms

theorem listed_concat {m : G.Move} : ∀ {ms : List G.Move} {s : G.State},
    Listed s (ms ++ [m]) ↔ Listed s ms ∧ m ∈ G.legal (ms.foldl G.moveWinner s) := by
  intro ms
  induction ms with
  | nil =>
      intro s
      simp [Listed]
  | cons m' ms ih =>
      intro s
      simp only [List.cons_append, Listed, List.foldl_cons, ih, and_assoc]

/-- They are a run. -/
theorem Listed.run : ∀ {ms : List G.Move} {s : G.State}, Listed s ms →
    G.Run (· = .moveWinner) s (ms.foldl G.moveWinner s) := by
  intro ms
  induction ms with
  | nil =>
      intro s _
      exact .start
  | cons m ms ih =>
      intro s hlisted
      have hfirst : G.Run (· = .moveWinner) s (G.moveWinner s m) :=
        .move .moveWinner .start rfl hlisted.1
      exact hfirst.trans (ih hlisted.2)

/-- A move drawn by a playout is listed. -/
theorem Lawful.random_mem (hG : G.Lawful s₀) (h : G.Mixed s₀ s) (c : Moves G.Move G.maxNoMoves)
    (hmore : (G.moves s c).1 = true) (ω : Rng) : ((G.moves s c).2.random ω).1 ∈ G.legal s := by
  obtain ⟨hlist, hsize⟩ := hG.moves_toList h c hmore
  rw [← hlist]
  refine Moves.random_mem hsize ?_ ω
  rw [← Moves.length_toList hsize, hlist]
  exact List.length_pos_iff.mpr ((hG.moves_iff h c).mp hmore)

/-- The guard of `simulate ( )`, which fills the container. -/
def simulateGuard (x : G.State × Moves G.Move G.maxNoMoves × Rng) : Bool := (G.moves x.1 x.2.1).1

/-- Its body, which draws from it. -/
def simulateBody (x : G.State × Moves G.Move G.maxNoMoves × Rng) :
    Option (G.State × Moves G.Move G.maxNoMoves × Rng) :=
  let m := (G.moves x.1 x.2.1).2
  some (G.moveWinner x.1 (m.random x.2.2).1, m, (m.random x.2.2).2)

theorem simulate_eq (fuel : Nat) (s : G.State) (ω : Rng) :
    G.simulate fuel s ω = (Loops.whileLoop simulateGuard simulateBody fuel (s, .new, ω)).map
      fun x => (x.1, x.2.2) := rfl

/-- A playout from `s` with the outcomes `ω` draws a move from `c`. -/
def DrawsFrom (s : G.State) (ω : Rng) (c : Moves G.Move G.maxNoMoves) : Prop :=
  ∃ x, Loops.Met simulateGuard simulateBody (s, .new, ω) x ∧ simulateGuard x = true
    ∧ c = (G.moves x.1 x.2.1).2

/-- One turn of a playout makes a listed move. -/
theorem Lawful.simulateBody_mixed (hG : G.Lawful s₀)
    {x y : G.State × Moves G.Move G.maxNoMoves × Rng} (h : G.Mixed s₀ x.1)
    (hmore : simulateGuard x = true) (hbody : simulateBody x = some y) :
    G.Mixed s₀ y.1 ∧ ∃ m ∈ G.legal x.1, y.1 = G.moveWinner x.1 m := by
  have hmem := hG.random_mem h x.2.1 hmore x.2.2
  obtain rfl := Option.some.inj hbody
  exact ⟨.move .moveWinner h trivial hmem, _, hmem, rfl⟩

/-- A playout does not draw from an empty container. -/
theorem Lawful.drawsFrom_ne_nil (hG : G.Lawful s₀) (h : G.Mixed s₀ s) {ω : Rng}
    {c : Moves G.Move G.maxNoMoves} (hc : DrawsFrom s ω c) : c.toList ≠ [] := by
  obtain ⟨x, hmet, hmore, rfl⟩ := hc
  have hmixed : G.Mixed s₀ x.1 := hmet.inv (I := fun x => G.Mixed s₀ x.1)
    (fun _ _ hx hc hbody => (hG.simulateBody_mixed hx hc hbody).1) h
  rw [(hG.moves_toList hmixed x.2.1 hmore).1]
  exact (hG.moves_iff hmixed x.2.1).mp hmore

/-- A playout makes listed moves until there is none. -/
theorem Lawful.simulate_spec (hG : G.Lawful s₀) (h : G.Mixed s₀ s) {fuel : Nat} {ω ω' : Rng}
    {t : G.State} (hrun : G.simulate fuel s ω = some (t, ω')) :
    ∃ ms, t = ms.foldl G.moveWinner s ∧ Listed s ms ∧ G.legal t = [] := by
  rw [simulate_eq] at hrun
  obtain ⟨x, hloop, hx⟩ := Option.map_eq_some_iff.mp hrun
  obtain ⟨⟨⟨ms, heq, hlisted⟩, hmixed⟩, hdone⟩ := Loops.whileLoop_inv
    (I := fun x => (∃ ms, x.1 = ms.foldl G.moveWinner s ∧ Listed s ms) ∧ G.Mixed s₀ x.1)
    (fun x x' hI hmore hbody => by
      obtain ⟨⟨ms, heq, hlisted⟩, hmixed⟩ := hI
      obtain ⟨hmixed', m, hm, hstep⟩ := hG.simulateBody_mixed hmixed hmore hbody
      refine ⟨⟨ms ++ [m], ?_, listed_concat.mpr ⟨hlisted, heq ▸ hm⟩⟩, hmixed'⟩
      rw [List.foldl_append, ← heq, hstep]
      rfl)
    ⟨⟨[], rfl, trivial⟩, h⟩ hloop
  obtain rfl : x.1 = t := congrArg Prod.fst hx
  refine ⟨ms, heq, hlisted, ?_⟩
  by_contra hne
  rw [simulateGuard, (hG.moves_iff hmixed x.2.1).mpr hne] at hdone
  cases hdone

/-- A playout is a run, up to a state in which `moves ( )` returns
false. -/
theorem Lawful.simulate_run (hG : G.Lawful s₀) (h : G.Mixed s₀ s) {fuel : Nat} {ω ω' : Rng}
    {t : G.State} (hrun : G.simulate fuel s ω = some (t, ω')) :
    G.Run (· = .moveWinner) s t ∧ ∀ c, (G.moves t c).1 = false := by
  obtain ⟨ms, rfl, hlisted, hdone⟩ := hG.simulate_spec h hrun
  have hsteps := hlisted.run
  refine ⟨hsteps, fun c => ?_⟩
  rw [← Bool.not_eq_true, hG.moves_iff (h.trans (hsteps.mono fun _ _ => trivial))]
  exact not_not_intro hdone

/-- A line of listed moves, each made in any way, is no longer than a
measure of games is high. -/
theorem length_line_le {μ : G.State → Nat}
    (hμ : ∀ {s m}, G.Mixed s₀ s → ∀ op, m ∈ G.legal s → μ (G.apply op s m) < μ s) :
    ∀ {line : List (MoveOp × G.Move)} {s : G.State}, G.Mixed s₀ s → G.ListedLine s line →
      line.length + μ (G.perform s line) ≤ μ s := by
  intro line
  induction line with
  | nil =>
      intro s _ _
      rw [List.length_nil, Nat.zero_add]
      exact le_rfl
  | cons x line ih =>
      intro s hs hline
      obtain ⟨hx, hline⟩ := hline
      have hlt := hμ hs x.1 hx
      have hrest := ih (Run.move x.1 hs trivial hx) hline
      have hperform : G.perform s (x :: line) = G.perform (G.apply x.1 s x.2) line := rfl
      rw [List.length_cons, hperform]
      omega

/-- A playout makes no more moves than a measure of games is high. -/
theorem Lawful.simulate_bound (hG : G.Lawful s₀) {μ : G.State → Nat}
    (hμ : ∀ {s m}, G.Mixed s₀ s → m ∈ G.legal s → μ (G.moveWinner s m) < μ s)
    (h : G.Mixed s₀ s) {fuel : Nat} (hfuel : μ s ≤ fuel) (ω : Rng) :
    ∃ r, G.simulate fuel s ω = some r := by
  have hloop : ∃ x, Loops.whileLoop simulateGuard simulateBody fuel (s, .new, ω) = some x :=
    Loops.whileLoop_total (I := fun x => G.Mixed s₀ x.1) (fun x => μ x.1)
      (fun x hmixed hmore => by
        obtain ⟨hmixed', m, hm, hstep⟩ := hG.simulateBody_mixed hmixed hmore rfl
        refine ⟨_, rfl, hmixed', ?_⟩
        rw [hstep]
        exact hμ hmixed hm)
      h hfuel
  obtain ⟨x, hx⟩ := hloop
  exact ⟨(x.1, x.2.2), by rw [simulate_eq, hx]; rfl⟩

/-- A playout comes to an end. -/
theorem Lawful.simulate_total (hG : G.Lawful s₀) (h : G.Mixed s₀ s) :
    ∃ bound, ∀ fuel, bound ≤ fuel → ∀ ω, ∃ r, G.simulate fuel s ω = some r := by
  obtain ⟨μ, hμ, -⟩ := hG.measure
  exact ⟨μ s, fun fuel hfuel ω =>
    hG.simulate_bound (fun hs hm => hμ hs .moveWinner hm) h hfuel ω⟩

/-- More fuel does not change a playout. -/
theorem simulate_mono {fuel fuel' : Nat} (hle : fuel ≤ fuel') {ω : Rng} {r : G.State × Rng}
    (hrun : G.simulate fuel s ω = some r) : G.simulate fuel' s ω = some r := by
  unfold simulate at hrun ⊢
  obtain ⟨x, hx, rfl⟩ := Option.map_eq_some_iff.mp hrun
  rw [Loops.whileLoop_mono hle hx]
  rfl

/-- Listed moves made by `move_winner ( )` from a played state are a
legal line. -/
theorem Lawful.legalLine_of_listed (hG : G.Lawful s₀) (h : G.Played s₀ s) {ms : List G.Move}
    (hlisted : Listed s ms) : G.LegalLine s ms := by
  induction ms using List.reverseRecOn with
  | nil => trivial
  | append_singleton ms m ih =>
      obtain ⟨hfirst, hm⟩ := listed_concat.mp hlisted
      rw [(hG.moveWinner_line s ms).1] at hm
      exact hG.legalLine_concat h (ih hfirst) hm

/-- A playout from a played state ends where the game does. -/
theorem Lawful.simulate_played (hG : G.Lawful s₀) (h : G.Played s₀ s) {fuel : Nat} {ω ω' : Rng}
    {t : G.State} (hrun : G.simulate fuel s ω = some (t, ω')) :
    ∃ ms, t = ms.foldl G.moveWinner s ∧ G.LegalLine s ms ∧ G.ended t ≠ none
      ∧ G.result t = G.result (G.play s ms) := by
  obtain ⟨ms, heq, hlisted, hdone⟩ := hG.simulate_spec h.mixed hrun
  have hline := hG.legalLine_of_listed h hlisted
  obtain ⟨hlegal, hended, hresult⟩ := hG.moveWinner_line s ms
  refine ⟨ms, heq, hline, ?_, by rw [heq, hresult]⟩
  rw [heq, hended]
  rw [heq, hlegal] at hdone
  exact fun hopen => (hG.ended_iff (h.play hline)).mp hopen hdone

end MctsConnectFour.Game
