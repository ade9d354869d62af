/-
The games of the repository, and that they are lawful.

A Connect Four board has at most 255 cells and 127 columns, which is what
the counter of the moves made and the column of a move can hold; an Oska
board has the sizes for which `initialize ( )` returns.

Two boards serve as examples later: the smallest of all, on which a game
has one move and hashes can be seen not to collide, and the default one
of `ConnectFour`, at the end of a game that nobody wins.
-/
import MctsConnectFour.ConnectFour.Laws
import MctsConnectFour.Oska.Laws

namespace MctsConnectFour

/-- A game class of the repository, and a state its games start in. -/
inductive Setting : (G : Game) → G.State → Prop
  | connectFour {NumRows NumCols : Nat} (Z : ZobristTables NumRows NumCols) {p : Player} :
      1 ≤ NumRows → 1 ≤ NumCols → NumRows * NumCols ≤ 255 → NumCols ≤ 127 → p.IsSide →
        Setting (ConnectFour.game Z) (ConnectFour.new Z p)
  | oska {S : Nat} {T : Oska.Statics S} {s₀ : Oska.State S} :
      3 ≤ S → Oska.Initialised T s₀ → Setting (Oska.game T) s₀

theorem Setting.lawful {G : Game} {s₀ : G.State} (h : Setting G s₀) : G.Lawful s₀ := by
  cases h with
  | connectFour Z hrows hcols hcells hnarrow hp =>
      exact ConnectFour.lawful hrows hcols hcells hnarrow hp
  | oska hS hinit => exact Oska.lawful hS hinit

/-- A listed move is a move. -/
theorem Setting.legal_valid {G : Game} {s₀ s : G.State} (h : Setting G s₀) (hs : G.Mixed s₀ s)
    {m : G.Move} (hm : m ∈ G.legal s) : m ≠ G.noneMove ∧ m ≠ default := by
  cases h with
  | connectFour Z _ _ _ hnarrow _ => exact ConnectFour.legal_valid (by omega) hm
  | oska hS hinit =>
      obtain ⟨-, hT, hstart⟩ := hinit.start hS
      have hcoherent := Oska.coherent_run hS hT (hstart.coherent hS hT) hs
      exact Oska.legal_valid hS hT hcoherent hm

/-- A game that has ended has no moves, in whatever way they were made. -/
theorem Setting.legal_of_ended {G : Game} {s₀ s : G.State} (h : Setting G s₀) (hs : G.Mixed s₀ s)
    (hended : G.ended s ≠ none) : G.legal s = [] := by
  cases h with
  | connectFour => exact ConnectFour.legal_of_ended hended
  | oska hS hinit => exact Oska.legal_of_ended hS hinit hs hended

-- ============================================================ examples

namespace ConnectFour

/-- Keys for a board of one cell. -/
def oneCell : ZobristTables 1 1 := ⟨⟨#v[1, 2]⟩, #v[4, 8, 16]⟩

theorem setting_oneCell : Setting (game oneCell) (new oneCell .agent) :=
  .connectFour oneCell le_rfl le_rfl (by decide) (by decide) (Or.inl rfl)

/-- A game on one cell has one move. -/
theorem played_oneCell {s : State 1 1} (h : (game oneCell).Played (new oneCell .agent) s) :
    s = new oneCell .agent
      ∨ s = moveHashWinner oneCell (new oneCell .agent) (Move.ofIndex 0) := by
  refine h.invariant (I := fun s => s = new oneCell .agent
    ∨ s = moveHashWinner oneCell (new oneCell .agent) (Move.ofIndex 0)) (Or.inl rfl) ?_
  intro s op m hs hop hm
  subst hop
  rcases hs with rfl | rfl
  · rw [show (game oneCell).legal (new oneCell .agent) = [Move.ofIndex 0] by decide,
      List.mem_singleton] at hm
    exact Or.inr (congrArg _ hm)
  · rw [show (game oneCell).legal (moveHashWinner oneCell (new oneCell .agent) (Move.ofIndex 0))
      = [] by decide] at hm
    cases hm

theorem noCollision_oneCell : (game oneCell).NoCollision (new oneCell .agent) := by
  intro s t hs ht hhash
  have hne : (game oneCell).zobrist (new oneCell .agent)
      ≠ (game oneCell).zobrist (moveHashWinner oneCell (new oneCell .agent) (Move.ofIndex 0)) := by
    decide
  rcases played_oneCell hs with rfl | rfl
  · rcases played_oneCell ht with rfl | rfl
    · rfl
    · exact absurd hhash hne
  · rcases played_oneCell ht with rfl | rfl
    · exact absurd hhash.symm hne
    · rfl

/-- Keys for the default board. -/
def defaultKeys : ZobristTables 6 7 :=
  ⟨⟨Vector.ofFn fun i => UInt64.ofNat (i.val * i.val * 7919 + 2 ^ (i.val % 60))⟩, #v[1, 2, 3]⟩

theorem setting_default : Setting (game defaultKeys) (new defaultKeys .agent) :=
  .connectFour defaultKeys (by decide) (by decide) (by decide) (by decide) (Or.inl rfl)

/-- A game that leaves two cells vacant, in different columns, and
nobody able to win. -/
def drawnGame : List Move :=
  [5, 4, 5, 0, 6, 2, 4, 5, 5, 0, 4, 1, 1, 0, 4, 5, 6, 5, 3, 1, 1, 2, 2, 6, 2, 6, 6, 3, 6, 2, 0, 3,
    0, 3, 3, 4, 3, 1, 4, 2].map Move.ofIndex

/-- The state it leads to. -/
def twoLeft : State 6 7 := (game defaultKeys).play (new defaultKeys .agent) drawnGame

/-- The state after one more move: there is one left. -/
def oneLeft : State 6 7 := (game defaultKeys).moveHashWinner twoLeft (Move.ofIndex 1)

theorem played_twoLeft : (game defaultKeys).Played (new defaultKeys .agent) twoLeft :=
  Game.run_play (by decide +kernel)

/-- How the game can go on from two cells left. -/
def endings : List (State 6 7) :=
  let G := game defaultKeys
  let left := G.moveHashWinner twoLeft (Move.ofIndex 0)
  [twoLeft, left, oneLeft, G.moveHashWinner left (Move.ofIndex 1),
    G.moveHashWinner oneLeft (Move.ofIndex 0)]

theorem played_endings {s : State 6 7} (h : (game defaultKeys).Played twoLeft s) : s ∈ endings := by
  have hlegal : endings.map (game defaultKeys).legal
      = [[Move.ofIndex 0, Move.ofIndex 1], [Move.ofIndex 1], [Move.ofIndex 0], [], []] := by
    decide +kernel
  unfold endings oneLeft at *
  generalize twoLeft = two at h hlegal ⊢
  simp only [List.map_cons, List.map_nil, List.cons.injEq, and_true] at hlegal
  obtain ⟨htwo, hleft, hright, hover, hover'⟩ := hlegal
  refine h.invariant (I := fun s : State 6 7 => s ∈ _) (List.mem_cons_self ..) ?_
  intro s op m hs hop hm
  subst hop
  simp only [List.mem_cons, List.not_mem_nil, or_false] at hs ⊢
  rcases hs with rfl | rfl | rfl | rfl | rfl
  · rw [htwo] at hm
    rcases List.mem_pair.mp hm with rfl | rfl
    · exact Or.inr (Or.inl rfl)
    · exact Or.inr (Or.inr (Or.inl rfl))
  · rw [hleft] at hm
    rw [List.mem_singleton.mp hm]
    exact Or.inr (Or.inr (Or.inr (Or.inl rfl)))
  · rw [hright] at hm
    rw [List.mem_singleton.mp hm]
    exact Or.inr (Or.inr (Or.inr (Or.inr rfl)))
  · rw [hover] at hm
    cases hm
  · rw [hover'] at hm
    cases hm

theorem noCollision_twoLeft : (game defaultKeys).NoCollision twoLeft := by
  intro s t hs ht hhash
  have hnodup : (endings.map (game defaultKeys).zobrist).Nodup := by decide +kernel
  exact congrArg _ (List.inj_on_of_nodup_map hnodup (played_endings hs) (played_endings ht) hhash)

theorem lawful_twoLeft : (game defaultKeys).Lawful twoLeft :=
  setting_default.lawful.of_played played_twoLeft

end ConnectFour

end MctsConnectFour
