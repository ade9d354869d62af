/-
The move generators of Oska.

`moves ( )`, `hasMoves ( )` and `randomMove ( )` each go through the stones
of the player to move with `leftMove` and `rightMove`: the first through
all of them, the second up to a move, the third in random order, throwing
away one stone after the other. Throwing away a stone loses no move, since
both its searches have found none (`Search.tryStone`), so what is left in
the end is nothing only if there was nothing.
-/
import MctsConnectFour.Oska.Laws

namespace MctsConnectFour.Oska

variable {S : Nat} {T : Statics S} {s₀ s : State S}

-- ======================================================== random moves

/-- The variables of `randomMove ( )`; `found` is an early return. -/
structure Search where
  ids : List Int
  move : Move
  found : Bool
  rng : Rng

/-- One turn of its loops: a random stone, and its two searches in random
order. -/
def Search.tryStone (b : Board S) (location : Int → Location) (x : Search) : Search :=
  let (i, ω) := x.rng.uniform x.ids.length
  let loc := location (x.ids[i]?.getD default)
  let (left, ω) := bernoulli ω
  let first := if left then leftMove b loc.c loc.r else rightMove b loc.c loc.r
  let second := if left then rightMove b loc.c loc.r else leftMove b loc.c loc.r
  if first ≠ Move.invalid then { x with move := first, found := true, rng := ω }
  else if second ≠ Move.invalid then { x with move := second, found := true, rng := ω }
  else { ids := x.ids.eraseIdx i, move := second, found := false, rng := ω }

/-- `while ( ids.size ( ) )`, up to the return of a move. -/
def searchStones (fuel : Nat) (b : Board S) (location : Int → Location) (ids : List Int)
    (ω : Rng) : Option (Move × Rng) :=
  (Loops.whileLoop (fun x : Search => !x.found && !x.ids.isEmpty)
    (fun x => some (x.tryStone b location)) fuel ⟨ids, default, false, ω⟩).map
      fun x => (x.move, x.rng)

/-- `randomMove ( )`. -/
def State.randomMove (fuel : Nat) (T : Statics S) (s : State S) (ω : Rng) : Option (Move × Rng) :=
  if s.playerToMove = .agent then
    searchStones fuel s.agentBoard T.idToLocation.at' s.agentStoneId ω
  else searchStones fuel s.humanBoard T.idToLocation.atR s.humanStoneId ω

/-- Either half is the search of a player. -/
theorem randomMove_eq (fuel : Nat) (T : Statics S) {s : State S} (hp : s.playerToMove.IsSide)
    (ω : Rng) :
    s.randomMove fuel T ω = searchStones fuel (s.board s.playerToMove)
      (T.locationOf s.playerToMove) (s.stoneId s.playerToMove) ω := by
  unfold State.randomMove
  rcases hp with hp | hp
  · rw [hp]
    rfl
  · rw [hp]
    rfl

-- =========================================================== the search

/-- The moves are still to be found among the stones left, or one has
been. -/
structure Search.Inv (T : Statics S) (s : State S) (p : Player) (x : Search) : Prop where
  found : x.found = true → x.move ∈ moveList T s p
  none : x.found = false → x.move = Move.invalid
    ∧ ∀ m ∈ moveList T s p, ∃ id ∈ x.ids, m ∈ movesFrom T s p id
  stones : x.ids ⊆ s.stoneId p

theorem ne_invalid_of_mem_moveList {p : Player} {m : Move} (hm : m ∈ moveList T s p) :
    m ≠ Move.invalid := by
  obtain ⟨id, -, hid⟩ := List.mem_flatMap.mp hm
  exact of_decide_eq_true (List.mem_filter.mp hid).2

/-- A turn looks at one of the stones left, and at its two moves in one
order or the other. -/
theorem Search.tryStone_cases (T : Statics S) (s : State S) (p : Player) {x : Search}
    (hne : x.ids ≠ []) :
    ∃ i id first second ω, x.ids[i]? = some id
      ∧ (∀ m, m ∈ movesFrom T s p id ↔ (m = first ∨ m = second) ∧ m ≠ Move.invalid)
      ∧ x.tryStone (s.board p) (T.locationOf p)
        = if first ≠ Move.invalid then { x with move := first, found := true, rng := ω }
          else if second ≠ Move.invalid then { x with move := second, found := true, rng := ω }
          else { ids := x.ids.eraseIdx i, move := second, found := false, rng := ω } := by
  have hi := x.rng.uniform_lt (List.length_pos_iff.mpr hne)
  generalize hdraw : x.rng.uniform x.ids.length = drawn at hi
  obtain ⟨i, ω⟩ := drawn
  obtain ⟨id, hid⟩ : ∃ id, x.ids[i]? = some id := ⟨_, List.getElem?_eq_getElem hi⟩
  obtain ⟨left, ω', hcoin⟩ : ∃ left ω', bernoulli ω = (left, ω') := ⟨_, _, rfl⟩
  refine ⟨i, id,
    if left then leftMove (s.board p) (T.locationOf p id).c (T.locationOf p id).r
      else rightMove (s.board p) (T.locationOf p id).c (T.locationOf p id).r,
    if left then rightMove (s.board p) (T.locationOf p id).c (T.locationOf p id).r
      else leftMove (s.board p) (T.locationOf p id).c (T.locationOf p id).r, ω', hid, ?_, ?_⟩
  · intro m
    unfold movesFrom
    cases left with
    | true => simp
    | false => simp [or_comm]
  · unfold Search.tryStone
    simp only [hdraw, hcoin, hid, Option.getD_some]

/-- A turn finds a move, or throws away a stone that has none. -/
theorem Search.Inv.tryStone {p : Player} {x : Search} (h : x.Inv T s p)
    (hmore : (!x.found && !x.ids.isEmpty) = true) :
    (x.tryStone (s.board p) (T.locationOf p)).Inv T s p
      ∧ ((x.tryStone (s.board p) (T.locationOf p)).found = true
        ∨ (x.tryStone (s.board p) (T.locationOf p)).ids.length < x.ids.length) := by
  rw [Bool.and_eq_true, Bool.not_eq_true', Bool.not_eq_true', List.isEmpty_eq_false_iff] at hmore
  obtain ⟨hnot, hne⟩ := hmore
  obtain ⟨i, id, first, second, ω, hid, hmem, hstep⟩ := Search.tryStone_cases T s p hne
  obtain ⟨hi, hget⟩ := List.getElem?_eq_some_iff.mp hid
  have hstone : id ∈ s.stoneId p := h.stones (List.mem_of_getElem? hid)
  have hlist : ∀ m, (m = first ∨ m = second) → m ≠ Move.invalid → m ∈ moveList T s p :=
    fun m hm hvalid => List.mem_flatMap.mpr ⟨id, hstone, (hmem m).mpr ⟨hm, hvalid⟩⟩
  rw [hstep]
  by_cases hone : first = Move.invalid
  · rw [if_neg (not_not_intro hone)]
    by_cases htwo : second = Move.invalid
    · rw [if_neg (not_not_intro htwo)]
      refine ⟨⟨nofun, fun _ => ⟨htwo, fun m hm => ?_⟩, ?_⟩, Or.inr ?_⟩
      · obtain ⟨k, hk, hmk⟩ := (h.none hnot).2 m hm
        have hperm := List.getElem_cons_eraseIdx_perm hi
        rcases List.mem_cons.mp (hperm.mem_iff.mpr hk) with heq | hrest
        · rw [heq, hget] at hmk
          obtain ⟨hm', hvalid⟩ := (hmem m).mp hmk
          rcases hm' with rfl | rfl
          · exact absurd hone hvalid
          · exact absurd htwo hvalid
        · exact ⟨k, hrest, hmk⟩
      · exact fun k hk => h.stones (List.mem_of_mem_eraseIdx hk)
      · show (x.ids.eraseIdx i).length < x.ids.length
        rw [List.length_eraseIdx_of_lt hi]
        omega
    · rw [if_pos htwo]
      exact ⟨⟨fun _ => hlist second (Or.inr rfl) htwo, nofun, h.stones⟩, Or.inl rfl⟩
  · rw [if_pos hone]
    exact ⟨⟨fun _ => hlist first (Or.inl rfl) hone, nofun, h.stones⟩, Or.inl rfl⟩

/-- The search starts with all stones. -/
theorem Search.inv_start (T : Statics S) (s : State S) (p : Player) (ω : Rng) :
    (⟨s.stoneId p, default, false, ω⟩ : Search).Inv T s p where
  found := nofun
  none _ := ⟨rfl, fun _ hm => List.mem_flatMap.mp hm⟩
  stones := fun _ hid => hid

/-- What `randomMove ( )` returns. -/
theorem randomMove_spec (hp : s.playerToMove.IsSide) {fuel : Nat} {ω : Rng} {r : Move × Rng}
    (hrun : s.randomMove fuel T ω = some r) :
    r.1 ∈ moveList T s s.playerToMove
      ∨ r.1 = Move.invalid ∧ moveList T s s.playerToMove = [] := by
  rw [randomMove_eq fuel T hp] at hrun
  obtain ⟨x, hloop, rfl⟩ := Option.map_eq_some_iff.mp hrun
  obtain ⟨h, hdone⟩ := Loops.whileLoop_inv (I := fun x : Search => x.Inv T s s.playerToMove)
    (fun x x' h hmore hstep => by
      obtain rfl := Option.some.inj hstep
      exact (h.tryStone hmore).1)
    (Search.inv_start T s s.playerToMove ω) hloop
  cases hfound : x.found with
  | true => exact Or.inl (h.found hfound)
  | false =>
      right
      obtain ⟨hmove, hall⟩ := h.none hfound
      refine ⟨hmove, List.eq_nil_iff_forall_not_mem.mpr fun m hm => ?_⟩
      obtain ⟨id, hid, -⟩ := hall m hm
      rw [hfound, Bool.not_false, Bool.true_and, Bool.not_eq_false', List.isEmpty_iff] at hdone
      rw [hdone] at hid
      cases hid

/-- It returns after at most as many turns as there are stones. -/
theorem randomMove_total (hp : s.playerToMove.IsSide) {fuel : Nat}
    (hfuel : (s.stoneId s.playerToMove).length ≤ fuel) (ω : Rng) :
    ∃ r, s.randomMove fuel T ω = some r := by
  have hloop : ∃ x, Loops.whileLoop (fun x : Search => !x.found && !x.ids.isEmpty)
      (fun x => some (x.tryStone (s.board s.playerToMove) (T.locationOf s.playerToMove))) fuel
      ⟨s.stoneId s.playerToMove, default, false, ω⟩ = some x :=
    Loops.whileLoop_total (I := fun x : Search => x.Inv T s s.playerToMove)
      (fun x => if x.found then 0 else x.ids.length)
      (fun x h hmore => by
        obtain ⟨h', hless⟩ := h.tryStone hmore
        refine ⟨_, rfl, h', ?_⟩
        rw [Bool.and_eq_true, Bool.not_eq_true', Bool.not_eq_true',
          List.isEmpty_eq_false_iff] at hmore
        have hpos := List.length_pos_iff.mpr hmore.2
        have hleft : (if x.found then 0 else x.ids.length) = x.ids.length := by
          rw [hmore.1]
          rfl
        rw [hleft]
        split
        · exact hpos
        · next hnot => exact hless.resolve_left hnot)
      (Search.inv_start T s s.playerToMove ω) hfuel
  obtain ⟨x, hx⟩ := hloop
  refine ⟨(x.move, x.rng), ?_⟩
  rw [randomMove_eq fuel T hp, searchStones, hx]
  rfl

-- ======================================================== the generators

/-- In a game that has not ended `moves ( )` lists the moves of the rules,
each once and within its capacity, `hasMoves ( )` tells whether there are
any, and `randomMove ( )` returns one of them, or `Move::invalid` if there
is none. -/
theorem generators_agree (hS : 3 ≤ S) (hinit : Initialised T s₀) (hrun : (game T).Mixed s₀ s)
    (hopen : s.ended = none) (c : Moves Move (2 * S)) :
    ((s.moves T c).2.toList.Nodup ∧ (s.moves T c).2.size ≤ 2 * S
        ∧ (∀ m, m ∈ (s.moves T c).2.toList
          ↔ ∃ d, Steps s s.playerToMove m d ∧ Hexagon S m.mTo.c m.mTo.r)
        ∧ ((s.moves T c).1 = true ↔ (s.moves T c).2.toList ≠ []))
      ∧ (s.hasMoves T s.playerToMove = true ↔ (s.moves T c).2.toList ≠ [])
      ∧ (∀ fuel, S ≤ fuel → ∀ ω, ∃ r, s.randomMove fuel T ω = some r)
      ∧ ∀ fuel ω r, s.randomMove fuel T ω = some r →
          ((s.moves T c).2.toList ≠ [] → r.1 ∈ (s.moves T c).2.toList)
            ∧ (r.1 = Move.invalid ↔ (s.moves T c).2.toList = []) := by
  obtain ⟨-, hT, hstart⟩ := hinit.start hS
  have h := coherent_run hS hT (hstart.coherent hS hT) hrun
  have hp := h.side
  have hv := h.viewed _ hp
  have hfree : s.winner.occupied = false := by
    have hwinner : s.winner = .invalid := by
      by_contra hne
      exact ended_ne_none_iff.mpr hne hopen
    rw [hwinner]
    rfl
  obtain ⟨hlist, hsize, hret⟩ := moves_open h hfree c
  have hmem := mem_moveList hS hT hp hv
  rw [hlist]
  refine ⟨⟨moveList_nodup hS hT hp hv, hsize, ?_, hret⟩, ?_, ?_, ?_⟩
  · intro m
    rw [hmem]
    refine exists_congr fun d => ⟨fun hm => ⟨hm, (hm.geometry hS hp hv).1⟩, fun hm => hm.1⟩
  · rw [hasMoves_iff hS hT hp hv]
    constructor
    · intro hcan
      obtain ⟨m, hm⟩ := hcan
      exact List.ne_nil_of_mem ((hmem m).mpr hm)
    · intro hne
      obtain ⟨m, hm⟩ := List.exists_mem_of_ne_nil _ hne
      exact ⟨m, (hmem m).mp hm⟩
  · exact fun fuel hfuel ω => randomMove_total hp (hv.size.trans hfuel) ω
  · intro fuel ω r hr
    rcases randomMove_spec hp hr with hm | ⟨hinvalid, hnil⟩
    · exact ⟨fun _ => hm, iff_of_false (ne_invalid_of_mem_moveList hm) (List.ne_nil_of_mem hm)⟩
    · exact ⟨fun hne => absurd hnil hne, iff_of_true hinvalid hnil⟩

/-- At the start on the smallest board. -/
theorem generators_agree_three :
    let T := smallSetup.statics
    let s := smallSetup.state
    let c : Moves Move (2 * 3) := .new
    ((s.moves T c).2.toList.Nodup ∧ (s.moves T c).2.size ≤ 2 * 3
        ∧ (∀ m, m ∈ (s.moves T c).2.toList
          ↔ ∃ d, Steps s s.playerToMove m d ∧ Hexagon 3 m.mTo.c m.mTo.r)
        ∧ ((s.moves T c).1 = true ↔ (s.moves T c).2.toList ≠ []))
      ∧ (s.hasMoves T s.playerToMove = true ↔ (s.moves T c).2.toList ≠ [])
      ∧ (∀ fuel, 3 ≤ fuel → ∀ ω, ∃ r, s.randomMove fuel T ω = some r)
      ∧ ∀ fuel ω r, s.randomMove fuel T ω = some r →
          ((s.moves T c).2.toList ≠ [] → r.1 ∈ (s.moves T c).2.toList)
            ∧ (r.1 = Move.invalid ↔ (s.moves T c).2.toList = []) :=
  generators_agree (by decide) (.once (Or.inl rfl) initializeState_small) .start
    (by decide +kernel) .new

end MctsConnectFour.Oska
