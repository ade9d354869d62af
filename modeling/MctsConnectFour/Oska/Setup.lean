/-
What `initialize ( )` sets up, the first time and every time after.

Both variants run the same two row loops, so both are followed by one
invariant on the cells visited so far: `Laid` for the boards and the
stone lists, `Tabled` for the static tables that only the first time
fills. `Initialised` collects the states a game can start from, and
`Start` what is known about them.
-/
import MctsConnectFour.Oska.Geometry

namespace MctsConnectFour.Oska

open MaMatrix (InRange)

variable {S : Nat}

-- =========================================================== boards laid

/-- What a hexagon of row `r` holds at the start. -/
def startContent (S : Nat) (r : Nat) : Player :=
  if r = 1 then .agent else if r = obHomeRow S then .human else .vacant

/-- The positions of the cells on one row. -/
def idsOnRow (l : List (Nat × Nat)) (row : Nat) : List Int :=
  (l.zipIdx.filter fun x => x.1.2 = row).map fun x => (x.2 : Int)

theorem idsOnRow_concat (l : List (Nat × Nat)) (cell : Nat × Nat) (row : Nat) :
    idsOnRow (l ++ [cell]) row
      = idsOnRow l row ++ if cell.2 = row then [(l.length : Int)] else [] := by
  unfold idsOnRow
  rw [List.zipIdx_append, List.filter_append, List.map_append]
  by_cases h : cell.2 = row <;> simp [h]

theorem mem_idsOnRow (l : List (Nat × Nat)) (row : Nat) (id : Int) :
    id ∈ idsOnRow l row ↔ ∃ i : Nat, ∃ h : i < l.length, l[i].2 = row ∧ id = i := by
  unfold idsOnRow
  simp only [List.mem_map, List.mem_filter, decide_eq_true_eq]
  constructor
  · intro h'
    obtain ⟨⟨cell, i⟩, ⟨hmem, hrow⟩, rfl⟩ := h'
    obtain ⟨hi, hcell⟩ := List.mk_mem_zipIdx_iff_getElem?.mp hmem |> List.getElem?_eq_some_iff.mp
    exact ⟨i, hi, by rw [hcell]; exact hrow, rfl⟩
  · intro h'
    obtain ⟨i, hi, hrow, rfl⟩ := h'
    exact ⟨(l[i], i), ⟨List.mk_mem_zipIdx_iff_getElem?.mpr (List.getElem?_eq_getElem hi), hrow⟩,
      rfl⟩

theorem nodup_idsOnRow (l : List (Nat × Nat)) (row : Nat) : (idsOnRow l row).Nodup := by
  have hsub : (idsOnRow l row).Sublist ((List.range l.length).map fun i : Nat => (i : Int)) := by
    have hidx : l.zipIdx.map (fun x => (x.2 : Int))
        = (List.range l.length).map fun i : Nat => (i : Int) := by
      rw [show (fun x : (Nat × Nat) × Nat => (x.2 : Int)) = (fun i : Nat => (i : Int)) ∘ Prod.snd
        from rfl, ← List.map_map, List.zipIdx_map_snd, List.range_eq_range']
    rw [← hidx]
    exact List.filter_sublist.map _
  exact hsub.nodup (List.nodup_range.map fun a b h => by exact_mod_cast h)

/-- Boards and stone lists once the cells `done` have been visited. -/
structure Laid (done : List (Nat × Nat)) (s : State S) : Prop where
  mirror : ∀ c r, InRange (obCols S) (obRows S) c r →
    s.humanBoard.at' c r = s.agentBoard.at' (obCols S - 1 - c) (obRows S - 1 - r)
  outside : ∀ c r, InRange (obCols S) (obRows S) c r →
    (∀ cell ∈ done, ¬ (c = (cell.1 : Int) ∧ r = (cell.2 : Int))) → s.agentBoard.at' c r = .invalid
  inside : ∀ cell ∈ done, s.agentBoard.at' cell.1 cell.2 = startContent S cell.2
  agent : s.agentStoneId = idsOnRow done 1
  human : s.humanStoneId = idsOnRow done (obHomeRow S)

/-- Nothing has been visited. -/
theorem laid_nil {s : State S} (ha : s.agentBoard = .fill .invalid)
    (hh : s.humanBoard = .fill .invalid) (has : s.agentStoneId = []) (hhs : s.humanStoneId = []) :
    Laid [] s where
  mirror c r hr := by rw [ha, hh, MaMatrix.at'_fill _ hr, MaMatrix.at'_fill _ hr.reflect]
  outside c r hr _ := by rw [ha, MaMatrix.at'_fill _ hr]
  inside cell hcell := by cases hcell
  agent := has
  human := hhs

/-- The hash is not looked at. -/
theorem Laid.congr {done : List (Nat × Nat)} {s t : State S} (h : Laid done s)
    (ha : t.agentBoard = s.agentBoard) (hh : t.humanBoard = s.humanBoard)
    (has : t.agentStoneId = s.agentStoneId) (hhs : t.humanStoneId = s.humanStoneId) :
    Laid done t where
  mirror := ha ▸ hh ▸ h.mirror
  outside := ha ▸ h.outside
  inside := ha ▸ h.inside
  agent := has ▸ h.agent
  human := hhs ▸ h.human

/-- The loop a cell is visited by: the top loop lays the agent's stones,
the bottom loop the human's. -/
def VisitedFor (S : Nat) (p : Player) (row : Nat) (cell : Nat × Nat) : Prop :=
  (p = .agent ∧ row = 1 ∧ cell.2 ≠ obHomeRow S) ∨ (p = .human ∧ row = obHomeRow S ∧ cell.2 ≠ 1)

/-- One turn of a row loop. -/
theorem Laid.placeStone {done : List (Nat × Nat)} {s : State S} (h : Laid done s) {p : Player}
    {row : Nat} {cell : Nat × Nat} (hfor : VisitedFor S p row cell)
    (hr : InRange (obCols S) (obRows S) cell.1 cell.2) (hnew : cell ∉ done)
    (hdone : ∀ x ∈ done, InRange (obCols S) (obRows S) x.1 x.2) :
    Laid (done ++ [cell]) (s.placeStone p row cell done.length) := by
  have hcontent : (if cell.2 = row then p else .vacant) = startContent S cell.2 := by
    unfold startContent
    rcases hfor with ⟨rfl, rfl, hne⟩ | ⟨rfl, rfl, hne⟩
    · rw [if_neg hne]
    · rw [if_neg hne]
  have hagent : (s.placeStone p row cell done.length).agentBoard
      = s.agentBoard.setAt cell.1 cell.2 (startContent S cell.2) := by
    rw [← hcontent]
    rfl
  have hhuman : (s.placeStone p row cell done.length).humanBoard
      = s.humanBoard.setAt (obCols S - 1 - cell.1) (obRows S - 1 - cell.2)
          (startContent S cell.2) := by
    rw [← hcontent, ← MaMatrix.setAtR_eq]
    rfl
  refine ⟨fun c r hcr => ?_, fun c r hcr hout => ?_, fun x hx => ?_, ?_, ?_⟩
  · rw [hagent, hhuman, MaMatrix.at'_setAt _ _ hr.reflect hcr,
      MaMatrix.at'_setAt _ _ hr hcr.reflect, h.mirror c r hcr]
    congr 1
    exact propext ⟨fun ⟨h₁, h₂⟩ => ⟨by omega, by omega⟩, fun ⟨h₁, h₂⟩ => ⟨by omega, by omega⟩⟩
  · rw [hagent, MaMatrix.at'_setAt _ _ hr hcr,
      if_neg (hout cell (List.mem_append_right _ (List.mem_singleton_self _)))]
    exact h.outside c r hcr fun x hx => hout x (List.mem_append_left _ hx)
  · rw [hagent]
    rcases List.mem_append.mp hx with hx | hx
    · have hne : ¬ ((x.1 : Int) = cell.1 ∧ (x.2 : Int) = cell.2) := fun heq =>
        hnew (by rwa [← Prod.ext (Int.ofNat.inj heq.1) (Int.ofNat.inj heq.2)])
      rw [MaMatrix.at'_setAt _ _ hr (hdone x hx), if_neg hne]
      exact h.inside x hx
    · obtain rfl := List.mem_singleton.mp hx
      rw [MaMatrix.at'_setAt _ _ hr hr, if_pos ⟨rfl, rfl⟩]
  · rw [idsOnRow_concat, ← h.agent]
    rcases hfor with ⟨rfl, rfl, -⟩ | ⟨rfl, rfl, hne⟩
    · by_cases hrow : cell.2 = 1 <;> simp [State.placeStone, hrow]
    · simp [State.placeStone, hne]
  · rw [idsOnRow_concat, ← h.human]
    rcases hfor with ⟨rfl, rfl, hne⟩ | ⟨rfl, rfl, -⟩
    · simp [State.placeStone, hne]
    · by_cases hrow : cell.2 = obHomeRow S <;> simp [State.placeStone, hrow]

-- ======================================================== tables filled

/-- The static tables once the cells `done` have been visited. -/
def Tabled (done : List (Nat × Nat)) (T : Statics S) : Prop :=
  ∀ (i : Nat) (h : i < done.length),
    T.locationToId.at' done[i].1 done[i].2 = i ∧ T.idToLocation.at' i = ⟨done[i].1, done[i].2⟩

/-- One turn of a row loop of `once_initialize`. -/
theorem Tabled.placeCell {done : List (Nat × Nat)} {x : Setup S} (h : Tabled done x.statics)
    (hid : x.id = done.length) (p : Player) (row : Nat) {cell : Nat × Nat}
    (hr : InRange (obCols S) (obRows S) cell.1 cell.2) (hnew : cell ∉ done)
    (hdone : ∀ x ∈ done, InRange (obCols S) (obRows S) x.1 x.2)
    (hroom : done.length < noHexagons S) :
    Tabled (done ++ [cell]) (x.placeCell p row cell).statics := by
  intro i hi
  have hloc : (x.placeCell p row cell).statics.locationToId
      = x.statics.locationToId.setAt cell.1 cell.2 done.length := by
    rw [← hid]
    rfl
  have hids : (x.placeCell p row cell).statics.idToLocation
      = x.statics.idToLocation.setAt done.length ⟨cell.1, cell.2⟩ := by
    rw [← hid]
    rfl
  rw [List.length_append, List.length_singleton] at hi
  rcases Nat.lt_or_eq_of_le (Nat.le_of_lt_succ hi) with hlt | rfl
  · have hmem := List.getElem_mem hlt
    have hne : ¬ ((done[i].1 : Int) = cell.1 ∧ (done[i].2 : Int) = cell.2) := fun heq =>
      hnew (by rwa [← Prod.ext (Int.ofNat.inj heq.1) (Int.ofNat.inj heq.2)])
    rw [hloc, hids, List.getElem_append_left hlt, MaMatrix.at'_setAt _ _ hr (hdone _ hmem),
      if_neg hne, MaVector.at'_setAt _ _ (by omega) (by omega) (by omega) (by omega),
      if_neg (by omega)]
    exact h i hlt
  · rw [hloc, hids, List.getElem_concat_length rfl, MaMatrix.at'_setAt _ _ hr hr,
      if_pos ⟨rfl, rfl⟩, MaVector.at'_setAt _ _ (by omega) (by omega) (by omega) (by omega),
      if_pos rfl]
    exact ⟨rfl, rfl⟩

-- ============================================================ row loops

section Loops

variable (hS : 3 ≤ S)

include hS

/-- A cell taken up by one of the loops, after the cells `done`. -/
structure Visit (S : Nat) (p : Player) (row : Nat) (done : List (Nat × Nat)) (cell : Nat × Nat) :
    Prop where
  for' : VisitedFor S p row cell
  inRange : InRange (obCols S) (obRows S) cell.1 cell.2
  new : cell ∉ done
  seen : ∀ x ∈ done, InRange (obCols S) (obRows S) x.1 x.2
  room : done.length < noHexagons S

private theorem visit_of {p : Player} {row : Nat} {done : List (Nat × Nat)} {cell : Nat × Nat}
    (rest : List (Nat × Nat)) (hcells : cells S = done ++ cell :: rest)
    (hfor : VisitedFor S p row cell) : Visit S p row done cell := by
  have hin : ∀ x ∈ cells S, InRange (obCols S) (obRows S) x.1 x.2 := fun x hx =>
    ((mem_cells hS).mp hx).inRange hS
  refine ⟨hfor, hin cell (by rw [hcells]; simp), ?_, fun x hx => hin x (by rw [hcells]; simp [hx]),
    ?_⟩
  · have hnodup := cells_nodup hS
    rw [hcells] at hnodup
    exact fun hmem => (List.nodup_append.mp hnodup).2.2 cell hmem cell (by simp) rfl
  · rw [← length_cells hS, hcells, List.length_append, List.length_cons]
    omega

theorem visit_top {done rest : List (Nat × Nat)} {cell : Nat × Nat}
    (h : topCells S = done ++ cell :: rest) : Visit S .agent 1 done cell := by
  refine visit_of hS (rest ++ bottomCells S) (by simp [cells, h]) (Or.inl ⟨rfl, rfl, ?_⟩)
  have hrow := ((mem_topCells hS).mp (h ▸ by simp : cell ∈ topCells S)).2
  rw [obHomeRow_eq (by omega)]
  omega

theorem visit_bottom {done rest : List (Nat × Nat)} {cell : Nat × Nat}
    (h : bottomCells S = done ++ cell :: rest) :
    Visit S .human (obHomeRow S) (topCells S ++ done) cell := by
  refine visit_of hS rest (by simp [cells, h]) (Or.inr ⟨rfl, rfl, ?_⟩)
  have hrow := ((mem_bottomCells hS).mp (h ▸ by simp : cell ∈ bottomCells S)).2
  omega

/-- The two row loops as one, for an invariant on the cells visited. -/
theorem rowLoops_inv {β : Type} {f : Player → Nat → β → Nat × Nat → β}
    {I : List (Nat × Nat) → β → Prop} {b : β} (hstart : I [] b)
    (hstep : ∀ (p : Player) (row : Nat) (done : List (Nat × Nat)) (cell : Nat × Nat) (b : β),
      Visit S p row done cell → I done b → I (done ++ [cell]) (f p row b cell)) :
    I (cells S) ((bottomCells S).foldl (f .human (obHomeRow S))
      ((topCells S).foldl (f .agent 1) b)) := by
  have htop : I (topCells S) ((topCells S).foldl (f .agent 1) b) :=
    Loops.foldl_inv hstart fun done cell rest b hcells hI =>
      hstep _ _ done cell b (visit_top hS hcells) hI
  exact Loops.foldl_inv (I := fun done => I (topCells S ++ done)) (by rwa [List.append_nil])
    fun done cell rest b hcells hI => by
      rw [← List.append_assoc]
      exact hstep _ _ _ cell b (visit_bottom hS hcells) hI

end Loops

-- ======================================================== initial states

/-- A state at the start of a game. -/
structure Start (s : State S) : Prop where
  laid : Laid (cells S) s
  noHomeAgent : s.noHomeAgent = 0
  noHomeHuman : s.noHomeHuman = 0
  winner : s.winner = .invalid
  side : s.playerToMove.IsSide

/-- The static tables know every hexagon. -/
def Located (T : Statics S) : Prop := Tabled (cells S) T

/-- What `once_initialize` has done so far to a default constructed
state. -/
private structure OnceInv (done : List (Nat × Nat)) (x : Setup S) : Prop where
  laid : Laid done x.state
  tabled : Tabled done x.statics
  id : x.id = done.length
  rest : x.state.noHomeAgent = 0 ∧ x.state.noHomeHuman = 0 ∧ x.state.winner = .invalid
    ∧ x.state.playerToMove.IsSide ∧ x.state.isOnceInitialized = true

/-- The first `initialize ( )` returns when the stone lists have room, and
has then gone through its row loops. -/
theorem initializeState_once {T₀ : Statics S} {p : Player} {ω : Rng} {x : Setup S}
    (hx : initializeState T₀ (new T₀ p) ω = some x) :
    S ≤ 8 ∧ x = (bottomCells S).foldl (Setup.placeCell .human (obHomeRow S))
      ((topCells S).foldl (Setup.placeCell .agent 1)
        { statics := { T₀ with locationToId := .fill (-1) }
          state := { new T₀ p with
            isOnceInitialized := true
            agentBoard := .fill .invalid
            humanBoard := .fill .invalid }
          id := 0
          rng := ω }) := by
  unfold initializeState onceInitialize at hx
  simp only [new, if_true] at hx
  by_cases hS : 8 < S
  · rw [if_pos hS] at hx
    cases hx
  · rw [if_neg hS] at hx
    exact ⟨Nat.not_lt.mp hS, (Option.some.inj hx).symm⟩

/-- The first `initialize ( )` fills the tables and sets up the
board. -/
theorem start_once (hS : 3 ≤ S) {T₀ : Statics S} {p : Player} (hp : p.IsSide) {ω : Rng}
    {x : Setup S} (hx : initializeState T₀ (new T₀ p) ω = some x) :
    S ≤ 8 ∧ Located x.statics ∧ Start x.state ∧ x.state.isOnceInitialized = true := by
  obtain ⟨hS', rfl⟩ := initializeState_once hx
  have hinv := rowLoops_inv hS (f := Setup.placeCell) (I := OnceInv (S := S))
    (b := { statics := { T₀ with locationToId := .fill (-1) }
            state := { new T₀ p with
              isOnceInitialized := true
              agentBoard := .fill .invalid
              humanBoard := .fill .invalid }
            id := 0
            rng := ω })
    ⟨laid_nil rfl rfl rfl rfl, fun i hi => absurd hi (Nat.not_lt_zero _), rfl,
      rfl, rfl, rfl, hp, rfl⟩
    (by
      intro q row done cell x hv h
      have hlaid := h.laid.placeStone hv.for' hv.inRange hv.new hv.seen
      rw [← h.id] at hlaid
      refine ⟨?_, h.tabled.placeCell h.id q row hv.inRange hv.new hv.seen hv.room, ?_, ?_⟩
      · unfold Setup.placeCell
        simp only
        split
        · exact hlaid.congr rfl rfl rfl rfl
        · exact hlaid
      · simp [Setup.placeCell, h.id]
      · unfold Setup.placeCell
        simp only
        split <;> exact h.rest)
  obtain ⟨hna, hnh, hw, hpl, honce⟩ := hinv.rest
  exact ⟨hS', hinv.tabled, ⟨hinv.laid, hna, hnh, hw, hpl⟩, honce⟩

/-- A later `initialize ( )` sets up the board again. -/
theorem start_again (hS : 3 ≤ S) {T : Statics S} {s : State S}
    (hs : s.isOnceInitialized = true) {ω : Rng} {x : Setup S}
    (hx : initializeState T s ω = some x) :
    x.statics = T ∧ Start x.state ∧ x.state.isOnceInitialized = true := by
  unfold initializeState at hx
  rw [if_neg (by rw [hs]; decide)] at hx
  simp only [Option.some.injEq] at hx
  have hinv := rowLoops_inv hS
    (f := fun p row (x : State S × Int) cell => (x.1.placeStone p row cell x.2, x.2 + 1))
    (I := fun done (x : State S × Int) => Laid done x.1 ∧ x.2 = done.length
      ∧ x.1.isOnceInitialized = true)
    (b := ({ s with
        agentBoard := .fill .invalid
        humanBoard := .fill .invalid
        agentStoneId := []
        humanStoneId := [] }, 0))
    ⟨laid_nil rfl rfl rfl rfl, rfl, hs⟩
    (by
      intro q row done cell x hv h
      obtain ⟨hlaid, hid, honce⟩ := h
      refine ⟨?_, by simp [hid], honce⟩
      rw [hid]
      exact hlaid.placeStone hv.for' hv.inRange hv.new hv.seen)
  rw [← hx]
  exact ⟨rfl, ⟨hinv.1.congr rfl rfl rfl rfl, rfl, rfl, rfl, Player.random_isSide ω⟩, hinv.2.2⟩

/-- The states a game starts from, with the static tables as they are
then: `initialize ( )` on a new state, or on one that has been
initialised before. -/
inductive Initialised : Statics S → State S → Prop
  | once {T₀ : Statics S} {p : Player} {ω : Rng} {x : Setup S} :
      p.IsSide → initializeState T₀ (new T₀ p) ω = some x → Initialised x.statics x.state
  | again {T : Statics S} {s₀ s : State S} {ω : Rng} {x : Setup S} :
      Initialised T s₀ → s.isOnceInitialized = true → initializeState T s ω = some x →
        Initialised T x.state

/-- Whatever has been initialised is at the start of a game, and the
size fits. -/
theorem Initialised.start (hS : 3 ≤ S) {T : Statics S} {s : State S} (h : Initialised T s) :
    S ≤ 8 ∧ Located T ∧ Start s := by
  induction h with
  | once hp hx =>
      obtain ⟨hS', hT, hs, -⟩ := start_once hS hp hx
      exact ⟨hS', hT, hs⟩
  | again _ hs hx ih =>
      obtain ⟨hS', hT, -⟩ := ih
      obtain ⟨-, hstart, -⟩ := start_again hS hs hx
      exact ⟨hS', hT, hstart⟩

/-- Tables of the smallest size, nothing filled in. -/
def smallStatics : Statics 3 where
  locationToId := .fill 0
  idToLocation := ⟨Vector.replicate _ default⟩
  zobrist := ⟨⟨Vector.replicate _ 0⟩, Vector.replicate 3 0⟩

/-- The smallest board set up, the agent to move and every key zero. -/
def smallSetup : Setup 3 :=
  (initializeState smallStatics (new smallStatics .agent) fun _ => 0).get rfl

theorem initializeState_small :
    initializeState smallStatics (new smallStatics .agent) (fun _ => 0) = some smallSetup :=
  (Option.some_get _).symm

end MctsConnectFour.Oska
