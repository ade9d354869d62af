/-
The tables of the board: what the two row loops of `once_initialize ( )`
leave in `m_location_to_id` and `m_id_to_location`, for every size from
three on. The stone lists have room for eight stones, and beyond that
`once_initialize ( )` throws before its loops; the loops themselves know
no such limit, and are taken by themselves here (`onceInitialize_eq`).

The loops are followed turn by turn by `TableInv`: the ids given out so
far are the numbers from zero on, and a cell not visited yet still has
the entry `-1` of the first two loops. That the running id of the lower
half mirrors that of the upper half is the reflection of the visiting
order (`reverse_cells`); with it `at_r` on either table is the change of
perspective.
-/
import MctsConnectFour.Oska.Board
import MctsConnectFour.Oska.HumanMove

namespace MctsConnectFour.Oska

open MaMatrix (InRange)

variable {S : Nat}

-- ============================================================ the loops

/-- The state of `once_initialize ( )` before its row loops. -/
def beforeRows (T : Statics S) (s : State S) (ω : Rng) : Setup S where
  statics := { T with locationToId := .fill (-1) }
  state := { s with agentBoard := .fill .invalid, humanBoard := .fill .invalid }
  id := 0
  rng := ω

/-- The row loops of `once_initialize ( )`. -/
def rowLoops (T : Statics S) (s : State S) (ω : Rng) : Setup S :=
  let x := (topCells S).foldl (Setup.placeCell .agent 1) (beforeRows T s ω)
  (bottomCells S).foldl (Setup.placeCell .human (obHomeRow S)) x

/-- Within the room of the stone lists, `once_initialize ( )` is its row
loops. -/
theorem onceInitialize_eq (T : Statics S) (s : State S) (ω : Rng) :
    onceInitialize T s ω = if 8 < S then none else some (rowLoops T s ω) := rfl

/-- A turn of a row loop that writes down the id it gives to its cell. -/
def Setup.assignCell (p : Player) (row : Nat) (x : Setup S × List (Int × Nat × Nat))
    (cell : Nat × Nat) : Setup S × List (Int × Nat × Nat) :=
  (x.1.placeCell p row cell, x.2 ++ [(x.1.id, cell)])

/-- The ids the row loops give out, each with its cell, in loop order. -/
def assignments (T : Statics S) (s : State S) (ω : Rng) : List (Int × Nat × Nat) :=
  let x := (topCells S).foldl (Setup.assignCell .agent 1) (beforeRows T s ω, [])
  ((bottomCells S).foldl (Setup.assignCell .human (obHomeRow S)) x).2

/-- Writing down changes nothing. -/
theorem assignCell_fst (p : Player) (row : Nat) (l : List (Nat × Nat)) :
    ∀ x : Setup S × List (Int × Nat × Nat),
      (l.foldl (Setup.assignCell p row) x).1 = l.foldl (Setup.placeCell p row) x.1 := by
  induction l with
  | nil => exact fun x => rfl
  | cons cell l ih => exact fun x => ih _

-- ======================================================== the invariant

/-- The tables, and the ids given out, once the cells `done` have been
visited. -/
structure TableInv (done : List (Nat × Nat)) (x : Setup S × List (Int × Nat × Nat)) : Prop where
  tabled : Tabled done x.1.statics
  id : x.1.id = done.length
  outside : ∀ c r, InRange (obCols S) (obRows S) c r →
    (∀ cell ∈ done, ¬ (c = (cell.1 : Int) ∧ r = (cell.2 : Int))) →
      x.1.statics.locationToId.at' c r = -1
  ids : x.2.map Prod.fst = (List.range done.length).map fun k : Nat => (k : Int)
  cells : x.2.map Prod.snd = done

theorem tableInv_nil (T : Statics S) (s : State S) (ω : Rng) :
    TableInv [] (beforeRows T s ω, []) where
  tabled i hi := absurd hi (Nat.not_lt_zero i)
  id := rfl
  outside _ _ hr _ := MaMatrix.at'_fill _ hr
  ids := rfl
  cells := rfl

/-- One turn. -/
theorem TableInv.assignCell {done : List (Nat × Nat)} {x : Setup S × List (Int × Nat × Nat)}
    (h : TableInv done x) {p : Player} {row : Nat} {cell : Nat × Nat}
    (hv : Visit S p row done cell) : TableInv (done ++ [cell]) (x.1.placeCell p row cell,
      x.2 ++ [(x.1.id, cell)]) where
  tabled := h.tabled.placeCell h.id p row hv.inRange hv.new hv.seen hv.room
  id := by
    show x.1.id + 1 = ((done ++ [cell]).length : Int)
    rw [h.id, List.length_append, List.length_singleton]
    rfl
  outside := by
    intro c r hr hout
    have hcell := hout cell (List.mem_append_right _ (List.mem_singleton_self _))
    show (x.1.statics.locationToId.setAt cell.1 cell.2 x.1.id).at' c r = -1
    rw [MaMatrix.at'_setAt _ _ hv.inRange hr, if_neg hcell]
    exact h.outside c r hr fun y hy => hout y (List.mem_append_left _ hy)
  ids := by
    rw [List.map_append, h.ids, h.id, List.length_append, List.length_singleton,
      List.range_succ, List.map_append]
    rfl
  cells := by
    rw [List.map_append, h.cells]
    rfl

/-- All turns. -/
theorem tableInv_rowLoops (hS : 3 ≤ S) (T : Statics S) (s : State S) (ω : Rng) :
    TableInv (cells S) (rowLoops T s ω, assignments T s ω) := by
  have hinv := rowLoops_inv hS (f := Setup.assignCell) (I := TableInv (S := S))
    (tableInv_nil T s ω) fun p row done cell x hv h => h.assignCell hv
  have hfst : ((bottomCells S).foldl (Setup.assignCell .human (obHomeRow S))
      ((topCells S).foldl (Setup.assignCell .agent 1) (beforeRows T s ω, []))).1
      = rowLoops T s ω := by
    rw [assignCell_fst, assignCell_fst]
    rfl
  rw [← hfst]
  exact hinv

-- ========================================================== the result

/-- What the row loops should leave in the tables: the ids, the cells
that have one, and where these lie; the tables as inverses; and the
reflection. -/
structure BoardTables (x : Setup S) (given : List (Int × Nat × Nat)) : Prop where
  ids : given.map Prod.fst = (List.range (noHexagons S)).map fun k : Nat => (k : Int)
  hexagons : ∀ c r : Int,
    Hexagon S c r ↔ ∃ a ∈ given, c = (a.2.1 : Int) ∧ r = (a.2.2 : Int)
  inner : ∀ a ∈ given, 1 ≤ a.2.1 ∧ a.2.1 + 1 < obCols S ∧ 1 ≤ a.2.2 ∧ a.2.2 + 1 < obRows S
  elsewhere : ∀ c r, InRange (obCols S) (obRows S) c r → ¬ Hexagon S c r →
    x.statics.locationToId.at' c r = -1
  location_id : ∀ c r, Hexagon S c r →
    IsId S (x.statics.locationToId.at' c r)
      ∧ x.statics.idToLocation.at' (x.statics.locationToId.at' c r) = ⟨c, r⟩
  id_location : ∀ i, IsId S i →
    Hexagon S (x.statics.idToLocation.at' i).c (x.statics.idToLocation.at' i).r
      ∧ x.statics.locationToId.at' (x.statics.idToLocation.at' i).c
        (x.statics.idToLocation.at' i).r = i
  reflect : ∀ i, IsId S i →
    x.statics.idToLocation.at' (noHexagons S - 1 - i) = other S (x.statics.idToLocation.at' i)
  idToLocation_atR : ∀ i, IsId S i →
    x.statics.idToLocation.atR i = other S (x.statics.idToLocation.at' i)
  locationToId_atR : ∀ c r, Hexagon S c r →
    x.statics.locationToId.atR c r = noHexagons S - 1 - x.statics.locationToId.at' c r
      ∧ x.statics.locationToId.atR c r
        = x.statics.locationToId.at' (other S ⟨c, r⟩).c (other S ⟨c, r⟩).r

section Tables

variable {T : Statics S} (hS : 3 ≤ S) (hT : Located T)

include hS hT

/-- The location of the id counted from the other end is the reflected
one. -/
theorem Located.at'_otherEnd {i : Int} (hi : IsId S i) :
    T.idToLocation.at' (noHexagons S - 1 - i) = other S (T.idToLocation.at' i) := by
  obtain ⟨k, hk, rfl, hloc, -⟩ := hT.exists_position hS hi
  rw [hloc]
  exact (hT.reflect hS hk).2

/-- The id of a hexagon, and that of the reflected one. -/
theorem Located.at'_hexagon {c r : Int} (h : Hexagon S c r) :
    IsId S (T.locationToId.at' c r)
      ∧ T.idToLocation.at' (T.locationToId.at' c r) = ⟨c, r⟩
      ∧ T.locationToId.at' (obCols S - 1 - c) (obRows S - 1 - r)
        = noHexagons S - 1 - T.locationToId.at' c r := by
  obtain ⟨cell, hcell, rfl, rfl⟩ := h.exists_cell hS
  obtain ⟨k, hk, rfl⟩ := List.mem_iff_getElem.mp hcell
  obtain ⟨hid, hloc⟩ := hT k hk
  have hlen := length_cells hS
  rw [hid]
  refine ⟨?_, hloc, (hT.reflect hS hk).1⟩
  unfold IsId
  omega

end Tables

/-- For every size the row loops of `once_initialize ( )` fill the tables
of the board. -/
theorem boardTables_rowLoops (hS : 3 ≤ S) (T : Statics S) (s : State S) (ω : Rng) :
    BoardTables (rowLoops T s ω) (assignments T s ω) := by
  have hinv := tableInv_rowLoops hS T s ω
  have hT : Located (rowLoops T s ω).statics := hinv.tabled
  have hcells : (assignments T s ω).map Prod.snd = cells S := hinv.cells
  have hgiven : ∀ a ∈ assignments T s ω, a.2 ∈ cells S := by
    intro a ha
    rw [← hcells]
    exact List.mem_map_of_mem ha
  refine ⟨?_, ?_, ?_, ?_, ?_, ?_, ?_, ?_, ?_⟩
  · rw [← length_cells hS]
    exact hinv.ids
  · intro c r
    constructor
    · intro h
      obtain ⟨cell, hcell, hc, hr⟩ := h.exists_cell hS
      rw [← hcells] at hcell
      obtain ⟨a, ha, rfl⟩ := List.mem_map.mp hcell
      exact ⟨a, ha, hc, hr⟩
    · intro h
      obtain ⟨a, ha, rfl, rfl⟩ := h
      exact (mem_cells hS).mp (hgiven a ha)
  · intro a ha
    have hcell : (a.2.1, a.2.2) ∈ cells S := hgiven a ha
    have hin := ((mem_cells hS).mp hcell).inner hS
    omega
  · intro c r hr hnot
    refine hinv.outside c r hr ?_
    intro cell hcell heq
    exact hnot (heq.1 ▸ heq.2 ▸ (mem_cells hS).mp hcell)
  · intro c r h
    obtain ⟨hid, hloc, -⟩ := hT.at'_hexagon hS h
    exact ⟨hid, hloc⟩
  · intro i hi
    obtain ⟨k, hk, rfl, hloc, hid⟩ := hT.exists_position hS hi
    rw [hloc]
    exact ⟨(mem_cells hS).mp (List.getElem_mem hk), hid⟩
  · exact fun i hi => hT.at'_otherEnd hS hi
  · intro i hi
    rw [MaVector.atR_eq]
    exact hT.at'_otherEnd hS hi
  · intro c r h
    obtain ⟨-, -, hother⟩ := hT.at'_hexagon hS h
    rw [MaMatrix.atR_eq]
    exact ⟨hother, rfl⟩

/-- The smallest board. -/
theorem boardTables_small :
    BoardTables (rowLoops smallStatics (new smallStatics .agent) fun _ => 0)
      (assignments smallStatics (new smallStatics .agent) fun _ => 0) :=
  boardTables_rowLoops (by decide) smallStatics (new smallStatics .agent) fun _ => 0

end MctsConnectFour.Oska
