/-
The board of Oska as a set of hexagons: which cells of the rectangle
`OB_COLS` by `OB_ROWS` belong to it, in closed form (`Hexagon`), and
that the two row loops visit exactly these, once each, in an order that
the reflection in the middle of the board reverses. The last is what
lets `at_r` on the id tables stand for a change of perspective.

The order is that of reading, row by row and from left to right
(`Before`). It makes a list of cells determined by its members, and so
the reflection needs no look at the loops again.
-/
import Mathlib.Algebra.BigOperators.Group.List.Basic
import Mathlib.Data.List.Iterate
import Mathlib.Data.List.Sort
import Mathlib.Tactic.Ring
import MctsConnectFour.Oska.Basic

namespace MctsConnectFour.Oska

open MaMatrix (InRange)

variable {S : Nat}

-- ============================================================ hexagons

/-- The cell `( c, r )` is a hexagon: row `r` reaches from its
distance to the nearer of the two borders to the same distance from
the other side, and every other cell of it is skipped. -/
def Hexagon (S : Nat) (c r : Int) : Prop :=
  1 ≤ r ∧ r ≤ obHomeRow S ∧ min r (2 * S - 2 - r) ≤ c ∧ c ≤ 2 * S - min r (2 * S - 2 - r)
    ∧ (c - r) % 2 = 0

instance (S : Nat) (c r : Int) : Decidable (Hexagon S c r) := inferInstanceAs (Decidable (_ ∧ _))

theorem obCols_eq (h : 1 ≤ S) : obCols S = 2 * S + 1 := by
  unfold obCols noCols
  omega

theorem obRows_eq (h : 2 ≤ S) : obRows S = 2 * S - 1 := by
  unfold obRows noRows
  omega

theorem obHomeRow_eq (h : 2 ≤ S) : obHomeRow S = 2 * S - 3 := by
  unfold obHomeRow
  rw [obRows_eq h]
  omega

/-- The order of reading: row by row, and from left to right. -/
def Before (x y : Nat × Nat) : Prop := x.2 < y.2 ∨ x.2 = y.2 ∧ x.1 < y.1

theorem before_irrefl (x : Nat × Nat) : ¬ Before x x := by
  unfold Before
  omega

instance : Std.Irrefl Before := ⟨before_irrefl⟩

instance : Std.Antisymm Before :=
  ⟨fun x y hxy hyx => by
    unfold Before at hxy hyx
    omega⟩

/-- The reflection of a cell in the middle of the board. -/
def reflectCell (S : Nat) (x : Nat × Nat) : Nat × Nat := (obCols S - 1 - x.1, obRows S - 1 - x.2)

section Board

variable (hS : 3 ≤ S)

include hS

/-- Hexagons keep clear of the border. -/
theorem Hexagon.inner {c r : Int} (h : Hexagon S c r) :
    1 ≤ c ∧ c + 1 < obCols S ∧ 1 ≤ r ∧ r + 1 < obRows S := by
  unfold Hexagon at h
  rw [obHomeRow_eq (by omega)] at h
  rw [obCols_eq (by omega), obRows_eq (by omega)]
  omega

theorem Hexagon.inRange {c r : Int} (h : Hexagon S c r) : InRange (obCols S) (obRows S) c r := by
  have := h.inner hS
  unfold InRange
  omega

/-- The reflection in the middle of the board takes hexagons to
hexagons. -/
theorem hexagon_reflect {c r : Int} :
    Hexagon S (obCols S - 1 - c) (obRows S - 1 - r) ↔ Hexagon S c r := by
  unfold Hexagon
  rw [obHomeRow_eq (by omega), obCols_eq (by omega), obRows_eq (by omega)]
  omega

-- ======================================================== visiting order

/-- The cells of the board in the order the row loops visit them; the
position of a cell is its id. -/
def cells (S : Nat) : List (Nat × Nat) := topCells S ++ bottomCells S

omit hS in
theorem mem_rowCells (x : RowLoop) (c r : Nat) :
    (c, r) ∈ x.cells ↔ r = x.r ∧ x.li ≤ c ∧ c < x.ri ∧ (c - x.li) % 2 = 0 := by
  unfold RowLoop.cells
  simp only [List.mem_map, List.mem_range', Prod.mk.injEq]
  constructor
  · intro h
    obtain ⟨_, ⟨i, hi, rfl⟩, rfl, rfl⟩ := h
    omega
  · intro h
    obtain ⟨rfl, hlo, hhi, heven⟩ := h
    exact ⟨c, ⟨(c - x.li) / 2, by omega, by omega⟩, rfl, rfl⟩

omit hS in
theorem narrow_iterate (x : RowLoop) (k : Nat) :
    RowLoop.narrow^[k] x = ⟨x.r + k, x.li + k, x.ri - k⟩ := by
  induction k with
  | zero => rfl
  | succ k ih =>
      rw [Function.iterate_succ_apply', ih]
      simp only [RowLoop.narrow, RowLoop.mk.injEq]
      omega

omit hS in
theorem widen_iterate (x : RowLoop) (k : Nat) :
    RowLoop.widen^[k] x = ⟨x.r + k, x.li - k, x.ri + k⟩ := by
  induction k with
  | zero => rfl
  | succ k ih =>
      rw [Function.iterate_succ_apply', ih]
      simp only [RowLoop.widen, RowLoop.mk.injEq]
      omega

/-- The top loop visits the hexagons of the rows before the middle. -/
theorem mem_topCells {c r : Nat} : (c, r) ∈ topCells S ↔ Hexagon S c r ∧ r + 2 ≤ S := by
  unfold topCells Hexagon
  rw [obHomeRow_eq (by omega), obCols_eq (by omega), obRows_eq (by omega)]
  simp only [List.mem_flatMap, List.mem_iterate, narrow_iterate]
  constructor
  · intro h
    obtain ⟨_, ⟨k, hk, rfl⟩, hmem⟩ := h
    obtain ⟨hr, hlo, hhi, heven⟩ := (mem_rowCells _ c r).mp hmem
    simp only at hr hlo hhi heven
    omega
  · intro h
    obtain ⟨⟨h1, h2, h3, h4, h5⟩, hr⟩ := h
    refine ⟨_, ⟨r - 1, by omega, rfl⟩, (mem_rowCells _ c r).mpr ?_⟩
    simp only
    omega

/-- The bottom loop visits the hexagons from the middle row on. -/
theorem mem_bottomCells {c r : Nat} : (c, r) ∈ bottomCells S ↔ Hexagon S c r ∧ S ≤ r + 1 := by
  unfold bottomCells Hexagon
  rw [obHomeRow_eq (by omega), obCols_eq (by omega), obRows_eq (by omega)]
  simp only [List.mem_flatMap, List.mem_iterate, narrow_iterate, widen_iterate]
  constructor
  · intro h
    obtain ⟨_, ⟨k, hk, rfl⟩, hmem⟩ := h
    obtain ⟨hr, hlo, hhi, heven⟩ := (mem_rowCells _ c r).mp hmem
    simp only at hr hlo hhi heven
    omega
  · intro h
    obtain ⟨⟨h1, h2, h3, h4, h5⟩, hr⟩ := h
    refine ⟨_, ⟨r + 1 - S, by omega, rfl⟩, (mem_rowCells _ c r).mpr ?_⟩
    simp only
    omega

/-- The loops visit the hexagons. -/
theorem mem_cells {c r : Nat} : (c, r) ∈ cells S ↔ Hexagon S c r := by
  unfold cells
  rw [List.mem_append, mem_topCells hS, mem_bottomCells hS, ← and_or_left]
  exact and_iff_left (by omega)

/-- A hexagon has natural coordinates. -/
theorem Hexagon.exists_cell {c r : Int} (h : Hexagon S c r) :
    ∃ cell ∈ cells S, c = (cell.1 : Int) ∧ r = (cell.2 : Int) := by
  obtain ⟨hc, -, hr, -⟩ := h.inner hS
  obtain ⟨c', rfl⟩ := Int.eq_ofNat_of_zero_le (show 0 ≤ c by omega)
  obtain ⟨r', rfl⟩ := Int.eq_ofNat_of_zero_le (show 0 ≤ r by omega)
  exact ⟨(c', r'), (mem_cells hS).mpr h, rfl, rfl⟩

-- ============================================================ the order

omit hS in
/-- A row is visited from left to right. -/
theorem RowLoop.pairwise_cells (x : RowLoop) : x.cells.Pairwise Before := by
  unfold RowLoop.cells
  rw [List.pairwise_map]
  exact (List.pairwise_lt_range' 2).imp fun h => Or.inr ⟨rfl, h⟩

omit hS in
/-- Rows with growing numbers are visited in the order of reading. -/
theorem pairwise_rows {f : Nat → RowLoop} {a : Nat} (hf : ∀ k, (f k).r = a + k) (n : Nat) :
    ((List.range n).flatMap fun k => (f k).cells).Pairwise Before := by
  rw [List.pairwise_flatMap]
  refine ⟨fun k _ => RowLoop.pairwise_cells (f k), List.pairwise_lt_range.imp ?_⟩
  intro k l hkl x hx y hy
  have hxr := ((mem_rowCells _ _ _).mp hx).1
  have hyr := ((mem_rowCells _ _ _).mp hy).1
  rw [hf] at hxr hyr
  left
  omega

/-- The rows of the top loop. -/
theorem topCells_eq :
    topCells S = (List.range (S - 2)).flatMap fun k =>
      RowLoop.cells ⟨1 + k, 1 + k, 2 * S - k⟩ := by
  unfold topCells
  rw [← List.range_map_iterate, List.flatMap_map, obCols_eq (by omega), obRows_eq (by omega)]
  simp only [narrow_iterate]
  rw [show (2 * S - 1) / 2 - 1 = S - 2 by omega, show 2 * S + 1 - 1 = 2 * S by omega]

/-- The rows of the bottom loop. -/
theorem bottomCells_eq :
    bottomCells S = (List.range (S - 1)).flatMap fun k =>
      RowLoop.cells ⟨S - 1 + k, S - 1 - k, S + 2 + k⟩ := by
  unfold bottomCells
  rw [← List.range_map_iterate, List.flatMap_map, obCols_eq (by omega), obRows_eq (by omega)]
  simp only [narrow_iterate, widen_iterate]
  rw [show 2 * S - 1 - 1 - (2 * S - 1) / 2 = S - 1 by omega,
    show 1 + ((2 * S - 1) / 2 - 1) = S - 1 by omega,
    show 2 * S + 1 - 1 - ((2 * S - 1) / 2 - 1) = S + 2 by omega]

/-- The cells are visited in the order of reading. -/
theorem pairwise_cells : (cells S).Pairwise Before := by
  unfold cells
  rw [List.pairwise_append]
  refine ⟨?_, ?_, ?_⟩
  · rw [topCells_eq hS]
    exact pairwise_rows (fun _ => rfl) _
  · rw [bottomCells_eq hS]
    exact pairwise_rows (fun _ => rfl) _
  · intro x hx y hy
    have hxr := ((mem_topCells hS).mp hx).2
    have hyr := ((mem_bottomCells hS).mp hy).2
    left
    omega

/-- No cell is visited twice. -/
theorem cells_nodup : (cells S).Nodup := (pairwise_cells hS).nodup

/-- The cells of one row. -/
theorem filter_row {row : Nat} (hrow : 1 ≤ row) (hrow' : row ≤ obHomeRow S) :
    ((cells S).filter fun cell => cell.2 = row)
      = RowLoop.cells ⟨row, min row (2 * S - 2 - row), 2 * S + 1 - min row (2 * S - 2 - row)⟩ := by
  have hsorted : ((cells S).filter fun cell => cell.2 = row).Pairwise Before :=
    (pairwise_cells hS).filter _
  rw [obHomeRow_eq (by omega)] at hrow'
  have hmem : ∀ x : Nat × Nat, x ∈ ((cells S).filter fun cell => cell.2 = row)
      ↔ x ∈ RowLoop.cells
        ⟨row, min row (2 * S - 2 - row), 2 * S + 1 - min row (2 * S - 2 - row)⟩ := by
    intro x
    rw [List.mem_filter, decide_eq_true_eq, mem_cells hS, mem_rowCells]
    unfold Hexagon
    rw [obHomeRow_eq (by omega)]
    simp only
    omega
  exact List.Subset.antisymm_of_pairwise hsorted (RowLoop.pairwise_cells _)
    (fun x => (hmem x).mp) (fun x => (hmem x).mpr)

-- =========================================================== the number

omit hS in
theorem RowLoop.length_cells (x : RowLoop) : x.cells.length = (x.ri - x.li + 1) / 2 := by
  simp [RowLoop.cells]

omit hS in
/-- The rows of the top get shorter by one. -/
theorem two_mul_sum_top {n : Nat} (hn : n ≤ S) :
    2 * ((List.range n).map fun k => S - k).sum + n * n = n * (2 * S + 1) := by
  induction n with
  | zero => simp
  | succ n ih =>
      rw [List.range_succ, List.map_append, List.sum_append, List.map_singleton,
        List.sum_singleton]
      have hprev := ih (by omega)
      have hexp : (n + 1) * (n + 1) = n * n + 2 * n + 1 := by ring
      have hexp' : (n + 1) * (2 * S + 1) = n * (2 * S + 1) + 2 * S + 1 := by ring
      omega

omit hS in
/-- The rows of the bottom get longer by one. -/
theorem two_mul_sum_bottom (n : Nat) :
    2 * ((List.range n).map fun k => k + 2).sum = n * (n + 3) := by
  induction n with
  | zero => rfl
  | succ n ih =>
      rw [List.range_succ, List.map_append, List.sum_append, List.map_singleton,
        List.sum_singleton, Nat.mul_add, ih]
      ring

omit hS in
/-- The cells of rows of known lengths. -/
private theorem length_rows {n : Nat} {f : Nat → List (Nat × Nat)} {g : Nat → Nat}
    (h : ∀ k < n, (f k).length = g k) :
    ((List.range n).flatMap f).length = ((List.range n).map g).sum := by
  rw [List.length_flatMap]
  congr 1
  exact List.map_congr_left fun k hk => h k (List.mem_range.mp hk)

/-- The closed form of the source counts the cells of the two loops. -/
theorem length_cells : (cells S).length = noHexagons S := by
  have htop : (topCells S).length = ((List.range (S - 2)).map fun k => S - k).sum := by
    rw [topCells_eq hS]
    refine length_rows fun k hk => ?_
    rw [RowLoop.length_cells]
    simp only
    omega
  have hbottom : (bottomCells S).length = ((List.range (S - 1)).map fun k => k + 2).sum := by
    rw [bottomCells_eq hS]
    refine length_rows fun k hk => ?_
    rw [RowLoop.length_cells]
    simp only
    omega
  unfold cells noHexagons
  rw [List.length_append, htop, hbottom]
  obtain ⟨n, rfl⟩ : ∃ n, S = n + 2 := ⟨S - 2, by omega⟩
  have h₁ := two_mul_sum_top (S := n + 2) (n := n) (by omega)
  have h₂ := two_mul_sum_bottom (n + 1)
  have hexp₁ : n * (2 * (n + 2) + 1) = 2 * (n * n) + 5 * n := by ring
  have hexp₂ : (n + 1) * (n + 1 + 3) = n * n + 5 * n + 4 := by ring
  have hexp₃ : (n + 2) * (n + 2 + 1) = n * n + 5 * n + 6 := by ring
  rw [show n + 2 - 2 = n by omega, show n + 2 - 1 = n + 1 by omega]
  omega

-- ======================================================= the reflection

theorem reflectCell_mem {x : Nat × Nat} (hx : x ∈ cells S) :
    reflectCell S x ∈ cells S ∧ reflectCell S (reflectCell S x) = x := by
  have hhex := (mem_cells hS).mp hx
  obtain ⟨-, hc, -, hr⟩ := hhex.inner hS
  refine ⟨(mem_cells hS).mpr ?_, ?_⟩
  · have href := (hexagon_reflect hS).mpr hhex
    show Hexagon S ((obCols S - 1 - x.1 : Nat) : Int) ((obRows S - 1 - x.2 : Nat) : Int)
    rwa [show ((obCols S - 1 - x.1 : Nat) : Int) = obCols S - 1 - x.1 by omega,
      show ((obRows S - 1 - x.2 : Nat) : Int) = obRows S - 1 - x.2 by omega]
  · unfold reflectCell
    refine Prod.ext ?_ ?_
    · show obCols S - 1 - (obCols S - 1 - x.1) = x.1
      omega
    · show obRows S - 1 - (obRows S - 1 - x.2) = x.2
      omega

/-- Reflected, the cells come in the opposite order. -/
theorem reverse_cells :
    (cells S).reverse = (cells S).map fun x => (obCols S - 1 - x.1, obRows S - 1 - x.2) := by
  have hsorted : ((cells S).map (reflectCell S)).reverse.Pairwise Before := by
    rw [List.pairwise_reverse, List.pairwise_map]
    refine (pairwise_cells hS).imp_of_mem ?_
    intro x y hx hy hxy
    obtain ⟨-, hcx, -, hrx⟩ := ((mem_cells hS).mp hx).inner hS
    obtain ⟨-, hcy, -, hry⟩ := ((mem_cells hS).mp hy).inner hS
    unfold Before reflectCell at *
    simp only
    omega
  have heq : cells S = ((cells S).map (reflectCell S)).reverse := by
    refine List.Subset.antisymm_of_pairwise (pairwise_cells hS) hsorted ?_ ?_
    · intro x hx
      obtain ⟨hmem, hback⟩ := reflectCell_mem hS hx
      exact List.mem_reverse.mpr (List.mem_map.mpr ⟨_, hmem, hback⟩)
    · intro x hx
      obtain ⟨y, hy, rfl⟩ := List.mem_map.mp (List.mem_reverse.mp hx)
      exact (reflectCell_mem hS hy).1
  calc (cells S).reverse = ((cells S).map (reflectCell S)).reverse.reverse := by rw [← heq]
    _ = (cells S).map (reflectCell S) := List.reverse_reverse _

/-- The cell with the id counted from the other end is the
reflection. -/
theorem cells_reflect {i : Nat} (hi : i < (cells S).length)
    (hi' : (cells S).length - 1 - i < (cells S).length) :
    (cells S)[(cells S).length - 1 - i]
      = (obCols S - 1 - (cells S)[i].1, obRows S - 1 - (cells S)[i].2) := by
  have hget := congrArg (fun l => l[i]?) (reverse_cells hS)
  simp only [List.getElem?_map, List.getElem?_eq_getElem hi, Option.map_some] at hget
  rw [List.getElem?_reverse hi, List.getElem?_eq_getElem hi'] at hget
  exact Option.some.inj hget

end Board

end MctsConnectFour.Oska
