/-
Lines of four, and the four checks of `winner ( )` as tests for them.

A line through a cell is counted in two runs, one to each side of it
(`LineThrough`). A scan measures one run (`scanLine_spec`), the second
scan goes on counting from where the first stopped, and the room check
in between can only skip the second scan when the cells a line would
still need are not on the board. That is the whole of `twoScans_iff`,
which the horizontal check and the two diagonal ones share; each of
them adds what its own room check means. The vertical check has one
scan only, since nothing lies above the last stone.
-/
import MctsConnectFour.ConnectFour.Board

namespace MctsConnectFour.ConnectFour

open MaMatrix (InRange)

variable {NumRows NumCols : Nat}

-- =============================================================== lines

/-- The cell is on the board and holds `p`. -/
def Holds (b : Board NumRows NumCols) (p : Player) (i j : Int) : Prop :=
  InRange NumRows NumCols i j ∧ b.at' i j = p

/-- Four cells holding `p`, from `( row, col )` on in steps of
`( dr, dc )`. -/
def LineFrom (b : Board NumRows NumCols) (p : Player) (dr dc row col : Int) : Prop :=
  ∀ k : Nat, k < 4 → Holds b p (row + k * dr) (col + k * dc)

/-- The four directions of a line. -/
def IsDirection (dr dc : Int) : Prop :=
  (dr = 0 ∧ dc = 1) ∨ (dr = 1 ∧ dc = 0) ∨ (dr = 1 ∧ dc = 1) ∨ (dr = -1 ∧ dc = 1)

/-- Somewhere on the board four cells in a row hold `p`. -/
def HasLine (b : Board NumRows NumCols) (p : Player) : Prop :=
  ∃ dr dc row col, IsDirection dr dc ∧ LineFrom b p dr dc row col

/-- The `n` cells next to `( row, col )` in steps of `( dr, dc )` hold
`p`. -/
def Ray (b : Board NumRows NumCols) (p : Player) (dr dc row col : Int) (n : Nat) : Prop :=
  ∀ k : Nat, 1 ≤ k → k ≤ n → Holds b p (row + k * dr) (col + k * dc)

/-- The cells to both sides of `( row, col )` make it four. -/
def LineThrough (b : Board NumRows NumCols) (p : Player) (dr dc row col : Int) : Prop :=
  ∃ back ahead : Nat, back + ahead = 3
    ∧ Ray b p (-dr) (-dc) row col back ∧ Ray b p dr dc row col ahead

variable {b : Board NumRows NumCols} {p : Player} {dr dc row col : Int}

theorem Ray.mono {n n' : Nat} (h : Ray b p dr dc row col n) (hle : n' ≤ n) :
    Ray b p dr dc row col n' := fun k h1 hk => h k h1 (by omega)

theorem ray_zero : Ray b p dr dc row col 0 := fun k h1 hk => by omega

/-- Steps back and ahead cancel. -/
private theorem cell_shift (x d : Int) (k back : Nat) (h : back ≤ k) :
    x + -(back * d) + k * d = x + ((k - back : Nat) : Int) * d := by
  push_cast [h]
  ring

private theorem cell_shift_back (x d : Int) (k back : Nat) (h : k ≤ back) :
    x + -(back * d) + k * d = x + ((back - k : Nat) : Int) * -d := by
  push_cast [h]
  ring

/-- A line through a cell that holds `p` is a line. -/
theorem LineThrough.lineFrom (hcell : Holds b p row col)
    (h : LineThrough b p dr dc row col) :
    ∃ row' col', LineFrom b p dr dc row' col' := by
  obtain ⟨back, ahead, hsum, hback, hahead⟩ := h
  refine ⟨row + -(back * dr), col + -(back * dc), fun k hk => ?_⟩
  rcases Nat.lt_trichotomy k back with hlt | rfl | hgt
  · rw [cell_shift_back row dr k back hlt.le, cell_shift_back col dc k back hlt.le]
    exact hback (back - k) (by omega) (by omega)
  · rw [cell_shift row dr k k le_rfl, cell_shift col dc k k le_rfl]
    simpa using hcell
  · rw [cell_shift row dr k back hgt.le, cell_shift col dc k back hgt.le]
    exact hahead (k - back) (by omega) (by omega)

/-- A line that contains a cell is a line through it. -/
theorem LineFrom.lineThrough {k : Nat} (hk : k < 4) (h : LineFrom b p dr dc row col) :
    LineThrough b p dr dc (row + k * dr) (col + k * dc) := by
  refine ⟨k, 3 - k, by omega, fun i hi hik => ?_, fun i hi hik => ?_⟩
  · have hcell := h (k - i) (by omega)
    have hcast : ((k - i : Nat) : Int) = (k : Int) - i := by omega
    rw [hcast] at hcell
    rw [show row + k * dr + i * -dr = row + ((k : Int) - i) * dr by ring,
      show col + k * dc + i * -dc = col + ((k : Int) - i) * dc by ring]
    exact hcell
  · have hcell := h (k + i) (by omega)
    rw [show row + k * dr + i * dr = row + ((k + i : Nat) : Int) * dr by push_cast; ring,
      show col + k * dc + i * dc = col + ((k + i : Nat) : Int) * dc by push_cast; ring]
    exact hcell

-- =============================================================== scans

/-- A scan with fuel to spare counts the cells up to the first that is
outside or does not hold `p`. -/
theorem scan_spec (inside : Int → Int → Bool) (n : Nat) :
    ∀ {fuel : Nat} (row col counter : Int), n ≤ fuel →
      (counter + n ≤ scan b p inside dr dc fuel row col counter
        ↔ ∀ k : Nat, k < n →
            inside (row + k * dr) (col + k * dc) = true
              ∧ b.at' (row + k * dr) (col + k * dc) = p) := by
  induction n with
  | zero =>
      intro fuel row col counter _
      have hge : ∀ (f : Nat) (row col counter : Int),
          counter ≤ scan b p inside dr dc f row col counter := by
        intro f
        induction f with
        | zero => intro row col counter; exact le_rfl
        | succ f ih =>
            intro row col counter
            rw [scan]
            split
            · have := ih (row + dr) (col + dc) (counter + 1)
              omega
            · exact le_rfl
      simpa using hge fuel row col counter
  | succ n ih =>
      intro fuel row col counter hfuel
      obtain ⟨f, rfl⟩ : ∃ f, fuel = f + 1 := ⟨fuel - 1, by omega⟩
      rw [scan]
      by_cases hcell : inside row col = true ∧ b.at' row col = p
      · rw [if_pos (by simpa using hcell)]
        have hrec := ih (row + dr) (col + dc) (counter + 1) (Nat.le_of_succ_le_succ hfuel)
        rw [show counter + ((n + 1 : Nat) : Int) = counter + 1 + n by push_cast; ring, hrec]
        constructor
        · intro h k hk
          cases k with
          | zero => simpa using hcell
          | succ k =>
              have hk' := h k (by omega)
              rw [show row + ((k + 1 : Nat) : Int) * dr = row + dr + k * dr by push_cast; ring,
                show col + ((k + 1 : Nat) : Int) * dc = col + dc + k * dc by push_cast; ring]
              exact hk'
        · intro h k hk
          have hk' := h (k + 1) (by omega)
          rwa [show row + ((k + 1 : Nat) : Int) * dr = row + dr + k * dr by push_cast; ring,
            show col + ((k + 1 : Nat) : Int) * dc = col + dc + k * dc by push_cast; ring] at hk'
      · rw [if_neg (by simpa using hcell)]
        constructor
        · intro h
          push_cast at h
          omega
        · intro h
          exact absurd (by simpa using h 0 (by omega)) hcell

/-- No scan counts past its fuel. -/
theorem scan_le (inside : Int → Int → Bool) (dr dc : Int) :
    ∀ (fuel : Nat) (row col counter : Int),
      scan b p inside dr dc fuel row col counter ≤ counter + fuel := by
  intro fuel
  induction fuel with
  | zero => intro row col counter; simp [scan]
  | succ fuel ih =>
      intro row col counter
      rw [scan]
      split
      · have := ih (row + dr) (col + dc) (counter + 1)
        push_cast
        omega
      · push_cast
        omega

/-- A guard that tells, along the scanned cells, whether they are on the
board. -/
def Guards (NumRows NumCols : Nat) (inside : Int → Int → Bool) (dr dc row col : Int) : Prop :=
  ∀ k : Nat, k ≤ NumRows + NumCols →
    (inside (row + k * dr) (col + k * dc) = true
      ↔ InRange NumRows NumCols (row + k * dr) (col + k * dc))

/-- A scan that starts next to `( row, col )` measures the ray. -/
theorem scanLine_spec (inside : Int → Int → Bool) {dr dc : Int} (row col : Int)
    (hdir : dr ≠ 0 ∨ dc ≠ 0)
    (hg : Guards NumRows NumCols inside dr dc (row + dr) (col + dc)) (counter : Int) (n : Nat) :
    counter + n ≤ scanLine b p inside dr dc (row + dr) (col + dc) counter
      ↔ Ray b p dr dc row col n := by
  have hray : Ray b p dr dc row col n ↔ ∀ k : Nat, k < n →
      Holds b p (row + dr + k * dr) (col + dc + k * dc) := by
    constructor
    · intro h k hk
      have hk' := h (k + 1) (by omega) (by omega)
      rwa [show row + ((k + 1 : Nat) : Int) * dr = row + dr + k * dr by push_cast; ring,
        show col + ((k + 1 : Nat) : Int) * dc = col + dc + k * dc by push_cast; ring] at hk'
    · intro h k hk hkn
      obtain ⟨k, rfl⟩ : ∃ k', k = k' + 1 := ⟨k - 1, by omega⟩
      have hk' := h k (by omega)
      rwa [show row + ((k + 1 : Nat) : Int) * dr = row + dr + k * dr by push_cast; ring,
        show col + ((k + 1 : Nat) : Int) * dc = col + dc + k * dc by push_cast; ring]
  rw [hray]
  unfold scanLine
  by_cases hn : n ≤ NumRows + NumCols
  · rw [scan_spec inside n _ _ _ hn]
    constructor
    · intro h k hk
      exact ⟨(hg k (by omega)).mp (h k hk).1, (h k hk).2⟩
    · intro h k hk
      exact ⟨(hg k (by omega)).mpr (h k hk).1, (h k hk).2⟩
  · -- no ray is longer than the board is wide and high
    have hle := scan_le (b := b) (p := p) inside dr dc (NumRows + NumCols) (row + dr) (col + dc)
      counter
    refine iff_of_false (by omega) fun h => ?_
    have hfirst := (h 0 (by omega)).1
    have hlast := (h (NumRows + NumCols) (by omega)).1
    simp only [InRange] at hfirst hlast
    push_cast at hfirst hlast
    have hfar : ∀ d : Int, d ≠ 0 → ((NumRows : Int) + NumCols) * d ≤ -(NumRows + NumCols)
        ∨ (NumRows : Int) + NumCols ≤ ((NumRows : Int) + NumCols) * d := by
      intro d hd
      rcases lt_or_gt_of_ne hd with hneg | hpos
      · exact Or.inl (by nlinarith [show (0 : Int) ≤ NumRows + NumCols by omega])
      · exact Or.inr (by nlinarith [show (0 : Int) ≤ NumRows + NumCols by omega])
    rcases hdir with hd | hd
    · rcases hfar dr hd with hd | hd <;> omega
    · rcases hfar dc hd with hd | hd <;> omega

-- ============================================================== checks

/-- A first scan that leaves `counter` and a second that goes on from
it find a line exactly when there is one. -/
theorem twoScans_iff {counter total : Int}
    (hback : ∀ n : Nat, 1 + n ≤ counter ↔ Ray b p (-dr) (-dc) row col n)
    (hahead : ∀ n : Nat, counter + n ≤ total ↔ Ray b p dr dc row col n) :
    total > 3 ↔ LineThrough b p dr dc row col := by
  have hone : 1 ≤ counter := by simpa using (hback 0).mpr ray_zero
  constructor
  · intro htotal
    by_cases hfour : 4 ≤ counter
    · exact ⟨3, 0, rfl, (hback 3).mp (by omega), ray_zero⟩
    · obtain ⟨k, hk⟩ := Int.eq_ofNat_of_zero_le (show 0 ≤ counter - 1 by omega)
      exact ⟨k, 3 - k, by omega, (hback k).mp (by omega), (hahead (3 - k)).mp (by omega)⟩
  · intro h
    obtain ⟨back, ahead, hsum, h₁, h₂⟩ := h
    have h₁' := (hback back).mpr h₁
    have h₂' := (hahead ahead).mpr h₂
    omega

/-- What a line through the cell still needs ahead is on the board. -/
theorem LineThrough.room {counter : Int} (hcounter : counter < 4)
    (hback : ∀ n : Nat, 1 + n ≤ counter ↔ Ray b p (-dr) (-dc) row col n)
    (h : LineThrough b p dr dc row col) :
    InRange NumRows NumCols (row + (4 - counter) * dr) (col + (4 - counter) * dc) := by
  obtain ⟨back, ahead, hsum, h₁, h₂⟩ := h
  have h₁' := (hback back).mpr h₁
  obtain ⟨k, hk⟩ := Int.eq_ofNat_of_zero_le (show 0 ≤ 4 - counter by omega)
  rw [hk]
  exact (h₂ k (by omega) (by omega)).1

/-- The unsigned comparison of an index with a bound that may have
wrapped around. -/
theorem sizeT_lt_iff {x y : Int} (hx : 0 ≤ x) (hx' : x < 4294967296)
    (hy : -4294967296 < y) (hy' : y < 4294967296) :
    sizeT x < sizeT y ↔ y < 0 ∨ x < y := by
  unfold sizeT
  omega

theorem sizeT_lt_nat_iff {x : Int} {n : Nat} (hx : 0 ≤ x) (hx' : x < 4294967296) :
    sizeT x < n ↔ x < n := by
  unfold sizeT
  omega

/-- A first scan behind a guard that is down only when there is nothing
to scan. -/
private theorem guardedScan_spec (inside : Int → Int → Bool) (guard : Prop) [Decidable guard]
    {dr dc : Int} (row col : Int) (hdir : dr ≠ 0 ∨ dc ≠ 0)
    (hguard : ¬ guard → ¬ InRange NumRows NumCols (row + dr) (col + dc))
    (hg : Guards NumRows NumCols inside dr dc (row + dr) (col + dc)) (n : Nat) :
    1 + n ≤ (if guard then scanLine b p inside dr dc (row + dr) (col + dc) 1 else 1)
      ↔ Ray b p dr dc row col n := by
  by_cases h : guard
  · rw [if_pos h]
    exact scanLine_spec inside row col hdir hg 1 n
  · rw [if_neg h]
    constructor
    · intro hn k h1 hk
      omega
    · intro hray
      by_contra hn
      have hfirst := (hray 1 le_rfl (by omega)).1
      rw [show row + ((1 : Nat) : Int) * dr = row + dr by push_cast; ring,
        show col + ((1 : Nat) : Int) * dc = col + dc by push_cast; ring] at hfirst
      exact hguard h hfirst

/-- No first scan counts past the length of the board. -/
private theorem guardedScan_le (inside : Int → Int → Bool) (guard : Prop) [Decidable guard]
    (dr dc row col : Int) :
    (if guard then scanLine b p inside dr dc row col 1 else 1) ≤ 1 + (NumRows + NumCols) := by
  split
  · exact_mod_cast scan_le inside dr dc (NumRows + NumCols) row col 1
  · omega

/-- A check is a room check, up when there is room for what a line still
needs ahead, and a second scan that goes on from the first. -/
theorem check_iff {room : Bool} {counter total : Int}
    (hback : ∀ n : Nat, 1 + n ≤ counter ↔ Ray b p (-dr) (-dc) row col n)
    (hahead : ∀ n : Nat, counter + n ≤ total ↔ Ray b p dr dc row col n)
    (hroom : (counter < 4 →
      InRange NumRows NumCols (row + (4 - counter) * dr) (col + (4 - counter) * dc)) →
        room = true) :
    (room && decide (total > 3)) = true ↔ LineThrough b p dr dc row col := by
  rw [Bool.and_eq_true, decide_eq_true_eq, twoScans_iff hback hahead]
  constructor
  · intro h
    exact h.2
  · intro hline
    exact ⟨hroom fun hfour => hline.room hfour hback, hline⟩

section Checks

variable (hcell : Holds b p row col) (hrows : NumRows ≤ 255) (hcols : NumCols ≤ 255)

include hcell hrows hcols

/-- The horizontal check finds the horizontal lines. -/
theorem horizontal_iff :
    horizontal b p ⟨row, col⟩ = true ↔ LineThrough b p 0 1 row col := by
  obtain ⟨⟨hr, hr', hc, hc'⟩, -⟩ := hcell
  unfold horizontal
  simp only
  have hle := guardedScan_le (b := b) (p := p) (fun _ col => decide (col ≥ 0)) (col > 0)
    0 (-1) row (col - 1)
  have hback : ∀ n : Nat, 1 + n ≤ (if col > 0 then
      scanLine b p (fun _ col => decide (col ≥ 0)) 0 (-1) row (col - 1) 1 else 1)
        ↔ Ray b p (-0) (-1) row col n := by
    intro n
    have h := guardedScan_spec (b := b) (p := p) (fun _ col => decide (col ≥ 0)) (col > 0)
      row col (by decide : (0 : Int) ≠ 0 ∨ (-1 : Int) ≠ 0)
      (by intro hcol; unfold InRange; omega)
      (by intro k hk; simp only [InRange, decide_eq_true_eq]; omega) n
    rwa [add_zero, ← sub_eq_add_neg] at h
  generalize (if col > 0 then
      scanLine b p (fun _ col => decide (col ≥ 0)) 0 (-1) row (col - 1) 1 else 1) = counter
    at hback hle ⊢
  refine check_iff hback (fun n => ?_) fun hin => ?_
  · have h := scanLine_spec (b := b) (p := p) (fun _ col => decide (sizeT col < NumCols)) row col
      (by decide : (0 : Int) ≠ 0 ∨ (1 : Int) ≠ 0)
      (by
        intro k hk
        simp only [decide_eq_true_eq]
        rw [sizeT_lt_nat_iff (by omega) (by omega)]
        unfold InRange
        omega) counter n
    rwa [add_zero] at h
  · rw [decide_eq_true_eq, sizeT_lt_iff hc (by omega)
      (by have := (hback 0).mpr ray_zero; omega) (by omega)]
    unfold InRange at hin
    omega

/-- The vertical check finds the vertical lines, because nothing of the
kind lies above the cell. -/
theorem vertical_iff (habove : ¬ Holds b p (row - 1) col) :
    vertical b p ⟨row, col⟩ = true ↔ LineThrough b p 1 0 row col := by
  obtain ⟨⟨hr, hr', hc, hc'⟩, -⟩ := hcell
  unfold vertical
  simp only
  have hback : ∀ n : Nat, 1 + n ≤ (1 : Int) ↔ Ray b p (-1) (-0) row col n := by
    intro n
    constructor
    · intro hn k h1 hk
      omega
    · intro hray
      by_contra hn
      have hfirst := hray 1 le_rfl (by omega)
      rw [show row + ((1 : Nat) : Int) * -1 = row - 1 by push_cast; ring,
        show col + ((1 : Nat) : Int) * -0 = col by push_cast; ring] at hfirst
      exact habove hfirst
  refine check_iff hback (fun n => ?_) fun hin => ?_
  · have h := scanLine_spec (b := b) (p := p) (fun row _ => decide (sizeT row < NumRows)) row col
      (by decide : (1 : Int) ≠ 0 ∨ (0 : Int) ≠ 0)
      (by
        intro k hk
        simp only [decide_eq_true_eq]
        rw [sizeT_lt_nat_iff (by omega) (by omega)]
        unfold InRange
        omega) 1 n
    rwa [add_zero] at h
  · rw [decide_eq_true_eq, sizeT_lt_iff hr (by omega) (by omega) (by omega)]
    have hin := hin (by decide)
    unfold InRange at hin
    omega

/-- The check from nw to se finds the diagonals that fall to the
right. -/
theorem diagonalNwSe_iff :
    diagonalNwSe b p ⟨row, col⟩ = true ↔ LineThrough b p 1 1 row col := by
  obtain ⟨⟨hr, hr', hc, hc'⟩, -⟩ := hcell
  unfold diagonalNwSe
  simp only
  have hle := guardedScan_le (b := b) (p := p)
    (fun row col => decide (row ≥ 0) && decide (col ≥ 0))
    ((decide (row > 0) && decide (col > 0)) = true) (-1) (-1) (row - 1) (col - 1)
  have hback : ∀ n : Nat, 1 + n ≤ (if (decide (row > 0) && decide (col > 0)) = true then
      scanLine b p (fun row col => decide (row ≥ 0) && decide (col ≥ 0)) (-1) (-1)
        (row - 1) (col - 1) 1 else 1) ↔ Ray b p (-1) (-1) row col n := by
    intro n
    exact guardedScan_spec (fun row col => decide (row ≥ 0) && decide (col ≥ 0)) _ row col
      (by decide)
      (by
        simp only [Bool.and_eq_true, decide_eq_true_eq]
        unfold InRange
        omega)
      (by
        intro k hk
        simp only [InRange, Bool.and_eq_true, decide_eq_true_eq]
        omega) n
  generalize (if (decide (row > 0) && decide (col > 0)) = true then
      scanLine b p (fun row col => decide (row ≥ 0) && decide (col ≥ 0)) (-1) (-1)
        (row - 1) (col - 1) 1 else 1) = counter at hback hle ⊢
  have hone := (hback 0).mpr ray_zero
  refine check_iff hback (fun n => ?_) fun hin => ?_
  · exact scanLine_spec
      (fun row col => decide (sizeT row < NumRows) && decide (sizeT col < NumCols)) row col
      (by decide)
      (by
        intro k hk
        simp only [Bool.and_eq_true, decide_eq_true_eq]
        rw [sizeT_lt_nat_iff (by omega) (by omega), sizeT_lt_nat_iff (by omega) (by omega)]
        unfold InRange
        omega) counter n
  · rw [Bool.and_eq_true, decide_eq_true_eq, decide_eq_true_eq,
      sizeT_lt_iff hr (by omega) (by omega) (by omega),
      sizeT_lt_iff hc (by omega) (by omega) (by omega)]
    unfold InRange at hin
    omega

/-- The check from sw to ne finds the diagonals that rise to the
right. -/
theorem diagonalSwNe_iff :
    diagonalSwNe b p ⟨row, col⟩ = true ↔ LineThrough b p (-1) 1 row col := by
  obtain ⟨⟨hr, hr', hc, hc'⟩, -⟩ := hcell
  unfold diagonalSwNe
  simp only
  have hle := guardedScan_le (b := b) (p := p)
    (fun row col => decide (sizeT row < NumRows) && decide (col ≥ 0))
    ((decide (sizeT row < sizeT (NumRows - 1)) && decide (col > 0)) = true) 1 (-1) (row + 1)
    (col - 1)
  have hback : ∀ n : Nat,
      1 + n ≤ (if (decide (sizeT row < sizeT (NumRows - 1)) && decide (col > 0)) = true then
        scanLine b p (fun row col => decide (sizeT row < NumRows) && decide (col ≥ 0)) 1 (-1)
          (row + 1) (col - 1) 1 else 1) ↔ Ray b p (- -1) (-1) row col n := by
    intro n
    rw [neg_neg]
    exact guardedScan_spec (fun row col => decide (sizeT row < NumRows) && decide (col ≥ 0)) _
      row col (by decide)
      (by
        rw [Bool.and_eq_true, decide_eq_true_eq, decide_eq_true_eq,
          sizeT_lt_iff hr (by omega) (by omega) (by omega)]
        unfold InRange
        omega)
      (by
        intro k hk
        rw [Bool.and_eq_true, decide_eq_true_eq, decide_eq_true_eq,
          sizeT_lt_nat_iff (by omega) (by omega)]
        unfold InRange
        omega) n
  generalize (if (decide (sizeT row < sizeT (NumRows - 1)) && decide (col > 0)) = true then
      scanLine b p (fun row col => decide (sizeT row < NumRows) && decide (col ≥ 0)) 1 (-1)
        (row + 1) (col - 1) 1 else 1) = counter at hback hle ⊢
  have hone := (hback 0).mpr ray_zero
  refine check_iff hback (fun n => ?_) fun hin => ?_
  · exact scanLine_spec (fun row col => decide (row ≥ 0) && decide (sizeT col < NumCols)) row col
      (by decide)
      (by
        intro k hk
        simp only [Bool.and_eq_true, decide_eq_true_eq]
        rw [sizeT_lt_nat_iff (by omega) (by omega)]
        unfold InRange
        omega) counter n
  · rw [Bool.and_eq_true, decide_eq_true_eq, decide_eq_true_eq,
      sizeT_lt_iff hc (by omega) (by omega) (by omega)]
    unfold InRange at hin
    omega

end Checks

end MctsConnectFour.ConnectFour
