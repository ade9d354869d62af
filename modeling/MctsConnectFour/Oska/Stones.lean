/-
The stones of Oska, read off the board.

The stone lists and home counters of a state are the program's own record
of what the boards show. `stonesOn` are the hexagons on which a player has a
stone, in that player's perspective; the lists name the same cells in some
order (`Viewed.stoneId_perm`), so numbers and sums over the lists are
numbers and sums over the board.

`rowsToGo` is what a player has left to go. A move takes the mover
forward, and may take a stone of the other off the board, so it falls
(`Coherent.remaining_place`).
-/
import Mathlib.Algebra.Order.BigOperators.Group.List
import MctsConnectFour.Oska.Coherence

namespace MctsConnectFour.Oska

variable {S : Nat} {T : Statics S} {s t : State S} {m : Move} {d : Int} {p : Player}

-- =============================================================== stones

/-- The hexagons with a stone of `p`. -/
def stonesOn (s : State S) (p : Player) : List (Nat × Nat) :=
  (cells S).filter fun cell => (s.board p).at' cell.1 cell.2 = p

theorem stonesOn_congr (h : t.board p = s.board p) : stonesOn t p = stonesOn s p := by
  unfold stonesOn
  rw [h]

theorem mem_stonesOn (hS : 3 ≤ S) {cell : Nat × Nat} :
    cell ∈ stonesOn s p ↔ Hexagon S cell.1 cell.2 ∧ (s.board p).at' cell.1 cell.2 = p := by
  unfold stonesOn
  rw [List.mem_filter, decide_eq_true_eq, mem_cells hS]

section Viewed

variable (hS : 3 ≤ S) (hT : Located T) (hp : p.IsSide) (hv : Viewed T s p)

include hS hT hp hv

/-- The stone list names the stones on the board. -/
theorem Viewed.stoneId_perm :
    (s.stoneId p).Perm ((stonesOn s p).map fun cell => T.idAt p cell.1 cell.2) := by
  have hnodup : ((stonesOn s p).map fun cell => T.idAt p cell.1 cell.2).Nodup := by
    apply List.Nodup.map_on
    · intro cell hcell cell' hcell' heq
      obtain ⟨hc, hr⟩ := hT.idAt_inj hS hp ((mem_stonesOn hS).mp hcell).1
        ((mem_stonesOn hS).mp hcell').1 heq
      exact Prod.ext (by exact_mod_cast hc) (by exact_mod_cast hr)
    · exact (cells_nodup hS).filter _
  apply (List.perm_ext_iff_of_nodup hv.nodup hnodup).mpr
  intro id
  rw [hv.stones, List.mem_map]
  constructor
  · intro h
    obtain ⟨c, r, hhex, hat, rfl⟩ := h
    obtain ⟨cell, -, rfl, rfl⟩ := hhex.exists_cell hS
    exact ⟨cell, (mem_stonesOn hS).mpr ⟨hhex, hat⟩, rfl⟩
  · intro h
    obtain ⟨cell, hcell, rfl⟩ := h
    obtain ⟨hhex, hat⟩ := (mem_stonesOn hS).mp hcell
    exact ⟨_, _, hhex, hat, rfl⟩

theorem Viewed.length_stonesOn : (stonesOn s p).length = (s.stoneId p).length := by
  rw [(hv.stoneId_perm hS hT hp).length_eq, List.length_map]

theorem Viewed.stonesOn_eq_nil_iff : stonesOn s p = [] ↔ s.stoneId p = [] := by
  rw [← List.length_eq_zero_iff, ← List.length_eq_zero_iff, hv.length_stonesOn hS hT hp]

end Viewed

-- ============================================================= distances

/-- The rows the stones of `p` still have to go to its home row. -/
def rowsToGo (s : State S) (p : Player) : Nat :=
  ((stonesOn s p).map fun cell => obHomeRow S - cell.2).sum

/-- The rows all stones on the board still have to go. -/
def remaining (s : State S) : Nat := rowsToGo s .agent + rowsToGo s .human

/-- An element taken out of a sum. -/
theorem sum_map_erase {α : Type} [DecidableEq α] (f : α → Nat) {l : List α} {a : α}
    (ha : a ∈ l) : ((l.erase a).map f).sum + f a = (l.map f).sum := by
  rw [((List.perm_cons_erase ha).map f).sum_eq, List.map_cons, List.sum_cons, Nat.add_comm]

/-- A sum over the locations of the stones of `p`. -/
def sumStones (T : Statics S) (s : State S) (f : Location → Nat) (p : Player) : Nat :=
  ((s.stoneId p).map fun id => f (T.locationOf p id)).sum

section Step

variable (hS : 3 ≤ S) (hT : Located T)

include hS hT

/-- What falls along a move falls for the mover's stones together, and
does not rise for the other's. -/
theorem Coherent.sumStones_place (h : Coherent T s) (hm : Steps s s.playerToMove m d)
    {f : Location → Nat} (hf : f m.mTo < f m.mFrom) :
    sumStones T (s.place T m) f s.playerToMove < sumStones T s f s.playerToMove
      ∧ sumStones T (s.place T m) f s.playerToMove.opponent
        ≤ sumStones T s f s.playerToMove.opponent := by
  have hpl := h.placed hS hT hm
  obtain ⟨hto, -⟩ := hm.geometry hS h.side (h.viewed _ h.side)
  unfold sumStones
  constructor
  · have hsum := sum_map_erase (fun id => f (T.locationOf s.playerToMove id)) hpl.from_mem
    rw [hT.locationOf_idAt hS h.side hm.hexagon] at hsum
    rw [(hpl.own.map _).sum_eq, List.map_cons, List.sum_cons, ← hsum,
      hT.locationOf_idAt hS h.side hto, Nat.add_comm]
    exact Nat.add_lt_add_left hf _
  · rw [hpl.other]
    split
    · next hcap =>
        have hsum := sum_map_erase (fun id => f (T.locationOf s.playerToMove.opponent id))
          (hpl.captured_mem hcap)
        omega
    · exact le_rfl

/-- The same for both players together. -/
theorem Coherent.sumStones_total (h : Coherent T s) (hm : Steps s s.playerToMove m d)
    {f : Location → Nat} (hf : f m.mTo < f m.mFrom) :
    sumStones T (s.place T m) f .agent + sumStones T (s.place T m) f .human
      < sumStones T s f .agent + sumStones T s f .human := by
  obtain ⟨hown, hother⟩ := h.sumStones_place hS hT hm hf
  cases h.side with
  | inl hp =>
      rw [hp] at hown hother
      simp only [Player.opponent] at hother
      omega
  | inr hp =>
      rw [hp] at hown hother
      simp only [Player.opponent] at hother
      omega

omit hT in
/-- A move goes forward, and not beyond the home row. -/
theorem Steps.advance (hp : p.IsSide) (hv : Viewed T s p) (hm : Steps s p m d) :
    m.mFrom.r < m.mTo.r ∧ m.mTo.r ≤ obHomeRow S := by
  obtain ⟨hto, hkind⟩ := hm.geometry hS hp hv
  refine ⟨?_, hto.2.1⟩
  cases hkind with
  | inl hstep =>
      rw [hstep.2]
      exact lt_add_one _
  | inr hjump =>
      rw [hjump.2.1]
      exact lt_add_of_pos_right _ (by decide)

/-- The rows to go, summed over the stone list. -/
theorem Viewed.rowsToGo_eq (hp : p.IsSide) (hv : Viewed T s p) :
    rowsToGo s p = sumStones T s (fun l => (obHomeRow S - l.r).toNat) p := by
  unfold rowsToGo sumStones
  rw [((hv.stoneId_perm hS hT hp).map _).sum_eq, List.map_map]
  congr 1
  apply List.map_congr_left
  intro cell hcell
  show _ = ((obHomeRow S : Int) - (T.locationOf p (T.idAt p cell.1 cell.2)).r).toNat
  rw [hT.locationOf_idAt hS hp ((mem_stonesOn hS).mp hcell).1]
  simp

/-- A move brings the game closer to its end. -/
theorem Coherent.remaining_place (h : Coherent T s) (hm : Steps s s.playerToMove m d) :
    remaining (s.place T m) < remaining s := by
  obtain ⟨hlt, hle⟩ := hm.advance hS h.side (h.viewed _ h.side)
  have hplaced := h.place hS hT hm
  unfold remaining
  rw [(h.viewed _ (Or.inl rfl)).rowsToGo_eq hS hT (Or.inl rfl),
    (h.viewed _ (Or.inr rfl)).rowsToGo_eq hS hT (Or.inr rfl),
    (hplaced.viewed _ (Or.inl rfl)).rowsToGo_eq hS hT (Or.inl rfl),
    (hplaced.viewed _ (Or.inr rfl)).rowsToGo_eq hS hT (Or.inr rfl)]
  apply h.sumStones_total hS hT hm
  omega

/-- Every listed move does, however it is made. -/
theorem Coherent.remaining_apply (h : Coherent T s) (op : Game.MoveOp)
    (hm : m ∈ (game T).legal s) : remaining ((game T).apply op s m) < remaining s := by
  obtain ⟨-, d, hstep⟩ := (mem_legal_iff hS hT h m).mp hm
  obtain ⟨hash, winner, heq⟩ := apply_eq (T := T) (s := s) (m := m) op
  rw [heq]
  exact h.remaining_place hS hT hstep

/-- A player has at most `S` stones, none further from home than at the
start. -/
theorem Viewed.rowsToGo_le (hp : p.IsSide) (hv : Viewed T s p) :
    rowsToGo s p ≤ S * (2 * S - 4) := by
  have hhome : obHomeRow S = 2 * S - 3 := obHomeRow_eq (by omega)
  have hrow : ∀ x ∈ (stonesOn s p).map fun cell => obHomeRow S - cell.2, x ≤ 2 * S - 4 := by
    intro x hx
    obtain ⟨cell, hcell, rfl⟩ := List.mem_map.mp hx
    have hfirst := ((mem_stonesOn hS).mp hcell).1.1
    omega
  have hsum := List.sum_le_card_nsmul _ _ hrow
  rw [List.length_map, Nat.nsmul_eq_mul, hv.length_stonesOn hS hT hp] at hsum
  exact hsum.trans (Nat.mul_le_mul_right _ hv.size)

theorem Coherent.remaining_le (h : Coherent T s) : remaining s ≤ 2 * S * (2 * S - 4) := by
  have hagent := (h.viewed _ (Or.inl rfl)).rowsToGo_le hS hT (Or.inl rfl)
  have hhuman := (h.viewed _ (Or.inr rfl)).rowsToGo_le hS hT (Or.inr rfl)
  calc remaining s ≤ S * (2 * S - 4) + S * (2 * S - 4) := Nat.add_le_add hagent hhuman
    _ = 2 * S * (2 * S - 4) := by ring

end Step

end MctsConnectFour.Oska
