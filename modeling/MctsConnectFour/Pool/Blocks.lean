/-
Sizes and blocks.

A block yields one chunk: `m_last_slot` is one `chunk_size` behind the
first slot, and `m_current_slot` moves on by `ChunkCount` slots, which are
no smaller than elements (`Params.Valid.slotSize_bounds`). So a chunk is
the first slot of its block. It lies inside the block as soon as the size
of the block has been computed without wrapping around (`Params.Fits`):
`Owned.firstSlot`.
-/
import Mathlib.Data.Nat.ModEq
import Mathlib.Algebra.Order.Ring.Nat
import Mathlib.Tactic.IntervalCases
import MctsConnectFour.Pool.Basic

namespace MctsConnectFour.Pool

variable {P : Params} {fuel : Nat}

-- ============================================================== sizes

namespace Params

/-- The size that is computed for a block is what it should be. -/
def Fits (P : Params) : Prop := pointerSize + P.minAlloc * P.chunkBytes + P.align < wordRange

theorem Valid.chunkBytes_le (hP : P.Valid) : P.chunkBytes ≤ P.minAlloc * P.chunkBytes :=
  Nat.le_mul_of_pos_left _ hP.minAlloc

theorem Valid.chunkBytes_pos (hP : P.Valid) : 0 < P.chunkBytes :=
  Nat.mul_pos hP.chunkCount hP.size.1

theorem Valid.chunkSize_eq (hP : P.Valid) (hfit : P.Fits) : P.chunkSize = P.chunkBytes := by
  have hle := hP.chunkBytes_le
  unfold Fits at hfit
  exact Nat.mod_eq_of_lt (show P.chunkBytes < wordRange by omega)

/-- A block has room for its header, a chunk and the padding. -/
theorem Valid.minimumRequired_le (hP : P.Valid) (hfit : P.Fits) :
    pointerSize + P.chunkBytes + P.align ≤ P.minimumRequired := by
  have hle := hP.chunkBytes_le
  unfold minimumRequired
  rw [hP.chunkSize_eq hfit, Nat.mod_eq_of_lt hfit]
  omega

theorem blockSize_le {bs : Nat} (h : P.blockSize fuel = some bs) : P.minimumRequired ≤ bs := by
  have hexit := Loops.whileLoop_inv (I := fun _ => True) (fun _ _ _ _ _ => trivial) trivial h
  simpa using hexit.2

theorem Valid.slotAlign_cases (hP : P.Valid) :
    (P.slotAlign = P.align ∧ 8 ∣ P.align) ∨ (P.slotAlign = 8 ∧ P.align ≤ 4) := by
  obtain ⟨k, hk, _⟩ := hP.align
  unfold slotAlign pointerSize
  rw [hk]
  rcases Nat.lt_or_ge k 3 with hlt | hge
  · right
    interval_cases k <;> decide
  · left
    have hdvd : 2 ^ 3 ∣ 2 ^ k := pow_dvd_pow 2 hge
    exact ⟨max_eq_left (Nat.le_of_dvd (Nat.two_pow_pos k) hdvd), hdvd⟩

/-- The alignment of the slots divides the range of the pointers. -/
theorem Valid.slotAlign_dvd (hP : P.Valid) : P.slotAlign ∣ wordRange := by
  rcases hP.slotAlign_cases with ⟨heq, _⟩ | ⟨heq, _⟩
  · obtain ⟨k, hk, hlt⟩ := hP.align
    rw [heq, hk]
    exact pow_dvd_pow 2 (Nat.le_of_lt hlt)
  · rw [heq]
    decide

/-- A slot is at least as large as an element, and at most eight times. -/
theorem Valid.slotSize_bounds (hP : P.Valid) : P.size ≤ P.slotSize ∧ P.slotSize ≤ 8 * P.size := by
  obtain ⟨hpos, hdvd⟩ := hP.size
  have hle := Nat.le_of_dvd hpos hdvd
  unfold slotSize pointerSize
  rcases hP.slotAlign_cases with ⟨heq, h8⟩ | ⟨heq, hsmall⟩
  · -- the size of an element is a multiple of the alignment
    have hlarge : 8 ≤ P.size := Nat.le_of_dvd hpos (h8.trans hdvd)
    have halign : 0 < P.align := Nat.pos_of_dvd_of_pos hdvd hpos
    obtain ⟨c, hc⟩ := hdvd
    have hround : (P.size + P.align - 1) / P.align = c := by
      rw [hc, Nat.add_sub_assoc halign, Nat.mul_add_div halign,
        Nat.div_eq_of_lt (Nat.sub_lt halign Nat.one_pos), Nat.add_zero]
    rw [heq, max_eq_left hlarge, hround, Nat.mul_comm c, ← hc]
    omega
  · rw [heq]
    omega

end Params

/-- What is moved on by the padding is aligned. -/
theorem padPointer_spec {d p : Nat} (hd : d ∣ wordRange) (hp : p < wordRange) :
    d ∣ p + padPointer p d ∧ padPointer p d < d := by
  have hpos : 0 < d := Nat.pos_of_dvd_of_pos hd (by decide)
  refine ⟨?_, Nat.mod_lt _ hpos⟩
  unfold padPointer
  rw [Nat.mod_mod_of_dvd _ hd]
  refine Nat.dvd_of_mod_eq_zero ?_
  rw [Nat.add_mod, Nat.mod_mod, ← Nat.add_mod, show p + (d + wordRange - p) = d + wordRange by omega]
  exact Nat.mod_eq_zero_of_dvd (Nat.dvd_add (Nat.dvd_refl d) hd)

theorem advance_eq {p n : Nat} (h : p + n < wordRange) : advance p n = p + n := Nat.mod_eq_of_lt h

-- ============================================================= blocks

/-- A block that is large enough, where the operating system puts them. -/
structure Owned (P : Params) (b : Block) : Prop where
  pos : 0 < b.addr
  page : 4096 ∣ b.addr
  space : b.addr + b.size ≤ addressSpace
  large : P.minimumRequired ≤ b.size

/-- The chunk of a block. -/
structure ChunkOf (P : Params) (b : Block) (c : Nat) : Prop where
  header : b.addr + pointerSize ≤ c
  inside : c + P.chunkBytes ≤ b.addr + b.size
  slot : c + pointerSize ≤ b.addr + max b.size 4096
  aligned : P.slotAlign ∣ c

theorem Owned.firstSlot (hP : P.Valid) (hfit : P.Fits) {b : Block} (h : Owned P b) :
    ChunkOf P b (State.firstSlot P b.addr) := by
  obtain ⟨hpos, hpage, hspace, hlarge⟩ := h
  have hroom := hP.minimumRequired_le hfit
  have hchunk := hP.chunkBytes_pos
  have hrange : addressSpace + 4096 < wordRange := by decide
  have h8 : 8 ∣ b.addr + pointerSize :=
    Nat.dvd_add ((by decide : 8 ∣ 4096).trans hpage) (by decide)
  have hbody : advance b.addr pointerSize = b.addr + pointerSize :=
    advance_eq (by unfold pointerSize at *; omega)
  obtain ⟨hdvd, hpad⟩ := padPointer_spec (p := b.addr + pointerSize) hP.slotAlign_dvd
    (by unfold pointerSize at *; omega)
  unfold State.firstSlot
  simp only [hbody]
  -- a pointer needs no padding behind a header, and the padding for an
  -- element leaves room for a pointer
  have hbound : padPointer (b.addr + pointerSize) P.slotAlign + pointerSize ≤ max P.align 8 := by
    rcases hP.slotAlign_cases with ⟨heq, h8align⟩ | ⟨heq, hsmall⟩
    · rw [heq] at hdvd hpad ⊢
      have hmult : 8 ∣ padPointer (b.addr + pointerSize) P.align :=
        (Nat.dvd_add_right h8).mp (h8align.trans hdvd)
      unfold pointerSize at *
      omega
    · rw [heq] at hdvd hpad ⊢
      have hmult : 8 ∣ padPointer (b.addr + pointerSize) 8 := (Nat.dvd_add_right h8).mp hdvd
      unfold pointerSize at *
      omega
  have halign : padPointer (b.addr + pointerSize) P.slotAlign ≤ P.align := by
    unfold pointerSize at *
    omega
  rw [advance_eq (by unfold pointerSize at *; omega)]
  constructor
  case header => exact Nat.le_add_right ..
  case inside => unfold pointerSize at *; omega
  case slot =>
    rcases hP.slotAlign_cases with ⟨heq, h8align⟩ | ⟨heq, hsmall⟩
    · have := Nat.le_of_dvd (Nat.pos_of_dvd_of_pos hP.size.2 hP.size.1) h8align
      unfold pointerSize at *
      omega
    · unfold pointerSize at *
      omega
  case aligned => exact hdvd

end MctsConnectFour.Pool
