/-
How much of its blocks the allocator uses.

`no_chunks ( )` counts the chunks that a block is made large enough for.
`allocate_block ( )` sets `m_last_slot` one chunk behind the first slot
whatever this number is, so that every chunk that is not on the free list
comes from a block of its own (`Allocated.spec`). The blocks are used up
when one chunk is all that fits into them, and not otherwise
(`usesBlocks_iff`), where there is room for a block at all.
-/
import Mathlib.Data.Finset.Card
import MctsConnectFour.Pool.Safe

namespace MctsConnectFour.Pool

variable {P : Params} {fuel bs n : Nat} {w w' : World}

/-- `no_chunks ( )`, of the blocks of size `bs`. -/
def Params.noChunks (P : Params) (bs : Nat) : Nat :=
  (bs + 2 * wordRange - pointerSize - P.align) % wordRange / P.chunkSize

/-- The chunks of a block that have been handed out, live or not. -/
def World.handedOf (w : World) (b : Block) : Nat :=
  (w.handed.toFinset.filter fun c => b.addr ≤ c ∧ c < b.addr + b.size).card

/-- What `n` calls of `allocate` lead to, with none of `deallocate`. -/
inductive Allocated (P : Params) (fuel : Nat) : Nat → World → Prop
  | new (bytes : Memory.Bytes) : Allocated P fuel 0 (.new bytes)
  | allocate {n answer : Nat} {w w' : World} (h : Allocated P fuel n w)
      (hv : Op.Valid P fuel w (.allocate answer)) (hs : w.step P fuel (.allocate answer) = some w') :
      Allocated P fuel (n + 1) w'
  | write {n a : Nat} {byte : UInt8} {w w' : World} (h : Allocated P fuel n w)
      (hv : Op.Valid P fuel w (.write a byte)) (hs : w.step P fuel (.write a byte) = some w') :
      Allocated P fuel n w'

/-- The blocks hold as many chunks as they are meant to, and are used up
before another is asked for. -/
structure UsesBlocks (P : Params) (fuel bs : Nat) : Prop where
  fit : P.minAlloc ≤ P.noChunks bs ∧ pointerSize + P.noChunks bs * P.chunkBytes + P.align ≤ bs
  requests : ∀ n w, Allocated P fuel n w →
    w.state.blocks.length = (n + P.noChunks bs - 1) / P.noChunks bs
  last : ∀ w answer w', World.Reached P fuel w → w.step P fuel (.allocate answer) = some w' →
    w'.state.blocks ≠ w.state.blocks →
      w.state.freeSlots = 0 ∧ ∀ b ∈ w.state.blocks, b.addr = w.state.currentBlock →
        w.handedOf b = P.noChunks bs

-- ============================================================== sizes

theorem blockSize_lt (hpage : P.pageSize < wordRange) (hbs : P.blockSize fuel = some bs) :
    bs < wordRange :=
  (Loops.whileLoop_inv (I := fun bs => bs < wordRange) (fun _ _ _ _ h => by
    obtain rfl := Option.some.inj h
    exact Nat.mod_lt _ (by decide)) hpage hbs).1

/-- The chunks fit into a block if and only if its size has been computed
without wrapping around. -/
theorem fit_iff (hP : P.Valid) (hpage : P.pageSize < wordRange)
    (hbs : P.blockSize fuel = some bs) :
    (P.minAlloc ≤ P.noChunks bs ∧ pointerSize + P.noChunks bs * P.chunkBytes + P.align ≤ bs)
      ↔ P.Fits := by
  have hlt := blockSize_lt hpage hbs
  constructor
  · intro h
    obtain ⟨hmin, hroom⟩ := h
    have hle : P.minAlloc * P.chunkBytes ≤ P.noChunks bs * P.chunkBytes :=
      Nat.mul_le_mul_right _ hmin
    unfold Params.Fits
    omega
  · intro hfit
    have hlarge := Params.blockSize_le hbs
    have hmin : P.minimumRequired = pointerSize + P.minAlloc * P.chunkBytes + P.align := by
      unfold Params.minimumRequired
      rw [hP.chunkSize_eq hfit, Nat.mod_eq_of_lt hfit]
    have hno : P.noChunks bs = (bs - pointerSize - P.align) / P.chunkBytes := by
      unfold Params.noChunks
      rw [hP.chunkSize_eq hfit, show bs + 2 * wordRange - pointerSize - P.align
          = (bs - pointerSize - P.align) + wordRange * 2 by omega, Nat.add_mul_mod_self_left,
        Nat.mod_eq_of_lt (by omega)]
    have hmul := Nat.div_mul_le_self (bs - pointerSize - P.align) P.chunkBytes
    rw [hno]
    exact ⟨(Nat.le_div_iff_mul_le hP.chunkBytes_pos).mpr (by omega), by omega⟩

-- ============================================================ requests

/-- What an operation does to the blocks: a block is asked for when there
is no free slot and the current block is used up. -/
theorem World.step_blocks {op : Op} (hs : w.step P fuel op = some w') :
    (w'.state.blocks = w.state.blocks ∧ ∀ answer, op = .allocate answer → ¬ w.state.NeedsBlock)
      ∨ ∃ answer bs, op = .allocate answer ∧ w.state.NeedsBlock ∧ P.blockSize fuel = some bs
        ∧ w'.state.blocks = ⟨answer, bs⟩ :: w.state.blocks
        ∧ w'.state.freeSlots = w.state.freeSlots := by
  cases op with
  | allocate answer =>
      by_cases hfree : w.state.freeSlots = 0
      · rw [World.step, State.allocate, if_neg (not_not_intro hfree)] at hs
        by_cases hlast : w.state.lastSlot ≤ w.state.currentSlot
        · rw [if_pos hlast, State.allocateBlock] at hs
          cases hbs : P.blockSize fuel with
          | none =>
              rw [hbs] at hs
              cases hs
          | some bs =>
              rw [hbs] at hs
              obtain rfl := Option.some.inj hs
              exact Or.inr ⟨answer, bs, rfl, ⟨hfree, hlast⟩, rfl, rfl, rfl⟩
        · rw [if_neg hlast] at hs
          obtain rfl := Option.some.inj hs
          exact Or.inl ⟨rfl, fun _ _ hneeds => hlast hneeds.2⟩
      · rw [World.step, State.allocate, if_pos hfree] at hs
        obtain rfl := Option.some.inj hs
        exact Or.inl ⟨rfl, fun _ _ hneeds => hfree hneeds.1⟩
  | deallocate p =>
      obtain rfl := Option.some.inj hs
      refine Or.inl ⟨?_, fun answer heq => by cases heq⟩
      unfold State.deallocate
      split <;> rfl
  | write a byte =>
      obtain rfl := Option.some.inj hs
      exact Or.inl ⟨rfl, fun answer heq => by cases heq⟩

theorem Allocated.reached (h : Allocated P fuel n w) : World.Reached P fuel w := by
  induction h with
  | new bytes => exact .new bytes
  | allocate _ hv hs ih => exact ih.step hv hs
  | write _ hv hs ih => exact ih.step hv hs

/-- Without any `deallocate`, there are as many blocks as chunks. -/
theorem Allocated.spec (hP : P.Valid) (hfit : P.Fits) (h : Allocated P fuel n w) :
    w.state.freeSlots = 0 ∧ w.state.blocks.length = n := by
  induction h with
  | new bytes => exact ⟨rfl, rfl⟩
  | allocate h _ hs ih =>
      rcases World.step_blocks hs with ⟨-, hnot⟩ | ⟨answer, bs, -, -, -, hblocks, hfree⟩
      · exact absurd ⟨ih.1, (reached_sound hP hfit h.reached).full⟩ (hnot _ rfl)
      · exact ⟨hfree.trans ih.1, by rw [hblocks, List.length_cons, ih.2]⟩
  | write _ _ hs ih =>
      obtain rfl := Option.some.inj hs
      exact ih

/-- One chunk has been handed out of each block. -/
theorem Sound.handedOf_eq (hP : P.Valid) (hfit : P.Fits) (h : Sound P w) {b : Block}
    (hb : b ∈ w.state.blocks) : w.handedOf b = 1 := by
  have hchunk := (h.owned b hb).firstSlot hP hfit
  have hpos := hP.chunkBytes_pos
  refine Finset.card_eq_one.mpr ⟨State.firstSlot P b.addr, ?_⟩
  ext c
  rw [Finset.mem_filter, List.mem_toFinset, Finset.mem_singleton]
  constructor
  · intro h'
    obtain ⟨hc, hle, hlt⟩ := h'
    obtain ⟨b', hb', hof, rfl⟩ := h.chunk hP hfit hc
    have hhead := hof.header
    have hin := hof.inside
    rcases h.apart b hb b' hb' with heq | hapart | hapart
    · rw [heq]
    · omega
    · omega
  · intro h'
    obtain rfl := h'
    have hhead := hchunk.header
    have hin := hchunk.inside
    exact ⟨(h.chunks _).mpr ⟨b, hb, rfl⟩, by omega, by omega⟩

/-- Where there is no room for a block, there is none. -/
theorem reached_no_room (hbs : P.blockSize fuel = some bs) (hroom : addressSpace < 4096 + bs)
    (h : World.Reached P fuel w) : w.state.blocks = [] := by
  induction h with
  | new bytes => rfl
  | step _ hv hs ih =>
      rcases World.step_blocks hs with ⟨hblocks, -⟩ | ⟨answer, bs', rfl, hneeds, hbs', -⟩
      · rw [hblocks, ih]
      · exfalso
        obtain ⟨hpos, hpage, hspace, -⟩ := hv hneeds bs' hbs'
        obtain rfl := Option.some.inj (hbs.symm.trans hbs')
        have hle := Nat.le_of_dvd hpos hpage
        simp only at hle hspace
        omega

/-- Where there is, a first chunk can be had. -/
theorem exists_allocated (hbs : P.blockSize fuel = some bs) (hroom : 4096 + bs ≤ addressSpace) :
    ∃ w, Allocated P fuel 1 w ∧ ∃ b, w.state.blocks = [b] ∧ b.addr = w.state.currentBlock := by
  have hv : Op.Valid P fuel (World.new fun _ => 0) (.allocate 4096) := by
    intro _ bs' hbs'
    obtain rfl := Option.some.inj (hbs.symm.trans hbs')
    exact ⟨by simp, Nat.dvd_refl 4096, hroom, fun _ hb => absurd hb List.not_mem_nil⟩
  have hs : ∃ w, (World.new fun _ => 0).step P fuel (.allocate 4096) = some w
      ∧ ∃ b, w.state.blocks = [b] ∧ b.addr = w.state.currentBlock := by
    simp [World.step, World.new, State.new, State.allocate, State.allocateBlock,
      State.virtualAlloc, hbs]
  obtain ⟨w, hs, hblocks⟩ := hs
  exact ⟨w, .allocate (.new _) hv hs, hblocks⟩

/-- The blocks are used up if and only if their size has been computed
without wrapping around and one chunk is all that fits, or a block is
larger than the address space. -/
theorem usesBlocks_iff (hP : P.Valid) (hpage : P.pageSize < wordRange)
    (hbs : P.blockSize fuel = some bs) :
    UsesBlocks P fuel bs ↔ P.Fits ∧ (P.noChunks bs = 1 ∨ addressSpace < 4096 + bs) := by
  constructor
  · intro h
    have hfit := (fit_iff hP hpage hbs).mp h.fit
    refine ⟨hfit, ?_⟩
    by_contra hnot
    obtain ⟨hmany, hroom⟩ := not_or.mp hnot
    -- a second chunk is asked for
    obtain ⟨w, hw, b, hblocks, hcurrent⟩ := exists_allocated hbs (Nat.le_of_not_lt hroom)
    obtain ⟨w', hs⟩ := World.step_total (w := w) hbs (.allocate 0)
    have hsound := reached_sound hP hfit hw.reached
    have hb : b ∈ w.state.blocks := hblocks ▸ List.mem_singleton_self b
    have hasked : w'.state.blocks ≠ w.state.blocks := by
      rcases World.step_blocks hs with ⟨-, hneeds⟩ | ⟨answer, bs, -, -, -, hgrown, -⟩
      · exact absurd ⟨(hw.spec hP hfit).1, hsound.full⟩ (hneeds 0 rfl)
      · rw [hgrown]
        exact List.cons_ne_self _ _
    have hlast := (h.last w 0 w' hw.reached hs hasked).2 b hb hcurrent
    exact hmany (hlast.symm.trans (hsound.handedOf_eq hP hfit hb))
  · intro h
    obtain ⟨hfit, hone⟩ := h
    have hfits := (fit_iff hP hpage hbs).mpr hfit
    have hpos : 0 < P.noChunks bs := Nat.lt_of_lt_of_le hP.minAlloc hfits.1
    constructor
    case fit => exact hfits
    case requests =>
      intro n w hw
      obtain ⟨-, hlength⟩ := hw.spec hP hfit
      rcases hone with hone | hroom
      · rw [hone, hlength, Nat.add_sub_cancel, Nat.div_one]
      · rw [reached_no_room hbs hroom hw.reached, List.length_nil] at hlength
        rw [reached_no_room hbs hroom hw.reached, ← hlength, Nat.zero_add,
          Nat.div_eq_of_lt (Nat.sub_lt hpos Nat.one_pos)]
        rfl
    case last =>
      intro w answer w' hw hs hasked
      rcases World.step_blocks hs with ⟨hsame, -⟩ | ⟨-, -, -, hneeds, -⟩
      · exact absurd hsame hasked
      refine ⟨hneeds.1, fun b hb _ => ?_⟩
      rcases hone with hone | hroom
      · rw [hone]
        exact (reached_sound hP hfit hw).handedOf_eq hP hfit hb
      · rw [reached_no_room hbs hroom hw] at hb
        exact absurd hb List.not_mem_nil

/-- Elements of half a page, one to a block. -/
def halfPages : Params := ⟨2048, 8, 1, 4096, 1⟩

theorem usesBlocks_iff_halfPages :
    UsesBlocks halfPages 0 4096
      ↔ halfPages.Fits ∧ (halfPages.noChunks 4096 = 1 ∨ addressSpace < 4096 + 4096) :=
  usesBlocks_iff ⟨⟨3, rfl, by decide⟩, ⟨by decide, by decide⟩, Nat.le_refl 1, Nat.le_refl 1⟩
    (by decide) rfl

/-- There are 510 pointers to a block, and yet the second one is in another
block. -/
theorem pointers_waste_blocks :
    pointers.Valid ∧ pointers.blockSize 0 = some 4096 ∧ pointers.noChunks 4096 = 510
      ∧ (∃ w, Allocated pointers 0 2 w ∧ w.state.blocks.length = 2)
      ∧ ¬ UsesBlocks pointers 0 4096 := by
  have htwo := Allocated.allocate (.allocate (.new fun _ => 0) (valid_allocate granted_first) rfl)
    (valid_allocate granted_second) rfl
  have hlength := (htwo.spec pointers_valid pointers_fits).2
  refine ⟨pointers_valid, rfl, by decide, ⟨_, htwo, hlength⟩, fun h => ?_⟩
  have hceil := h.requests 2 _ htwo
  rw [hlength] at hceil
  revert hceil
  decide

end MctsConnectFour.Pool
