/-
The allocator hands out disjoint chunks of its own blocks.

`Sound` is the invariant of every operation. Chunks are the first slots of
their blocks, and as disjoint as these. The chain of headers and the free
list are lists threaded through the bytes of the blocks; the headers, the
free slots and the chunks in use occupy different bytes, so that an
operation on one list does not change the other, nor a write to a chunk
either of them. What the allocator is used for, `Safe`, follows
(`pool_safe`).
-/
import Mathlib.Tactic.Ring
import MctsConnectFour.Pool.Blocks

namespace MctsConnectFour.Pool

open Chain (Linked)
open Memory (Bytes readWord writeWord setByte)

variable {P : Params} {fuel : Nat} {w w' : World}

-- ======================================================= the invariant

/-- A link, null being none. -/
def link (p : Nat) : Option Nat := if p = 0 then none else some p

/-- The link in a header or in a free slot. -/
def next (bytes : Bytes) (a : Nat) : Option Nat := link (readWord bytes a)

/-- A block ends, its first page with it, before the other begins. -/
def Apart (b b' : Block) : Prop :=
  b.addr + max b.size 4096 ≤ b'.addr ∨ b'.addr + max b'.size 4096 ≤ b.addr

/-- Blocks that are large enough, and apart. -/
structure Laid (P : Params) (blocks : List Block) : Prop where
  owned : ∀ b ∈ blocks, Owned P b
  apart : ∀ b ∈ blocks, ∀ b' ∈ blocks, b.addr = b'.addr ∨ Apart b b'

/-- The invariant of all operations. -/
structure Sound (P : Params) (w : World) : Prop where
  owned : ∀ b ∈ w.state.blocks, Owned P b
  apart : ∀ b ∈ w.state.blocks, ∀ b' ∈ w.state.blocks, b.addr = b'.addr ∨ Apart b b'
  chunks : ∀ c, c ∈ w.handed ↔ ∃ b ∈ w.state.blocks, c = State.firstSlot P b.addr
  full : w.state.lastSlot ≤ w.state.currentSlot
  headers : Linked (next w.state.bytes) (link w.state.currentBlock) (w.state.blocks.map Block.addr)
  free : ∃ l, Linked (next w.state.bytes) (link w.state.freeSlots) l
    ∧ ∀ c, c ∈ l ↔ c ∈ w.handed ∧ c ∉ w.live
  live_handed : ∀ c ∈ w.live, c ∈ w.handed
  live_nodup : w.live.Nodup

theorem link_some {p : Nat} (hp : p ≠ 0) : link p = some p := if_neg hp

theorem link_eq_none {p : Nat} : link p = none ↔ p = 0 := by
  unfold link
  split
  case isTrue hp => simp [hp]
  case isFalse hp => simp [hp]

theorem eq_of_link {p a : Nat} (h : link p = some a) : p = a := by
  have hp : p ≠ 0 := fun hnull => by
    rw [link_eq_none.mpr hnull] at h
    cases h
  exact Option.some.inj ((link_some hp).symm.trans h)

theorem eq_of_link_eq {p q : Nat} (h : link p = link q) : p = q := by
  by_cases hq : q = 0
  · rw [hq]
    exact link_eq_none.mp (h.trans (link_eq_none.mpr hq))
  · exact eq_of_link (h.trans (link_some hq))

/-- A list from a pointer on, unless it is null. -/
theorem linked_head {bytes : Bytes} {p : Nat} {l : List Nat} (h : Linked (next bytes) (link p) l)
    (hp : p ≠ 0) : ∃ l', l = p :: l' := by
  cases l with
  | nil => exact absurd (link_eq_none.mp h) hp
  | cons a l => exact ⟨l, by rw [eq_of_link h.1]⟩

/-- A list is empty when its first link is null, and only then. -/
theorem link_eq_none_iff {p : Nat} {bytes : Bytes} {l : List Nat}
    (h : Linked (next bytes) (link p) l) : p = 0 ↔ l = [] := by
  constructor
  · intro hnull
    exact h.unique (link_eq_none.mpr hnull)
  · intro hl
    rw [hl] at h
    exact link_eq_none.mp h

theorem next_eq {bytes bytes' : Bytes} {a : Nat} (h : readWord bytes' a = readWord bytes a) :
    next bytes' a = next bytes a := by rw [next, h, next]

theorem Sound.laid (h : Sound P w) : Laid P w.state.blocks := ⟨h.owned, h.apart⟩

-- ========================================================== the layout

section Layout

variable {blocks : List Block} {b b' : Block} {bytes bytes' : Bytes}

/-- A write to the header of a block leaves the headers that are apart. -/
theorem next_writeWord_of_apart {v : Nat} (hapart : ∀ b' ∈ blocks, Apart b b') {a : Nat}
    (ha : a ∈ blocks.map Block.addr) : next (writeWord bytes b.addr v) a = next bytes a := by
  obtain ⟨b', hb', rfl⟩ := List.mem_map.mp ha
  refine next_eq (Memory.readWord_writeWord_of_disjoint ?_)
  rcases hapart b' hb' with hlt | hlt
  · right
    omega
  · left
    omega

/-- It is none of them. -/
theorem addr_fresh (hapart : ∀ b' ∈ blocks, Apart b b') : b.addr ∉ blocks.map Block.addr := by
  intro hmem
  obtain ⟨b', hb', heq⟩ := List.mem_map.mp hmem
  rcases hapart b' hb' with hlt | hlt
  · omega
  · omega

/-- A link to a block is a pointer. -/
theorem Laid.addr_lt (h : Laid P blocks) {a : Nat} (ha : a ∈ blocks.map Block.addr) :
    a < wordRange := by
  obtain ⟨b, hb, rfl⟩ := List.mem_map.mp ha
  have hspace := (h.owned b hb).space
  have hrange : addressSpace < wordRange := by decide
  omega

/-- So is the first link of a chain of them. -/
theorem Laid.link_lt (h : Laid P blocks) {p : Nat} {l : List Nat}
    (hlink : Linked (next bytes) (link p) l) (hl : ∀ a ∈ l, a ∈ blocks.map Block.addr) :
    p < wordRange := by
  by_cases hnull : p = 0
  · rw [hnull]
    decide
  · obtain ⟨l, rfl⟩ := linked_head hlink hnull
    exact h.addr_lt (hl p (List.mem_cons_self ..))

/-- The header of a block that is apart goes to the front of a chain. -/
theorem linked_grow {p : Nat} {l : List Nat} (hp : p < wordRange)
    (hlink : Linked (next bytes) (link p) l) (hl : ∀ a ∈ l, a ∈ blocks.map Block.addr)
    (hpos : 0 < b.addr) (hapart : ∀ b' ∈ blocks, Apart b b') :
    Linked (next (writeWord bytes b.addr p)) (link b.addr) (b.addr :: l) := by
  have hhead : next (writeWord bytes b.addr p) b.addr = link p := by
    rw [next, Memory.readWord_writeWord hp]
  refine (link_some (Nat.ne_of_gt hpos)).symm ▸ hlink.cons hhead fun a ha => ?_
  exact next_writeWord_of_apart hapart (hl a ha)

variable (hP : P.Valid) (hfit : P.Fits)

include hP hfit

theorem Laid.chunk (h : Laid P blocks) (hb : b ∈ blocks) :
    ChunkOf P b (State.firstSlot P b.addr) := (h.owned b hb).firstSlot hP hfit

/-- A chunk is a pointer, and not null. -/
theorem Laid.pointer (h : Laid P blocks) (hb : b ∈ blocks) :
    0 < State.firstSlot P b.addr ∧ State.firstSlot P b.addr < wordRange := by
  have hchunk := h.chunk hP hfit hb
  have hhead := hchunk.header
  have hin := hchunk.inside
  have hspace := (h.owned b hb).space
  have hrange : addressSpace < wordRange := by decide
  have hpos := (h.owned b hb).pos
  exact ⟨by omega, by omega⟩

/-- Different chunks have no byte in common, slots included. -/
theorem Laid.disjoint (h : Laid P blocks) (hb : b ∈ blocks) (hb' : b' ∈ blocks)
    (hne : State.firstSlot P b.addr ≠ State.firstSlot P b'.addr) :
    State.firstSlot P b.addr + max P.chunkBytes pointerSize ≤ State.firstSlot P b'.addr
      ∨ State.firstSlot P b'.addr + max P.chunkBytes pointerSize ≤ State.firstSlot P b.addr := by
  obtain ⟨hhead, hin, hslot, _⟩ := h.chunk hP hfit hb
  obtain ⟨hhead', hin', hslot', _⟩ := h.chunk hP hfit hb'
  rcases h.apart b hb b' hb' with heq | hlt | hlt
  · exact absurd (by rw [heq]) hne
  · left
    omega
  · right
    omega

/-- A chunk and a header have no byte in common. -/
theorem Laid.off_header (h : Laid P blocks) (hb : b ∈ blocks) (hb' : b' ∈ blocks) :
    b.addr + pointerSize ≤ State.firstSlot P b'.addr
      ∨ State.firstSlot P b'.addr + max P.chunkBytes pointerSize ≤ b.addr := by
  obtain ⟨hhead, hin, hslot, _⟩ := h.chunk hP hfit hb'
  rcases h.apart b hb b' hb' with heq | hlt | hlt
  · left
    omega
  · left
    unfold pointerSize at *
    omega
  · right
    omega

/-- The chunk of a block lies outside the others. -/
theorem Laid.firstSlot_outside (h : Laid P blocks) (hb : b ∈ blocks) (hb' : b' ∈ blocks)
    (hne : b.addr ≠ b'.addr) :
    State.firstSlot P b'.addr + P.chunkBytes ≤ b.addr
      ∨ b.addr + b.size ≤ State.firstSlot P b'.addr := by
  have hof := h.chunk hP hfit hb'
  have hhead := hof.header
  have hin := hof.inside
  rcases h.apart b hb b' hb' with heq | hlt | hlt
  · exact absurd heq hne
  · right
    omega
  · left
    omega

theorem Laid.firstSlot_inj (h : Laid P blocks) {a a' : Nat} (ha : a ∈ blocks.map Block.addr)
    (ha' : a' ∈ blocks.map Block.addr)
    (heq : State.firstSlot P a = State.firstSlot P a') : a = a' := by
  obtain ⟨b, hb, rfl⟩ := List.mem_map.mp ha
  obtain ⟨b', hb', rfl⟩ := List.mem_map.mp ha'
  by_contra hne
  have hof := h.chunk hP hfit hb
  have hhead := hof.header
  have hin := hof.inside
  have hpos := hP.chunkBytes_pos
  have hout := h.firstSlot_outside hP hfit hb hb' hne
  rw [← heq] at hout
  omega

/-- A write to the bytes of a chunk leaves the headers alone. -/
theorem Laid.header_congr (h : Laid P blocks) (hb : b ∈ blocks)
    (hbytes : ∀ a, a + pointerSize ≤ State.firstSlot P b.addr
      ∨ State.firstSlot P b.addr + max P.chunkBytes pointerSize ≤ a →
        readWord bytes' a = readWord bytes a) {a : Nat} (ha : a ∈ blocks.map Block.addr) :
    next bytes' a = next bytes a := by
  obtain ⟨b', hb', rfl⟩ := List.mem_map.mp ha
  exact next_eq (hbytes _ (h.off_header hP hfit hb' hb))

/-- And it leaves the other slots alone. -/
theorem Laid.slot_congr (h : Laid P blocks) (hb : b ∈ blocks)
    (hbytes : ∀ a, a + pointerSize ≤ State.firstSlot P b.addr
      ∨ State.firstSlot P b.addr + max P.chunkBytes pointerSize ≤ a →
        readWord bytes' a = readWord bytes a) (hb' : b' ∈ blocks)
    (hne : State.firstSlot P b'.addr ≠ State.firstSlot P b.addr) :
    next bytes' (State.firstSlot P b'.addr) = next bytes (State.firstSlot P b'.addr) := by
  refine next_eq (hbytes _ ?_)
  rcases h.disjoint hP hfit hb' hb hne with hlt | hlt
  · left
    omega
  · right
    exact hlt

/-- A new block is apart from the others. -/
theorem Laid.apart_granted (h : Laid P blocks) (hg : Granted blocks b)
    (hlarge : P.minimumRequired ≤ b.size) : ∀ b' ∈ blocks, Apart b b' := by
  intro b' hb'
  have howned := h.owned b' hb'
  have hroom := hP.minimumRequired_le hfit
  have hsize' := howned.large
  obtain ⟨k, hk⟩ := hg.page
  obtain ⟨k', hk'⟩ := howned.page
  -- both blocks begin with a page
  unfold Apart
  unfold pointerSize at hroom
  rcases hg.fresh b' hb' with hlt | hlt
  · right
    omega
  · left
    omega

/-- It joins them. -/
theorem Laid.grant (h : Laid P blocks) (hg : Granted blocks b)
    (hlarge : P.minimumRequired ≤ b.size) : Laid P (b :: blocks) := by
  have hapart := h.apart_granted hP hfit hg hlarge
  constructor
  case owned =>
    intro b' hb'
    rcases List.mem_cons.mp hb' with rfl | hb'
    · exact ⟨hg.pos, hg.page, hg.space, hlarge⟩
    · exact h.owned b' hb'
  case apart =>
    intro b₁ hb₁ b₂ hb₂
    rcases List.mem_cons.mp hb₁ with heq₁ | hold₁
    · rcases List.mem_cons.mp hb₂ with heq₂ | hold₂
      · exact Or.inl (by rw [heq₁, heq₂])
      · exact Or.inr (heq₁ ▸ hapart b₂ hold₂)
    · rcases List.mem_cons.mp hb₂ with heq₂ | hold₂
      · exact Or.inr (heq₂ ▸ (hapart b₁ hold₁).symm)
      · exact h.apart b₁ hold₁ b₂ hold₂

/-- Its chunk is none of theirs. -/
theorem Laid.firstSlot_fresh (h : Laid P (b :: blocks)) (hapart : ∀ b' ∈ blocks, Apart b b')
    {a : Nat} (ha : a ∈ blocks.map Block.addr) :
    State.firstSlot P a ≠ State.firstSlot P b.addr := by
  intro heq
  obtain rfl := h.firstSlot_inj hP hfit (List.mem_cons_of_mem _ ha) (List.mem_cons_self ..) heq
  exact addr_fresh hapart ha

/-- A write to its header leaves their slots. -/
theorem Laid.slot_writeWord (h : Laid P (b :: blocks)) {v a : Nat}
    (ha : a ∈ blocks.map Block.addr) :
    next (writeWord bytes b.addr v) (State.firstSlot P a) = next bytes (State.firstSlot P a) := by
  obtain ⟨b', hb', rfl⟩ := List.mem_map.mp ha
  have hoff := h.off_header hP hfit (List.mem_cons_self ..) (List.mem_cons_of_mem _ hb')
  refine next_eq (Memory.readWord_writeWord_of_disjoint ?_)
  unfold pointerSize at hoff
  omega

end Layout

-- ======================================================== allocations

/-- A block has been asked for, and its chunk handed out. -/
def State.grown (P : Params) (answer bs : Nat) (s : State) : State where
  bytes := writeWord s.bytes answer s.currentBlock
  blocks := ⟨answer, bs⟩ :: s.blocks
  currentBlock := answer
  currentSlot := advance (firstSlot P answer) (P.chunkCount * P.slotSize)
  lastSlot := advance (firstSlot P answer) P.chunkSize
  freeSlots := s.freeSlots

theorem State.allocate_block {s : State} {answer : Nat} (h : s.NeedsBlock) :
    s.allocate P fuel answer
      = (P.blockSize fuel).map fun bs => (s.grown P answer bs, State.firstSlot P answer) := by
  rw [State.allocate, if_neg (not_not_intro h.1), if_pos h.2, State.allocateBlock, Option.map_map]
  rfl

/-- A chunk comes from the free list or, when all slots of the block have
been handed out, from a new block. -/
theorem State.allocate_cases {s : State} {answer : Nat} {x : State × Nat}
    (hfull : s.lastSlot ≤ s.currentSlot) (h : s.allocate P fuel answer = some x) :
    s.freeSlots ≠ 0 ∧ x = ({ s with freeSlots := readWord s.bytes s.freeSlots }, s.freeSlots)
      ∨ s.NeedsBlock ∧ ∃ bs, P.blockSize fuel = some bs
        ∧ x = (s.grown P answer bs, State.firstSlot P answer) := by
  by_cases hfree : s.freeSlots = 0
  · rw [State.allocate_block ⟨hfree, hfull⟩] at h
    obtain ⟨bs, hbs, hx⟩ := Option.map_eq_some_iff.mp h
    exact Or.inr ⟨⟨hfree, hfull⟩, bs, hbs, hx.symm⟩
  · rw [State.allocate, if_pos hfree] at h
    exact Or.inl ⟨hfree, (Option.some.inj h).symm⟩

-- ============================================================ the chunks

section Invariant

variable (hP : P.Valid) (hfit : P.Fits)

include hP hfit

/-- A chunk that has been handed out is the chunk of a block. -/
theorem Sound.chunk (h : Sound P w) {c : Nat} (hc : c ∈ w.handed) :
    ∃ b ∈ w.state.blocks, ChunkOf P b c ∧ c = State.firstSlot P b.addr := by
  obtain ⟨b, hb, rfl⟩ := (h.chunks c).mp hc
  exact ⟨b, hb, h.laid.chunk hP hfit hb, rfl⟩

/-- Different chunks have no byte in common, slots included. -/
theorem Sound.disjoint (h : Sound P w) {c c' : Nat} (hc : c ∈ w.handed) (hc' : c' ∈ w.handed)
    (hne : c ≠ c') :
    c + max P.chunkBytes pointerSize ≤ c' ∨ c' + max P.chunkBytes pointerSize ≤ c := by
  obtain ⟨b, hb, rfl⟩ := (h.chunks c).mp hc
  obtain ⟨b', hb', rfl⟩ := (h.chunks c').mp hc'
  exact h.laid.disjoint hP hfit hb hb' hne

/-- A chunk is a pointer, and not null. -/
theorem Sound.pointer (h : Sound P w) {c : Nat} (hc : c ∈ w.handed) : 0 < c ∧ c < wordRange := by
  obtain ⟨b, hb, rfl⟩ := (h.chunks c).mp hc
  exact h.laid.pointer hP hfit hb

/-- So is the first free slot, unless it is null. -/
theorem Sound.freeSlots_lt (h : Sound P w) : w.state.freeSlots < wordRange := by
  obtain ⟨l, hlink, hmem⟩ := h.free
  by_cases hnull : w.state.freeSlots = 0
  · rw [hnull]
    decide
  · obtain ⟨l, rfl⟩ := linked_head hlink hnull
    exact (h.pointer hP hfit ((hmem _).mp (List.mem_cons_self ..)).1).2

/-- A write to the bytes of a chunk leaves the headers alone. -/
theorem Sound.headers_congr (h : Sound P w) {bytes : Bytes} {c : Nat} (hc : c ∈ w.handed)
    (hbytes : ∀ a, a + pointerSize ≤ c ∨ c + max P.chunkBytes pointerSize ≤ a →
      readWord bytes a = readWord w.state.bytes a) :
    Linked (next bytes) (link w.state.currentBlock) (w.state.blocks.map Block.addr) := by
  obtain ⟨b, hb, rfl⟩ := (h.chunks c).mp hc
  exact h.headers.congr fun a ha => h.laid.header_congr hP hfit hb hbytes ha

/-- And it leaves the other slots alone. -/
theorem Sound.slots_congr (h : Sound P w) {bytes : Bytes} {c : Nat} (hc : c ∈ w.live)
    (hbytes : ∀ a, a + pointerSize ≤ c ∨ c + max P.chunkBytes pointerSize ≤ a →
      readWord bytes a = readWord w.state.bytes a) {l : List Nat}
    (hl : ∀ y, y ∈ l ↔ y ∈ w.handed ∧ y ∉ w.live) : ∀ y ∈ l, next bytes y = next w.state.bytes y := by
  intro y hy
  obtain ⟨hyh, hyl⟩ := (hl y).mp hy
  have hne : y ≠ c := fun heq => hyl (heq ▸ hc)
  obtain ⟨b, hb, rfl⟩ := (h.chunks c).mp (h.live_handed c hc)
  obtain ⟨b', hb', rfl⟩ := (h.chunks y).mp hyh
  exact h.laid.slot_congr hP hfit hb hbytes hb' hne

-- ========================================================= operations

omit hP hfit in
theorem sound_new (bytes : Bytes) : Sound P (World.new bytes) := by
  constructor
  case owned => exact fun _ hb => absurd hb List.not_mem_nil
  case apart => exact fun _ hb => absurd hb List.not_mem_nil
  case chunks => exact fun c => ⟨fun hc => absurd hc List.not_mem_nil, fun ⟨_, hb, _⟩ =>
    absurd hb List.not_mem_nil⟩
  case full => exact Nat.le_refl 0
  case headers => exact rfl
  case free => exact ⟨[], rfl, fun c => ⟨fun hc => absurd hc List.not_mem_nil, fun hc =>
    absurd hc.1 List.not_mem_nil⟩⟩
  case live_handed => exact fun _ hc => absurd hc List.not_mem_nil
  case live_nodup => exact List.nodup_nil

omit hP hfit in
/-- A chunk from the free list. -/
theorem Sound.reuse (h : Sound P w) (hfree : w.state.freeSlots ≠ 0) :
    Sound P ⟨{ w.state with freeSlots := readWord w.state.bytes w.state.freeSlots },
      w.state.freeSlots :: w.handed, w.state.freeSlots :: w.live⟩ := by
  obtain ⟨l, hlink, hmem⟩ := h.free
  obtain ⟨l, rfl⟩ := linked_head hlink hfree
  have hnodup := List.nodup_cons.mp hlink.nodup
  obtain ⟨hch, hcl⟩ := (hmem _).mp (List.mem_cons_self ..)
  constructor
  case owned => exact h.owned
  case apart => exact h.apart
  case chunks =>
    intro y
    rw [← h.chunks, List.mem_cons]
    exact ⟨fun hy => hy.elim (fun heq => heq ▸ hch) id, Or.inr⟩
  case full => exact h.full
  case headers => exact h.headers
  case free =>
    refine ⟨l, hlink.2, fun y => ⟨fun hy => ?_, fun ⟨hyh, hyl⟩ => ?_⟩⟩
    · obtain ⟨hyh, hyl⟩ := (hmem y).mp (List.mem_cons_of_mem _ hy)
      refine ⟨List.mem_cons_of_mem _ hyh, fun hy' => ?_⟩
      rcases List.mem_cons.mp hy' with rfl | hy'
      · exact hnodup.1 hy
      · exact hyl hy'
    · have hne : y ≠ w.state.freeSlots := fun heq => hyl (heq ▸ List.mem_cons_self ..)
      have hold := (hmem y).mpr ⟨(List.mem_cons.mp hyh).resolve_left hne,
        fun hy' => hyl (List.mem_cons_of_mem _ hy')⟩
      exact (List.mem_cons.mp hold).resolve_left hne
  case live_handed =>
    intro y hy
    rcases List.mem_cons.mp hy with rfl | hy
    · exact List.mem_cons_self ..
    · exact List.mem_cons_of_mem _ (h.live_handed y hy)
  case live_nodup => exact List.nodup_cons.mpr ⟨hcl, h.live_nodup⟩

/-- The chunk of a block uses it up. -/
theorem Owned.full {b : Block} (hb : Owned P b) :
    advance (State.firstSlot P b.addr) P.chunkSize
      ≤ advance (State.firstSlot P b.addr) (P.chunkCount * P.slotSize) := by
  obtain ⟨hle, hle8⟩ := hP.slotSize_bounds
  have hslots : P.chunkBytes ≤ P.chunkCount * P.slotSize := Nat.mul_le_mul_left _ hle
  have hslots8 : P.chunkCount * P.slotSize ≤ 8 * P.chunkBytes := by
    calc P.chunkCount * P.slotSize ≤ P.chunkCount * (8 * P.size) := Nat.mul_le_mul_left _ hle8
      _ = 8 * P.chunkBytes := by unfold Params.chunkBytes; ring
  have hin := (hb.firstSlot hP hfit).inside
  have hspace := hb.space
  have hrange : 9 * addressSpace < wordRange := by decide
  rw [hP.chunkSize_eq hfit, advance_eq (by omega), advance_eq (by omega)]
  exact Nat.add_le_add_left hslots _

/-- A chunk from a new block: its first slot, and its only one. -/
theorem Sound.grow (h : Sound P w) (hfree : w.state.freeSlots = 0) {answer bs : Nat}
    (hbs : P.blockSize fuel = some bs) (hg : Granted w.state.blocks ⟨answer, bs⟩) :
    Sound P ⟨w.state.grown P answer bs, State.firstSlot P answer :: w.handed,
      State.firstSlot P answer :: w.live⟩ := by
  have hlarge : P.minimumRequired ≤ bs := Params.blockSize_le hbs
  have howned : Owned P ⟨answer, bs⟩ := ⟨hg.pos, hg.page, hg.space, hlarge⟩
  have hapart := h.laid.apart_granted hP hfit hg hlarge
  have hlaid := h.laid.grant hP hfit hg hlarge
  obtain ⟨l, hlink, hmem⟩ := h.free
  have hnil : l = [] := (link_eq_none_iff hlink).mp hfree
  constructor
  case owned => exact hlaid.owned
  case apart => exact hlaid.apart
  case chunks =>
    intro c
    rw [List.mem_cons, h.chunks]
    constructor
    · intro h'
      rcases h' with rfl | ⟨b, hb, rfl⟩
      · exact ⟨_, List.mem_cons_self .., rfl⟩
      · exact ⟨b, List.mem_cons_of_mem _ hb, rfl⟩
    · intro h'
      obtain ⟨b, hb, rfl⟩ := h'
      rcases List.mem_cons.mp hb with rfl | hb
      · exact Or.inl rfl
      · exact Or.inr ⟨b, hb, rfl⟩
  case full => exact howned.full hP hfit
  case headers =>
    exact linked_grow (b := ⟨answer, bs⟩) (h.laid.link_lt h.headers fun _ ha => ha) h.headers
      (fun _ ha => ha) hg.pos hapart
  case free =>
    refine ⟨[], link_eq_none.mpr hfree, fun c =>
      ⟨fun hc => absurd hc List.not_mem_nil, fun ⟨hch, hcl⟩ => ?_⟩⟩
    exfalso
    have hold : c ∈ w.handed := (List.mem_cons.mp hch).resolve_left fun heq =>
      hcl (heq ▸ List.mem_cons_self ..)
    have hfreed : c ∈ l := (hmem c).mpr ⟨hold, fun hc => hcl (List.mem_cons_of_mem _ hc)⟩
    rw [hnil] at hfreed
    exact List.not_mem_nil hfreed
  case live_handed =>
    intro c hc
    rcases List.mem_cons.mp hc with rfl | hc
    · exact List.mem_cons_self ..
    · exact List.mem_cons_of_mem _ (h.live_handed c hc)
  case live_nodup =>
    refine List.nodup_cons.mpr ⟨fun hc => ?_, h.live_nodup⟩
    obtain ⟨b, hb, heq⟩ := (h.chunks _).mp (h.live_handed _ hc)
    exact hlaid.firstSlot_fresh hP hfit hapart (List.mem_map_of_mem hb) heq.symm

/-- A chunk that is given back goes to the front of the free list. -/
theorem Sound.deallocate (h : Sound P w) {p : Nat} (hp : p ∈ w.live) :
    Sound P ⟨w.state.deallocate p, w.handed, w.live.erase p⟩ := by
  have hhanded := h.live_handed p hp
  have hnull : p ≠ 0 := Nat.ne_of_gt (h.pointer hP hfit hhanded).1
  obtain ⟨l, hlink, hmem⟩ := h.free
  have hbytes : ∀ a, a + pointerSize ≤ p ∨ p + max P.chunkBytes pointerSize ≤ a →
      readWord (writeWord w.state.bytes p w.state.freeSlots) a = readWord w.state.bytes a := by
    intro a ha
    refine Memory.readWord_writeWord_of_disjoint ?_
    unfold pointerSize at ha
    omega
  rw [State.deallocate, if_pos hnull]
  constructor
  case owned => exact h.owned
  case apart => exact h.apart
  case chunks => exact h.chunks
  case full => exact h.full
  case headers => exact h.headers_congr hP hfit hhanded hbytes
  case free =>
    have hhead : next (writeWord w.state.bytes p w.state.freeSlots) p = link w.state.freeSlots := by
      rw [next, Memory.readWord_writeWord (h.freeSlots_lt hP hfit)]
    refine ⟨p :: l, (link_some hnull).symm ▸
      hlink.cons hhead (h.slots_congr hP hfit hp hbytes hmem), fun c => ?_⟩
    rw [List.mem_cons, hmem, h.live_nodup.mem_erase_iff]
    by_cases hc : c = p
    · simp [hc, hhanded]
    · simp [hc]
  case live_handed => exact fun c hc => h.live_handed c (List.mem_of_mem_erase hc)
  case live_nodup => exact h.live_nodup.erase p

/-- A write to a chunk in use. -/
theorem Sound.write (h : Sound P w) {a c : Nat} {byte : UInt8} (hc : c ∈ w.live) (hle : c ≤ a)
    (hlt : a < c + P.chunkBytes) :
    Sound P { w with state.bytes := setByte w.state.bytes a byte } := by
  obtain ⟨l, hlink, hmem⟩ := h.free
  have hbytes : ∀ b, b + pointerSize ≤ c ∨ c + max P.chunkBytes pointerSize ≤ b →
      readWord (setByte w.state.bytes a byte) b = readWord w.state.bytes b := by
    intro b hb
    refine Memory.readWord_setByte ?_
    unfold pointerSize at hb
    omega
  exact { h with
    headers := h.headers_congr hP hfit (h.live_handed c hc) hbytes
    free := ⟨l, hlink.congr (h.slots_congr hP hfit hc hbytes hmem), hmem⟩ }

/-- One operation. -/
theorem Sound.step (h : Sound P w) {op : Op} (hv : op.Valid P fuel w)
    (hs : w.step P fuel op = some w') : Sound P w' := by
  cases op with
  | allocate answer =>
      rw [World.step] at hs
      obtain ⟨x, hx, rfl⟩ := Option.map_eq_some_iff.mp hs
      -- the block is used up: there is always another
      rcases State.allocate_cases h.full hx with ⟨hfree, rfl⟩ | ⟨hneeds, bs, hbs, rfl⟩
      · exact h.reuse hfree
      · exact h.grow hP hfit hneeds.1 hbs (hv hneeds bs hbs)
  | deallocate p =>
      obtain rfl := Option.some.inj hs
      exact h.deallocate hP hfit hv
  | write a byte =>
      obtain ⟨c, hc, hle, hlt⟩ := hv
      obtain rfl := Option.some.inj hs
      exact h.write hP hfit hc hle hlt

/-- All of them. -/
theorem reached_sound (h : World.Reached P fuel w) : Sound P w := by
  induction h with
  | new bytes => exact sound_new bytes
  | step _ hv hs ih => exact ih.step hP hfit hv hs

end Invariant

-- ============================================================= safety

/-- The allocator does what it is used for. -/
structure Safe (P : Params) (w : World) : Prop where
  /-- the blocks are those that the chain of headers leads to -/
  owned : Linked (next w.state.bytes) (link w.state.currentBlock) (w.state.blocks.map Block.addr)
  inside : ∀ c ∈ w.handed, ∃ b ∈ w.state.blocks,
    b.addr + pointerSize ≤ c ∧ c + P.chunkBytes ≤ b.addr + b.size
  aligned : ∀ c ∈ w.handed, P.slotAlign ∣ c
  disjoint : w.live.Pairwise fun c c' => c + P.chunkBytes ≤ c' ∨ c' + P.chunkBytes ≤ c
  free : ∃ l, Linked (next w.state.bytes) (link w.state.freeSlots) l ∧ l.Nodup
    ∧ ∀ c, c ∈ l ↔ c ∈ w.handed ∧ c ∉ w.live

theorem Sound.safe (hP : P.Valid) (hfit : P.Fits) (h : Sound P w) : Safe P w := by
  constructor
  case owned => exact h.headers
  case inside =>
    intro c hc
    obtain ⟨b, hb, hof, _⟩ := h.chunk hP hfit hc
    exact ⟨b, hb, hof.header, hof.inside⟩
  case aligned =>
    intro c hc
    obtain ⟨b, hb, hof, _⟩ := h.chunk hP hfit hc
    exact hof.aligned
  case disjoint =>
    refine h.live_nodup.imp_of_mem fun {c c'} hc hc' hne => ?_
    have hapart := h.disjoint hP hfit (h.live_handed c hc) (h.live_handed c' hc') hne
    omega
  case free =>
    obtain ⟨l, hlink, hmem⟩ := h.free
    exact ⟨l, hlink, hlink.nodup, hmem⟩

/-- The size of a block is computed, where the pages of a block that is
large enough can be counted. -/
theorem Params.blockSize_total (hpage : 0 < P.pageSize)
    (hcount : P.minimumRequired + P.pageSize ≤ wordRange) (hfuel : P.minimumRequired ≤ fuel) :
    ∃ bs, P.blockSize fuel = some bs := by
  refine Loops.whileLoop_total (I := fun _ => True) (fun bs => P.minimumRequired - bs)
    (fun bs _ hlt => ?_) trivial (by omega)
  have hsmall : bs < P.minimumRequired := by simpa using hlt
  refine ⟨_, rfl, trivial, ?_⟩
  rw [Nat.mod_eq_of_lt (by omega)]
  omega

/-- And then an operation returns. -/
theorem World.step_total {bs : Nat} (hbs : P.blockSize fuel = some bs) (op : Op) :
    ∃ w', w.step P fuel op = some w' := by
  cases op with
  | allocate answer =>
      rw [World.step, State.allocate, State.allocateBlock, hbs]
      by_cases hfree : w.state.freeSlots = 0
      · rw [if_neg (not_not_intro hfree)]
        by_cases hlast : w.state.lastSlot ≤ w.state.currentSlot
        · rw [if_pos hlast]
          exact ⟨_, rfl⟩
        · rw [if_neg hlast]
          exact ⟨_, rfl⟩
      · rw [if_pos hfree]
        exact ⟨_, rfl⟩
  | deallocate p => exact ⟨_, rfl⟩
  | write a byte => exact ⟨_, rfl⟩

/-- Whatever is allocated, deallocated and written: chunks lie inside the
blocks of the allocator, those in use are disjoint, and the free list has
the others. -/
theorem pool_safe (hP : P.Valid) (hfit : P.Fits) (h : World.Reached P fuel w) : Safe P w :=
  (reached_sound hP hfit h).safe hP hfit

/-- Eight bytes an element, with the default arguments. -/
def pointers : Params := ⟨8, 8, 1, 4096, 8⟩

theorem pointers_valid : pointers.Valid :=
  ⟨⟨3, rfl, by decide⟩, ⟨by decide, Nat.dvd_refl 8⟩, Nat.le_refl 1, by decide⟩

theorem pointers_fits : pointers.Fits := by
  unfold Params.Fits
  decide

theorem valid_allocate {w : World} {answer : Nat} (h : Granted w.state.blocks ⟨answer, 4096⟩) :
    Op.Valid pointers 0 w (.allocate answer) := by
  intro _ bs hbs
  obtain rfl : 4096 = bs := Option.some.inj hbs
  exact h

theorem granted_first : Granted [] ⟨65536, 4096⟩ :=
  ⟨by decide, by decide, by decide, fun _ hb => absurd hb List.not_mem_nil⟩

theorem granted_second : Granted [⟨65536, 4096⟩] ⟨131072, 4096⟩ := by
  refine ⟨by decide, by decide, by decide, fun b hb => ?_⟩
  obtain rfl := List.mem_singleton.mp hb
  decide

theorem pool_safe_pointers :
    ∃ w, World.Reached pointers 0 w ∧ w.live = [65544] ∧ Safe pointers w := by
  have hreached := World.Reached.step (.new fun _ => 0) (valid_allocate granted_first) rfl
  exact ⟨_, hreached, rfl, pool_safe pointers_valid pointers_fits hreached⟩

/-- Elements of a page, so many to a block that their size wraps around. -/
def wrapped : Params := ⟨4096, 1, 1, 4096, 2 ^ 52⟩

/-- The first chunk ends behind its block. -/
theorem wrapped_not_safe : wrapped.Valid ∧ ∃ w, World.Reached wrapped 0 w ∧ ¬ Safe wrapped w := by
  have hvalid : wrapped.Valid :=
    ⟨⟨0, rfl, by decide⟩, ⟨by decide, Nat.one_dvd 4096⟩, Nat.le_refl 1, by decide⟩
  have hgranted : Op.Valid wrapped 0 (World.new fun _ => 0) (.allocate 65536) := by
    intro _ bs hbs
    obtain rfl : 4096 = bs := Option.some.inj hbs
    exact ⟨by decide, by decide, by decide, fun _ hb => absurd hb List.not_mem_nil⟩
  refine ⟨hvalid, _, World.Reached.step (.new fun _ => 0) hgranted rfl, fun hsafe => ?_⟩
  obtain ⟨b, hb, -, hin⟩ := hsafe.inside 65544 (by decide)
  obtain rfl : b = ⟨65536, 4096⟩ := List.mem_singleton.mp hb
  exact absurd hin (by decide)

end MctsConnectFour.Pool
