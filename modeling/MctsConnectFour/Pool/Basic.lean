/-
The memory of the move lists (pool_allocator.hpp).

The allocator is modelled over a memory of bytes: the links of the free
list and of the chain of blocks are words in it, at the addresses of the
slots and of the blocks themselves, and the elements of the chunks in use
share these bytes. Pointers and sizes are those of a 64-bit target, null is
zero, and the arithmetic of both wraps around.

`VirtualAlloc` is the operating system's. A call of `allocate` carries its
answer, and the store records the blocks it has answered with. The loop of
`block_size` carries fuel.
-/
import MctsConnectFour.Lib.Chain
import MctsConnectFour.Lib.Memory

namespace MctsConnectFour.Pool

open Memory (Bytes readWord writeWord setByte)

-- ============================================================== sizes

/-- The template arguments: what there is to know of `T`, and the rest. -/
structure Params where
  size : Nat
  align : Nat
  chunkCount : Nat
  pageSize : Nat
  minAlloc : Nat

/-- The values of `size_type`, and of the pointers. -/
def wordRange : Nat := 2 ^ 64

/-- `sizeof ( SlotPointer )`, which is its alignment too. -/
def pointerSize : Nat := 8

namespace Params

/-- The bytes of the elements of a chunk. -/
def chunkBytes (P : Params) : Nat := P.chunkCount * P.size

/-- What the language promises of the size and the alignment of a type,
and what the arguments are asked for. -/
structure Valid (P : Params) : Prop where
  align : ∃ k, P.align = 2 ^ k ∧ k < 64
  size : 0 < P.size ∧ P.align ∣ P.size
  chunkCount : 1 ≤ P.chunkCount
  minAlloc : 1 ≤ P.minAlloc

/-- `alignof ( SlotType )`: of a union, the largest of its members'. -/
def slotAlign (P : Params) : Nat := max P.align pointerSize

/-- `sizeof ( SlotType )`: the largest of its members', padded to the
alignment. -/
def slotSize (P : Params) : Nat :=
  (max P.size pointerSize + P.slotAlign - 1) / P.slotAlign * P.slotAlign

/-- `chunk_size ( )`. -/
def chunkSize (P : Params) : Nat := P.chunkCount * P.size % wordRange

/-- `minimum_required_block_size`. -/
def minimumRequired (P : Params) : Nat :=
  (pointerSize + P.minAlloc * P.chunkSize + P.align) % wordRange

/-- `block_size ( )`. -/
def blockSize (P : Params) (fuel : Nat) : Option Nat :=
  Loops.whileLoop (fun bs => decide (bs < P.minimumRequired))
    (fun bs => some ((bs + P.pageSize) % wordRange)) fuel P.pageSize

end Params

/-- `pad_pointer ( p, align )`. -/
def padPointer (p align : Nat) : Nat := (align + wordRange - p) % wordRange % align

/-- A pointer moved on by a number of bytes. -/
def advance (p n : Nat) : Nat := (p + n) % wordRange

-- ============================================================== state

/-- A block that `VirtualAlloc` has returned. -/
structure Block where
  addr : Nat
  size : Nat
deriving DecidableEq, Repr

/-- The allocator, the memory, and the blocks that the allocator has asked
for. -/
structure State where
  bytes : Bytes
  blocks : List Block
  currentBlock : Nat
  currentSlot : Nat
  lastSlot : Nat
  freeSlots : Nat

namespace State

/-- The constructor. -/
def new (bytes : Bytes) : State := ⟨bytes, [], 0, 0, 0, 0⟩

/-- `virtual_alloc ( size )`, answered. What it leaves in the block is not
read. -/
def virtualAlloc (s : State) (size answer : Nat) : State × Nat :=
  ({ s with blocks := ⟨answer, size⟩ :: s.blocks }, answer)

/-- The first slot of a block, behind its header. -/
def firstSlot (P : Params) (block : Nat) : Nat :=
  let body := advance block pointerSize
  advance body (padPointer body P.slotAlign)

/-- `allocate_block ( )`. -/
def allocateBlock (P : Params) (fuel answer : Nat) (s : State) : Option State :=
  (P.blockSize fuel).map fun bs =>
    let (s, newBlock) := s.virtualAlloc bs answer
    let slot := firstSlot P newBlock
    { s with
      bytes := writeWord s.bytes newBlock s.currentBlock
      currentBlock := newBlock
      currentSlot := slot
      lastSlot := advance slot P.chunkSize }

/-- Whether `allocate ( )` will ask for a block. -/
def NeedsBlock (s : State) : Prop := s.freeSlots = 0 ∧ s.lastSlot ≤ s.currentSlot

instance (s : State) : Decidable s.NeedsBlock := by
  unfold NeedsBlock
  infer_instance

/-- `allocate ( )`. -/
def allocate (P : Params) (fuel answer : Nat) (s : State) : Option (State × Nat) :=
  if s.freeSlots ≠ 0 then
    some ({ s with freeSlots := readWord s.bytes s.freeSlots }, s.freeSlots)
  else
    (if s.lastSlot ≤ s.currentSlot then s.allocateBlock P fuel answer else some s).map fun s =>
      ({ s with currentSlot := advance s.currentSlot (P.chunkCount * P.slotSize) }, s.currentSlot)

/-- `deallocate ( p )`. -/
def deallocate (p : Nat) (s : State) : State :=
  if p ≠ 0 then { s with bytes := writeWord s.bytes p s.freeSlots, freeSlots := p } else s

end State

-- =============================================================== runs

/-- An allocator in use: the chunks that have been handed out, and those of
them that are live. -/
structure World where
  state : State
  handed : List Nat
  live : List Nat

/-- What is done to an allocator and to the chunks it hands out. -/
inductive Op where
  | allocate (answer : Nat)
  | deallocate (p : Nat)
  | write (a : Nat) (byte : UInt8)

/-- The user half of the address space of a 64-bit Windows. -/
def addressSpace : Nat := 2 ^ 47

/-- What `VirtualAlloc` promises of a block: it is there, it begins with a
page, and it has no byte in common with the blocks before it. -/
structure Granted (blocks : List Block) (b : Block) : Prop where
  pos : 0 < b.addr
  page : 4096 ∣ b.addr
  space : b.addr + b.size ≤ addressSpace
  fresh : ∀ b' ∈ blocks, b'.addr + b'.size ≤ b.addr ∨ b.addr + b.size ≤ b'.addr

/-- Only live chunks are deallocated, and only they are written to. -/
def Op.Valid (P : Params) (fuel : Nat) (w : World) : Op → Prop
  | allocate answer => w.state.NeedsBlock → ∀ bs, P.blockSize fuel = some bs →
      Granted w.state.blocks ⟨answer, bs⟩
  | deallocate p => p ∈ w.live
  | write a _ => ∃ c ∈ w.live, c ≤ a ∧ a < c + P.chunkBytes

namespace World

def new (bytes : Bytes) : World := ⟨State.new bytes, [], []⟩

def step (P : Params) (fuel : Nat) (w : World) : Op → Option World
  | .allocate answer => (w.state.allocate P fuel answer).map fun (s, p) =>
      ⟨s, p :: w.handed, p :: w.live⟩
  | .deallocate p => some ⟨w.state.deallocate p, w.handed, w.live.erase p⟩
  | .write a byte => some { w with state.bytes := setByte w.state.bytes a byte }

/-- The worlds that a sequence of operations on one allocator leads to. -/
inductive Reached (P : Params) (fuel : Nat) : World → Prop where
  | new (bytes : Bytes) : Reached P fuel (new bytes)
  | step {w w' : World} {op : Op} (h : Reached P fuel w) (hv : op.Valid P fuel w)
      (hs : w.step P fuel op = some w') : Reached P fuel w'

end World

end MctsConnectFour.Pool
