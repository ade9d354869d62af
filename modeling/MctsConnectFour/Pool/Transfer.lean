/-
Allocators that are moved.

Several allocators share the memory and the operating system; each is four
pointers. The move constructor copies these and leaves the source as it
is, so that both own its blocks. The move assignment exchanges the blocks,
but leaves the source its slots and its free list, whose chunks are now in
the blocks of the other: what the source hands out from there is handed
out twice.

`left` keeps, of each allocator, the slot that such an assignment has left
it with; `PoolOp.Orderly` says which operations do no harm. As long as
there are no others, the chains of headers are those of the blocks, each
of one allocator, and the free slots of an allocator in front of what it
has been left with are its own (`PoolsInv`).
-/
import MctsConnectFour.Lib.Ownership
import MctsConnectFour.Pool.Destructor

namespace MctsConnectFour.Pool

open Chain (Linked Segment)
open Memory (Bytes readWord writeWord setByte)

-- ========================================================== allocators

/-- The members of an allocator. -/
structure Pointers where
  currentBlock : Nat
  currentSlot : Nat
  lastSlot : Nat
  freeSlots : Nat

namespace Pointers

/-- The default constructor. -/
def new : Pointers := ⟨0, 0, 0, 0⟩

/-- The move constructor. The source stays as it is. -/
def moveConstruct (q : Pointers) : Pointers :=
  ⟨q.currentBlock, q.currentSlot, q.lastSlot, q.freeSlots⟩

/-- The move assignment, of two allocators: both sides. -/
def moveAssign (p q : Pointers) : Pointers × Pointers :=
  (⟨q.currentBlock, q.currentSlot, q.lastSlot, q.freeSlots⟩,
    { q with currentBlock := p.currentBlock })

end Pointers

/-- The members of the allocator in a state. -/
def State.pointers (s : State) : Pointers :=
  ⟨s.currentBlock, s.currentSlot, s.lastSlot, s.freeSlots⟩

/-- Allocators in use, by address. `blocks` are the blocks that have been
granted and not freed; `granted` and `freed` are the books of these.
`left` is what the last assignment from an allocator has left in its
`m_free_slots`, null when there has been none; it goes with the free list
when that is moved on. -/
structure Pools where
  bytes : Bytes
  blocks : List Block
  pools : Nat → Option Pointers
  live : List Nat
  granted : List Nat
  freed : List Nat
  left : Nat → Nat

/-- What is done to allocators and the chunks they hand out. -/
inductive PoolOp where
  | construct (i : Nat)
  | moveConstruct (i j : Nat)
  | moveAssign (i j : Nat)
  | allocate (i answer : Nat)
  | deallocate (i c : Nat)
  | write (a : Nat) (byte : UInt8)
  | destroy (i : Nat)

namespace Pools

/-- The state that an allocator is in. -/
def state (w : Pools) (p : Pointers) : State :=
  ⟨w.bytes, w.blocks, p.currentBlock, p.currentSlot, p.lastSlot, p.freeSlots⟩

/-- No allocator. -/
def start (bytes : Bytes) : Pools := ⟨bytes, [], fun _ => none, [], [], [], fun _ => 0⟩

/-- An allocator that is no more: the blocks `gone` have been freed, and
the chunks in them are lost. -/
def release (P : Params) (i : Nat) (gone : List Nat) (w : Pools) : Pools :=
  { w with
    blocks := w.blocks.filter fun b => decide (b.addr ∉ gone)
    pools := Function.update w.pools i none
    live := w.live.filter fun c => decide (c ∉ gone.map (State.firstSlot P))
    freed := gone ++ w.freed }

def step (P : Params) (trivial : Bool) (sort : List Nat → List Nat) (fuel : Nat) (w : Pools) :
    PoolOp → Option Pools
  | .construct i =>
      some { w with
        pools := Function.update w.pools i (some .new)
        left := Function.update w.left i 0 }
  | .moveConstruct i j =>
      (w.pools j).map fun q =>
        { w with
          pools := Function.update w.pools i (some q.moveConstruct)
          left := Function.update w.left i (w.left j) }
  | .moveAssign i j =>
      if i = j then some w
      else
        (w.pools i).bind fun p => (w.pools j).map fun q =>
          { w with
            pools := Function.update (Function.update w.pools i (some (p.moveAssign q).1)) j
              (some (p.moveAssign q).2)
            left := Function.update (Function.update w.left i (w.left j)) j q.freeSlots }
  | .allocate i answer =>
      (w.pools i).bind fun p => ((w.state p).allocate P fuel answer).map fun (s, c) =>
        { w with
          bytes := s.bytes
          blocks := s.blocks
          pools := Function.update w.pools i (some s.pointers)
          live := c :: w.live
          granted := if (w.state p).NeedsBlock then answer :: w.granted else w.granted }
  | .deallocate i c =>
      (w.pools i).map fun p =>
        { w with
          bytes := ((w.state p).deallocate c).bytes
          pools := Function.update w.pools i (some ((w.state p).deallocate c).pointers)
          live := w.live.erase c }
  | .write a byte => some { w with bytes := setByte w.bytes a byte }
  | .destroy i =>
      (w.pools i).bind fun p => ((w.state p).destruct P trivial sort fuel).map fun events =>
        w.release P i (events.filterMap Event.block)

/-- Given the fuel, an operation leads from `w` to `w'`. -/
def Leads (P : Params) (trivial : Bool) (sort : List Nat → List Nat) (w : Pools) (op : PoolOp)
    (w' : Pools) : Prop :=
  ∃ enough, ∀ fuel, enough ≤ fuel → w.step P trivial sort fuel op = some w'

/-- An allocator owns the blocks that the chain from its `m_current_block`
on leads through. -/
def Owns (w : Pools) (i a : Nat) : Prop :=
  ∃ p l, w.pools i = some p ∧ Linked (next w.bytes) (link p.currentBlock) l ∧ a ∈ l

end Pools

/-- Allocators are constructed where there is none, and used where there is
one. A live chunk is given back to the owner of its block; only live chunks
are written to. -/
def PoolOp.Valid (P : Params) (w : Pools) : PoolOp → Prop
  | construct i => w.pools i = none
  | moveConstruct i j => w.pools i = none ∧ w.pools j ≠ none
  | moveAssign i j => w.pools i ≠ none ∧ w.pools j ≠ none
  | allocate i answer => ∃ p, w.pools i = some p ∧ ((w.state p).NeedsBlock →
      ∀ fuel bs, P.blockSize fuel = some bs → Granted w.blocks ⟨answer, bs⟩)
  | deallocate i c => c ∈ w.live
      ∧ ∃ b ∈ w.blocks, w.Owns i b.addr ∧ b.addr ≤ c ∧ c < b.addr + b.size
  | write a _ => ∃ c ∈ w.live, c ≤ a ∧ a < c + P.chunkBytes
  | destroy i => w.pools i ≠ none

/-- Elements that are not trivially destructible are destroyed one by one.
This is done when there is one to a chunk; then it must be possible to
find them. -/
structure Pools.Findable (P : Params) (w : Pools) (i : Nat) (p : Pointers) : Prop where
  left : w.left i = 0
  slots : p.currentBlock ≠ 0 →
    p.currentSlot = advance (State.firstSlot P p.currentBlock) (P.chunkCount * P.slotSize)
  last : p.freeSlots = 0 ∨ ∃ l f, Linked (next w.bytes) (link p.freeSlots) l ∧ f ∈ l
    ∧ ∀ a, w.Owns i a → State.firstSlot P a ≤ f

/-- The operations that do no harm. An allocator that is moved from by
construction owns no block. One that has been moved from by assignment
does not hand out the slot that it has been left with. -/
def PoolOp.Orderly (P : Params) (trivial : Bool) (w : Pools) : PoolOp → Prop
  | moveConstruct _ j => ∀ q, w.pools j = some q → q.currentBlock = 0
  | allocate i _ => ∀ p, w.pools i = some p → w.left i ≠ 0 → p.freeSlots ≠ w.left i
  | destroy i => trivial = true ∨ ∀ p, w.pools i = some p →
      (P.chunkCount = 1 → w.Findable P i p) ∧ (P.chunkCount ≠ 1 → p.currentBlock = 0)
  | _ => True

/-- The worlds that operations lead to when all are `ok`. -/
inductive Pools.Reached (P : Params) (trivial : Bool) (sort : List Nat → List Nat)
    (ok : Pools → PoolOp → Prop) : Pools → Prop
  | start (bytes : Bytes) : Reached P trivial sort ok (start bytes)
  | step {w w' : Pools} {op : PoolOp} (h : Reached P trivial sort ok w) (hv : op.Valid P w)
      (hok : ok w op) (hs : w.Leads P trivial sort op w') : Reached P trivial sort ok w'

/-- Ownership as it should be: every block that has not been freed is owned
by one allocator, and was granted once more than it has been freed; live
chunks lie in these blocks and are disjoint. -/
structure Pools.Transfers (P : Params) (w : Pools) : Prop where
  owned : Ownership.Owned w.Owns (· ∈ w.blocks.map Block.addr)
  ledger : Ownership.Ledger w.granted w.freed (· ∈ w.blocks.map Block.addr)
  inside : ∀ c ∈ w.live, ∃ b ∈ w.blocks, b.addr + pointerSize ≤ c
    ∧ c + P.chunkBytes ≤ b.addr + b.size
  disjoint : w.live.Pairwise fun c c' => c + P.chunkBytes ≤ c' ∨ c' + P.chunkBytes ≤ c

-- ======================================================= the invariant

/-- An allocator whose blocks are `chain`, and whose free slots are `free`,
in front of what it has been left with. -/
structure Pointers.At (bytes : Bytes) (left : Nat) (chain free : List Nat) (p : Pointers) :
    Prop where
  headers : Linked (next bytes) (link p.currentBlock) chain
  full : p.lastSlot ≤ p.currentSlot
  bound : p.freeSlots < wordRange
  slots : Segment (next bytes) (link p.freeSlots) free (link left)

/-- The invariant of orderly operations. -/
structure PoolsInv (P : Params) (w : Pools) (chain free : Nat → List Nat) : Prop where
  laid : Laid P w.blocks
  each : ∀ {i p}, w.pools i = some p → p.At w.bytes (w.left i) (chain i) (free i)
  gone : ∀ {i}, w.pools i = none → chain i = []
  owned : Ownership.Owned (fun i a => a ∈ chain i) (· ∈ w.blocks.map Block.addr)
  ledger : Ownership.Ledger w.granted w.freed (· ∈ w.blocks.map Block.addr)
  spare : ∀ {i c}, c ∈ free i → c ∉ w.live ∧ ∃ a ∈ chain i, c = State.firstSlot P a
  free_nodup : ∀ i, (free i).Nodup
  live_chunk : ∀ c ∈ w.live, ∃ b ∈ w.blocks, c = State.firstSlot P b.addr
  live_nodup : w.live.Nodup

variable {P : Params} {trivial : Bool} {sort : List Nat → List Nat} {w w' : Pools}
  {chain free : Nat → List Nat} {i j : Nat} {p q : Pointers}

/-- What holds of one allocator that is set, and of all others. -/
theorem each_update {pools : Nat → Option Pointers} {Q : Nat → Pointers → Prop} (hi : Q i p)
    (hother : ∀ {k r}, k ≠ i → pools k = some r → Q k r) {k : Nat} {r : Pointers}
    (hk : Function.update pools i (some p) k = some r) : Q k r := by
  by_cases hki : k = i
  · subst hki
    rw [Function.update_self] at hk
    exact Option.some.inj hk ▸ hi
  · rw [Function.update_of_ne hki] at hk
    exact hother hki hk

theorem forall_update {l : Nat → List Nat} {l' : List Nat} {Q : List Nat → Prop} (hi : Q l')
    (hother : ∀ k, Q (l k)) (k : Nat) : Q (Function.update l i l' k) :=
  (Function.forall_update_iff l fun _ => Q).mpr ⟨hi, fun k _ => hother k⟩ k

/-- One that is set is there. -/
theorem none_of_update {pools : Nat → Option Pointers} {k : Nat}
    (hk : Function.update pools i (some p) k = none) : k ≠ i ∧ pools k = none := by
  by_cases hki : k = i
  · subst hki
    rw [Function.update_self] at hk
    cases hk
  · rw [Function.update_of_ne hki] at hk
    exact ⟨hki, hk⟩

theorem mem_update_cons {l : Nat → List Nat} {k a b : Nat} :
    b ∈ Function.update l i (a :: l i) k ↔ b ∈ l k ∨ k = i ∧ b = a := by
  by_cases hki : k = i
  · subst hki
    rw [Function.update_self, List.mem_cons]
    simp [or_comm]
  · rw [Function.update_of_ne hki]
    simp [hki]

theorem Pointers.At.congr {bytes bytes' : Bytes} {left : Nat} {as l : List Nat}
    (h : p.At bytes left as l) (has : ∀ a ∈ as, next bytes' a = next bytes a)
    (hl : ∀ c ∈ l, next bytes' c = next bytes c) : p.At bytes' left as l :=
  ⟨h.headers.congr has, h.full, h.bound, h.slots.congr hl⟩

/-- The blocks of an allocator are those that its headers lead through. -/
theorem PoolsInv.owns_iff (h : PoolsInv P w chain free) {a : Nat} : w.Owns i a ↔ a ∈ chain i := by
  constructor
  · intro howns
    obtain ⟨p, l, hp, hl, ha⟩ := howns
    rwa [(h.each hp).headers.unique hl]
  · intro ha
    cases hp : w.pools i with
    | none =>
        rw [h.gone hp] at ha
        exact absurd ha List.not_mem_nil
    | some p => exact ⟨p, chain i, hp, (h.each hp).headers, ha⟩

/-- An allocator without blocks has no free slots of its own. -/
theorem PoolsInv.free_nil (h : PoolsInv P w chain free) (hnil : chain i = []) : free i = [] := by
  refine List.eq_nil_iff_forall_not_mem.mpr fun c hc => ?_
  obtain ⟨a, ha, -⟩ := (h.spare hc).2
  rw [hnil] at ha
  exact List.not_mem_nil ha

theorem PoolsInv.chain_nil (h : PoolsInv P w chain free) (hp : w.pools i = some p)
    (hnull : p.currentBlock = 0) : chain i = [] :=
  (link_eq_none_iff (h.each hp).headers).mp hnull

/-- The block of a chain. -/
theorem PoolsInv.block (h : PoolsInv P w chain free) {a : Nat} (ha : a ∈ chain i) :
    ∃ b ∈ w.blocks, b.addr = a := List.mem_map.mp (h.owned.mem ha)

theorem poolsInv_start (bytes : Bytes) :
    PoolsInv P (Pools.start bytes) (fun _ => []) (fun _ => []) := by
  constructor
  case laid =>
    exact ⟨fun _ hb => absurd hb List.not_mem_nil, fun _ hb => absurd hb List.not_mem_nil⟩
  case each => exact fun hp => absurd hp (by simp [Pools.start])
  case gone => exact fun _ => rfl
  case owned => exact ⟨fun a => by simp [Pools.start], fun hi => absurd hi List.not_mem_nil⟩
  case ledger => exact Ownership.ledger_nil fun _ ha => absurd ha List.not_mem_nil
  case spare => exact fun hc => absurd hc List.not_mem_nil
  case free_nodup => exact fun _ => List.nodup_nil
  case live_chunk => exact fun _ hc => absurd hc List.not_mem_nil
  case live_nodup => exact List.nodup_nil

-- =============================================================== moves

/-- A new allocator, which owns no block, and whose free list is what it
has been left with. -/
theorem PoolsInv.construct (h : PoolsInv P w chain free) (hi : w.pools i = none) {left : Nat}
    (hp : p.At w.bytes left [] []) :
    PoolsInv P { w with
      pools := Function.update w.pools i (some p)
      left := Function.update w.left i left } chain free := by
  have hchain := h.gone hi
  have hfree := h.free_nil hchain
  constructor
  case laid => exact h.laid
  case each =>
    refine each_update (Q := fun k r => r.At w.bytes (Function.update w.left i left k) (chain k)
      (free k)) ?_ fun {k r} hki hk => ?_
    · rw [hchain, hfree, Function.update_self]
      exact hp
    · rw [Function.update_of_ne hki]
      exact h.each hk
  case gone => exact fun hk => h.gone (none_of_update hk).2
  case owned => exact h.owned
  case ledger => exact h.ledger
  case spare => exact h.spare
  case free_nodup => exact h.free_nodup
  case live_chunk => exact h.live_chunk
  case live_nodup => exact h.live_nodup

/-- The blocks are exchanged; the free slots go to the left side, and stay
where they are. -/
theorem PoolsInv.moveAssign (h : PoolsInv P w chain free) (hp : w.pools i = some p)
    (hq : w.pools j = some q) :
    PoolsInv P { w with
      pools := Function.update (Function.update w.pools i (some (p.moveAssign q).1)) j
        (some (p.moveAssign q).2)
      left := Function.update (Function.update w.left i (w.left j)) j q.freeSlots }
      (fun k => chain (Equiv.swap i j k))
      (Function.update (Function.update free i (free j)) j []) := by
  have hpi := h.each hp
  have hqj := h.each hq
  have hfree : ∀ k, k ≠ i → k ≠ j →
      Function.update (Function.update free i (free j)) j [] k = free k := by
    intro k hki hkj
    rw [Function.update_of_ne hkj, Function.update_of_ne hki]
  constructor
  case laid => exact h.laid
  case each =>
    refine each_update (Q := fun k r => r.At w.bytes
      (Function.update (Function.update w.left i (w.left j)) j q.freeSlots k)
      (chain (Equiv.swap i j k)) (Function.update (Function.update free i (free j)) j [] k))
      ?_ fun {k r} hkj hk => ?_
    · rw [Function.update_self, Function.update_self, Equiv.swap_apply_right]
      exact ⟨hpi.headers, hqj.full, hqj.bound, rfl⟩
    · revert hkj
      refine each_update (Q := fun k r => k ≠ j → r.At w.bytes
        (Function.update (Function.update w.left i (w.left j)) j q.freeSlots k)
        (chain (Equiv.swap i j k)) (Function.update (Function.update free i (free j)) j [] k))
        ?_ (fun {k r} hki hk hkj => ?_) hk
      · intro hij
        rw [Function.update_of_ne hij, Function.update_self, Function.update_of_ne hij,
          Function.update_self, Equiv.swap_apply_left]
        exact hqj
      · rw [Function.update_of_ne hkj, Function.update_of_ne hki, hfree k hki hkj,
          Equiv.swap_apply_of_ne_of_ne hki hkj]
        exact h.each hk
  case gone =>
    intro k hk
    obtain ⟨hkj, hk⟩ := none_of_update hk
    obtain ⟨hki, hk⟩ := none_of_update hk
    rw [Equiv.swap_apply_of_ne_of_ne hki hkj]
    exact h.gone hk
  case owned => exact h.owned.permute (Equiv.swap i j) (fun _ _ => Iff.rfl) fun _ => Iff.rfl
  case ledger => exact h.ledger
  case spare =>
    intro k c hc
    by_cases hkj : k = j
    · rw [hkj, Function.update_self] at hc
      exact absurd hc List.not_mem_nil
    · by_cases hki : k = i
      · rw [Function.update_of_ne hkj, hki, Function.update_self] at hc
        rw [hki, Equiv.swap_apply_left]
        exact h.spare hc
      · rw [hfree k hki hkj] at hc
        rw [Equiv.swap_apply_of_ne_of_ne hki hkj]
        exact h.spare hc
  case free_nodup =>
    have hfirst := forall_update (Q := List.Nodup) (h.free_nodup j) h.free_nodup (i := i)
    exact forall_update List.nodup_nil hfirst
  case live_chunk => exact h.live_chunk
  case live_nodup => exact h.live_nodup

-- ============================================================== chunks

section Chunks

variable (hP : P.Valid) (hfit : P.Fits)

include hP hfit

/-- A slot is on the free list of the owner of its block only. -/
theorem PoolsInv.free_unique (h : PoolsInv P w chain free) {c : Nat} (hi : c ∈ free i)
    (hj : c ∈ free j) : j = i := by
  obtain ⟨a, ha, hslot⟩ := (h.spare hi).2
  obtain ⟨a', ha', hslot'⟩ := (h.spare hj).2
  obtain rfl : a' = a := h.laid.firstSlot_inj hP hfit (h.owned.mem ha') (h.owned.mem ha)
    (hslot'.symm.trans hslot)
  exact h.owned.unique ha' ha

/-- A chunk from the free list, when it is one of the allocator's own. -/
theorem PoolsInv.reuse (h : PoolsInv P w chain free) (hp : w.pools i = some p)
    (hfree : p.freeSlots ≠ 0) (hleft : w.left i ≠ 0 → p.freeSlots ≠ w.left i) :
    (∃ a ∈ chain i, p.freeSlots = State.firstSlot P a)
      ∧ PoolsInv P { w with
          pools := Function.update w.pools i
            (some { p with freeSlots := readWord w.bytes p.freeSlots })
          live := p.freeSlots :: w.live } chain (Function.update free i (free i).tail) := by
  have hat := h.each hp
  have hslots := hat.slots
  cases hl : free i with
  | nil =>
      rw [hl] at hslots
      have heq : p.freeSlots = w.left i := eq_of_link_eq hslots
      exact absurd heq (hleft (heq ▸ hfree))
  | cons c l =>
      rw [hl] at hslots
      obtain ⟨hc, hrest⟩ := hslots
      obtain rfl := eq_of_link hc
      have hmem : p.freeSlots ∈ free i := hl ▸ List.mem_cons_self ..
      obtain ⟨hlive, a, ha, hslot⟩ := h.spare hmem
      have hnodup := List.nodup_cons.mp (hl ▸ h.free_nodup i)
      refine ⟨⟨a, ha, hslot⟩, ?_⟩
      constructor
      case laid => exact h.laid
      case each =>
        refine each_update (Q := fun k r => r.At w.bytes (w.left k) (chain k)
          (Function.update free i l k)) ?_ fun {k r} hki hk => ?_
        · rw [Function.update_self]
          exact ⟨hat.headers, hat.full, Memory.readWord_lt .., hrest⟩
        · rw [Function.update_of_ne hki]
          exact h.each hk
      case gone => exact fun hk => h.gone (none_of_update hk).2
      case owned => exact h.owned
      case ledger => exact h.ledger
      case spare =>
        intro k c hck
        have hold : c ∈ free k ∧ c ≠ p.freeSlots := by
          by_cases hki : k = i
          · rw [hki, Function.update_self] at hck
            exact ⟨hki ▸ hl ▸ List.mem_cons_of_mem _ hck, fun heq => hnodup.1 (heq ▸ hck)⟩
          · rw [Function.update_of_ne hki] at hck
            exact ⟨hck, fun heq => hki (h.free_unique hP hfit hmem (heq ▸ hck))⟩
        obtain ⟨hnot, hchunk⟩ := h.spare hold.1
        exact ⟨fun hc => (List.mem_cons.mp hc).elim hold.2 hnot, hchunk⟩
      case free_nodup => exact forall_update hnodup.2 h.free_nodup
      case live_chunk =>
        intro c hc
        rcases List.mem_cons.mp hc with rfl | hc
        · obtain ⟨b, hb, rfl⟩ := h.block ha
          exact ⟨b, hb, hslot⟩
        · exact h.live_chunk c hc
      case live_nodup => exact List.nodup_cons.mpr ⟨hlive, h.live_nodup⟩

/-- A chunk from a new block. -/
theorem PoolsInv.grow (h : PoolsInv P w chain free) (hp : w.pools i = some p)
    {answer bs : Nat} (hlarge : P.minimumRequired ≤ bs)
    (hg : Granted w.blocks ⟨answer, bs⟩) :
    PoolsInv P { w with
      bytes := writeWord w.bytes answer p.currentBlock
      blocks := ⟨answer, bs⟩ :: w.blocks
      pools := Function.update w.pools i (some ((w.state p).grown P answer bs).pointers)
      live := State.firstSlot P answer :: w.live
      granted := answer :: w.granted } (Function.update chain i (answer :: chain i)) free := by
  have hat := h.each hp
  have hapart := h.laid.apart_granted hP hfit hg hlarge
  have hlaid := h.laid.grant hP hfit hg hlarge
  have hnew : (⟨answer, bs⟩ : Block) ∈ (⟨answer, bs⟩ : Block) :: w.blocks := List.mem_cons_self ..
  have hfull := (hlaid.owned _ hnew).full hP hfit
  have hfresh : answer ∉ w.blocks.map Block.addr := addr_fresh (b := ⟨answer, bs⟩) hapart
  have hslot : ∀ {a}, a ∈ w.blocks.map Block.addr →
      State.firstSlot P a ≠ State.firstSlot P answer := hlaid.firstSlot_fresh hP hfit hapart
  -- neither headers nor slots are where the new header is
  have hheaders : ∀ a ∈ w.blocks.map Block.addr,
      next (writeWord w.bytes answer p.currentBlock) a = next w.bytes a :=
    fun a ha => next_writeWord_of_apart (b := ⟨answer, bs⟩) hapart ha
  have hslots : ∀ {k}, ∀ c ∈ free k,
      next (writeWord w.bytes answer p.currentBlock) c = next w.bytes c := by
    intro k c hc
    obtain ⟨a, ha, rfl⟩ := (h.spare hc).2
    exact hlaid.slot_writeWord hP hfit (h.owned.mem ha)
  constructor
  case laid => exact hlaid
  case each =>
    refine each_update (Q := fun k r => r.At (writeWord w.bytes answer p.currentBlock) (w.left k)
      (Function.update chain i (answer :: chain i) k) (free k)) ?_ fun {k r} hki hk => ?_
    · rw [Function.update_self]
      refine ⟨?_, hfull, hat.bound, hat.slots.congr hslots⟩
      exact linked_grow (b := ⟨answer, bs⟩)
        (h.laid.link_lt hat.headers fun _ ha => h.owned.mem ha) hat.headers
        (fun _ ha => h.owned.mem ha) hg.pos hapart
    · rw [Function.update_of_ne hki]
      exact (h.each hk).congr (fun a ha => hheaders a (h.owned.mem ha)) hslots
  case gone =>
    intro k hk
    obtain ⟨hki, hk⟩ := none_of_update hk
    rw [Function.update_of_ne hki]
    exact h.gone hk
  case owned =>
    exact h.owned.take hfresh (fun k a => mem_update_cons) fun a =>
      List.mem_cons.trans or_comm
  case ledger => exact h.ledger.take hfresh fun a => List.mem_cons.trans or_comm
  case spare =>
    intro k c hc
    obtain ⟨hnot, a, ha, rfl⟩ := h.spare hc
    refine ⟨fun hmem => ?_, a, mem_update_cons.mpr (Or.inl ha), rfl⟩
    exact (List.mem_cons.mp hmem).elim (hslot (h.owned.mem ha)) hnot
  case free_nodup => exact h.free_nodup
  case live_chunk =>
    intro c hc
    rcases List.mem_cons.mp hc with rfl | hc
    · exact ⟨_, hnew, rfl⟩
    · obtain ⟨b, hb, rfl⟩ := h.live_chunk c hc
      exact ⟨b, List.mem_cons_of_mem _ hb, rfl⟩
  case live_nodup =>
    refine List.nodup_cons.mpr ⟨fun hmem => ?_, h.live_nodup⟩
    obtain ⟨b, hb, hb'⟩ := h.live_chunk _ hmem
    exact hslot (List.mem_map_of_mem hb) hb'.symm

/-- What is written to a live chunk is not in the way of any allocator. -/
theorem PoolsInv.at_congr (h : PoolsInv P w chain free) {bytes : Bytes} {c : Nat} (hc : c ∈ w.live)
    (hbytes : ∀ a, a + pointerSize ≤ c ∨ c + max P.chunkBytes pointerSize ≤ a →
      readWord bytes a = readWord w.bytes a) (hp : w.pools i = some p) :
    p.At bytes (w.left i) (chain i) (free i) := by
  obtain ⟨b, hb, rfl⟩ := h.live_chunk c hc
  refine (h.each hp).congr
    (fun a ha => h.laid.header_congr hP hfit hb hbytes (h.owned.mem ha)) fun c hfree => ?_
  obtain ⟨hnot, a, ha, rfl⟩ := h.spare hfree
  obtain ⟨b', hb', rfl⟩ := h.block ha
  exact h.laid.slot_congr hP hfit hb hbytes hb' fun heq => hnot (heq ▸ hc)

/-- A live chunk that is given back to the owner of its block. -/
theorem PoolsInv.deallocate (h : PoolsInv P w chain free) (hp : w.pools i = some p) {a : Nat}
    (ha : a ∈ chain i) (hlive : State.firstSlot P a ∈ w.live) :
    PoolsInv P { w with
      bytes := writeWord w.bytes (State.firstSlot P a) p.freeSlots
      pools := Function.update w.pools i (some { p with freeSlots := State.firstSlot P a })
      live := w.live.erase (State.firstSlot P a) } chain
      (Function.update free i (State.firstSlot P a :: free i)) := by
  obtain ⟨b, hb, rfl⟩ := h.block ha
  obtain ⟨hpos, hlt⟩ := h.laid.pointer hP hfit hb
  have hbytes : ∀ a, a + pointerSize ≤ State.firstSlot P b.addr
      ∨ State.firstSlot P b.addr + max P.chunkBytes pointerSize ≤ a →
        readWord (writeWord w.bytes (State.firstSlot P b.addr) p.freeSlots) a
          = readWord w.bytes a := by
    intro a ha
    refine Memory.readWord_writeWord_of_disjoint ?_
    unfold pointerSize at ha
    omega
  have hhead : next (writeWord w.bytes (State.firstSlot P b.addr) p.freeSlots)
      (State.firstSlot P b.addr) = link p.freeSlots := by
    rw [next, Memory.readWord_writeWord (h.each hp).bound]
  have hslots : Segment (next (writeWord w.bytes (State.firstSlot P b.addr) p.freeSlots))
      (link (State.firstSlot P b.addr)) (State.firstSlot P b.addr :: free i) (link (w.left i)) := by
    rw [link_some (Nat.ne_of_gt hpos)]
    exact ⟨rfl, hhead.symm ▸ (h.at_congr hP hfit hlive hbytes hp).slots⟩
  constructor
  case laid => exact h.laid
  case each =>
    refine each_update (Q := fun k r =>
      r.At (writeWord w.bytes (State.firstSlot P b.addr) p.freeSlots) (w.left k) (chain k)
      (Function.update free i (State.firstSlot P b.addr :: free i) k)) ?_ fun {k r} hki hk => ?_
    · rw [Function.update_self]
      have hat := h.at_congr hP hfit hlive hbytes hp
      exact ⟨hat.headers, hat.full, hlt, hslots⟩
    · rw [Function.update_of_ne hki]
      exact h.at_congr hP hfit hlive hbytes hk
  case gone => exact fun hk => h.gone (none_of_update hk).2
  case owned => exact h.owned
  case ledger => exact h.ledger
  case spare =>
    intro k c hc
    rcases mem_update_cons.mp hc with hc | ⟨rfl, rfl⟩
    · obtain ⟨hnot, hchunk⟩ := h.spare hc
      exact ⟨fun hmem => hnot (List.mem_of_mem_erase hmem), hchunk⟩
    · exact ⟨h.live_nodup.not_mem_erase, b.addr, ha, rfl⟩
  case free_nodup =>
    refine forall_update (List.nodup_cons.mpr ⟨fun hmem => ?_, h.free_nodup i⟩) h.free_nodup
    exact (h.spare hmem).1 hlive
  case live_chunk => exact fun c hc => h.live_chunk c (List.mem_of_mem_erase hc)
  case live_nodup => exact h.live_nodup.erase _

/-- A write to a live chunk. -/
theorem PoolsInv.write (h : PoolsInv P w chain free) {a c : Nat} {byte : UInt8} (hc : c ∈ w.live)
    (hle : c ≤ a) (hlt : a < c + P.chunkBytes) :
    PoolsInv P { w with bytes := setByte w.bytes a byte } chain free := by
  refine { h with each := fun hp => h.at_congr hP hfit hc (fun x hx => ?_) hp }
  refine Memory.readWord_setByte ?_
  unfold pointerSize at hx
  omega

end Chunks

-- ============================================================ the end

/-- An allocator that frees its blocks. -/
theorem PoolsInv.destroy (h : PoolsInv P w chain free) (hp : w.pools i = some p) :
    PoolsInv P (w.release P i (chain i)) (Function.update chain i [])
      (Function.update free i []) := by
  have hothers : ∀ {k a}, a ∈ Function.update chain i [] k ↔ a ∈ chain k ∧ a ∉ chain i := by
    intro k a
    by_cases hki : k = i
    · simp [hki]
    · rw [Function.update_of_ne hki]
      exact ⟨fun ha => ⟨ha, fun hai => hki (h.owned.unique ha hai)⟩, And.left⟩
  have haddrs : ∀ a, a ∈ (w.blocks.filter fun b => decide (b.addr ∉ chain i)).map Block.addr
      ↔ a ∈ w.blocks.map Block.addr ∧ a ∉ chain i := by
    intro a
    constructor
    · intro ha
      obtain ⟨b, hb, rfl⟩ := List.mem_map.mp ha
      obtain ⟨hb, hnot⟩ := List.mem_filter.mp hb
      exact ⟨List.mem_map_of_mem hb, of_decide_eq_true hnot⟩
    · intro ha
      obtain ⟨b, hb, rfl⟩ := List.mem_map.mp ha.1
      exact List.mem_map_of_mem (List.mem_filter.mpr ⟨hb, decide_eq_true ha.2⟩)
  have hsub : ∀ b ∈ w.blocks.filter fun b => decide (b.addr ∉ chain i), b ∈ w.blocks :=
    fun b hb => (List.mem_filter.mp hb).1
  constructor
  case laid =>
    exact ⟨fun b hb => h.laid.owned b (hsub b hb), fun b hb b' hb' =>
      h.laid.apart b (hsub b hb) b' (hsub b' hb')⟩
  case each =>
    intro k r hk
    have hki : k ≠ i := fun hki => by simp [Pools.release, hki] at hk
    have hk : w.pools k = some r := (Function.update_of_ne hki ..).symm.trans hk
    rw [Function.update_of_ne hki, Function.update_of_ne hki]
    exact h.each hk
  case gone =>
    intro k hk
    by_cases hki : k = i
    · rw [hki, Function.update_self]
    · rw [Function.update_of_ne hki]
      exact h.gone ((Function.update_of_ne hki ..).symm.trans hk)
  case owned => exact h.owned.release (· ∈ chain i) (fun _ _ => hothers) haddrs
  case ledger =>
    exact h.ledger.release (fun a ha => h.owned.mem ha) (h.each hp).headers.nodup haddrs
  case spare =>
    intro k c hc
    by_cases hki : k = i
    · rw [hki, Function.update_self] at hc
      exact absurd hc List.not_mem_nil
    · rw [Function.update_of_ne hki] at hc ⊢
      obtain ⟨hnot, hchunk⟩ := h.spare hc
      exact ⟨fun hmem => hnot (List.mem_filter.mp hmem).1, hchunk⟩
  case free_nodup => exact forall_update List.nodup_nil h.free_nodup
  case live_chunk =>
    intro c hc
    obtain ⟨hc, hnot⟩ := List.mem_filter.mp hc
    obtain ⟨b, hb, rfl⟩ := h.live_chunk c hc
    refine ⟨b, List.mem_filter.mpr ⟨hb, decide_eq_true fun ha => ?_⟩, rfl⟩
    exact of_decide_eq_true hnot (List.mem_map_of_mem ha)
  case live_nodup => exact h.live_nodup.filter _

/-- What an orderly end of an allocator frees. -/
theorem PoolsInv.destruct (hP : P.Valid) (hfit : P.Fits) (hsort : Sorts sort)
    (h : PoolsInv P w chain free) (hp : w.pools i = some p)
    (hok : PoolOp.Orderly P trivial w (.destroy i)) :
    ∃ enough, ∀ fuel, enough ≤ fuel → ∃ events,
      (w.state p).destruct P trivial sort fuel = some events
        ∧ events.filterMap Event.block = chain i := by
  have hat := h.each hp
  cases trivial with
  | true =>
      refine ⟨(chain i).length, fun fuel hfuel => ⟨_, destruct_trivial hat.headers hfuel, ?_⟩⟩
      rw [List.filterMap_map]
      exact List.filterMap_some
  | false =>
      obtain ⟨hone, hmany⟩ := hok.resolve_left Bool.false_ne_true p hp
      by_cases hcount : P.chunkCount = 1
      · have hfound := hone hcount
        have hfree : Linked (next w.bytes) (link p.freeSlots) (free i) := by
          have hslots := hat.slots
          rw [hfound.left] at hslots
          exact Chain.segment_none.mp hslots
        have hready : Ready P (w.state p) (chain i) (free i) := by
          constructor
          case headers => exact hat.headers
          case blocks =>
            intro a ha
            obtain ⟨b, hb, rfl⟩ := h.block ha
            exact ⟨b.size, h.laid.owned b hb⟩
          case slots =>
            intro hne
            exact hfound.slots fun hnull => hne (h.chain_nil hp hnull)
          case free => exact hfree
        refine ⟨(chain i).length + (free i).length + 1, fun fuel hfuel => ⟨_,
          hready.destruct_eq hP hfit hcount hsort (by omega) ?_, block_endOf ..⟩⟩
        rcases hfound.last with hnull | ⟨l, f, hl, hf, hle⟩
        · exact Or.inl ((link_eq_none_iff hfree).mp hnull)
        · obtain rfl := hl.unique hfree
          exact Or.inr ⟨f, hf, fun a ha => hle a (h.owns_iff.mpr ha)⟩
      · refine ⟨0, fun fuel _ => ⟨[], ?_, (h.chain_nil hp (hmany hcount)).symm⟩⟩
        rw [State.destruct, if_neg Bool.false_ne_true, if_neg hcount]

-- =============================================================== runs

section Run

variable (hP : P.Valid) (hfit : P.Fits)

include hP hfit

/-- The chunk that an allocator hands out is one of its own. -/
theorem PoolsInv.allocate (h : PoolsInv P w chain free) {answer : Nat}
    (hv : (PoolOp.allocate i answer).Valid P w)
    (hok : (PoolOp.allocate i answer).Orderly P trivial w)
    (hs : w.Leads P trivial sort (.allocate i answer) w') :
    ∃ chain' free', PoolsInv P w' chain' free'
      ∧ ∃ a ∈ chain' i, w'.live = State.firstSlot P a :: w.live := by
  obtain ⟨p, hp, hgranted⟩ := hv
  obtain ⟨fuel, hs⟩ := hs
  have hs := hs fuel (Nat.le_refl fuel)
  rw [Pools.step, hp, Option.bind_some] at hs
  obtain ⟨x, hx, rfl⟩ := Option.map_eq_some_iff.mp hs
  rcases State.allocate_cases (h.each hp).full hx with ⟨hfree, rfl⟩ | ⟨hneeds, bs, hbs, rfl⟩
  · simp only [if_neg fun hneeds : (w.state p).NeedsBlock => hfree hneeds.1]
    obtain ⟨⟨a, ha, hslot⟩, hinv⟩ := h.reuse hP hfit hp hfree (hok p hp)
    exact ⟨chain, _, hinv, a, ha, congrArg (· :: w.live) hslot⟩
  · simp only [if_pos hneeds]
    refine ⟨_, free, h.grow hP hfit hp (Params.blockSize_le hbs) (hgranted hneeds fuel bs hbs),
      answer, ?_, rfl⟩
    exact mem_update_cons.mpr (Or.inr ⟨rfl, rfl⟩)

variable (hsort : Sorts sort)

include hsort

/-- One operation. -/
theorem PoolsInv.step (h : PoolsInv P w chain free) {op : PoolOp} (hv : op.Valid P w)
    (hok : op.Orderly P trivial w) (hs : w.Leads P trivial sort op w') :
    ∃ chain' free', PoolsInv P w' chain' free' := by
  cases op with
  | construct i =>
      obtain ⟨fuel, hs⟩ := hs
      obtain rfl := Option.some.inj (hs fuel (Nat.le_refl fuel))
      refine ⟨chain, free, h.construct hv ⟨rfl, Nat.le_refl 0, by decide, rfl⟩⟩
  | moveConstruct i j =>
      obtain ⟨fuel, hs⟩ := hs
      have hs := hs fuel (Nat.le_refl fuel)
      obtain ⟨q, hq⟩ := Option.ne_none_iff_exists'.mp hv.2
      rw [Pools.step, hq, Option.map_some] at hs
      obtain rfl := Option.some.inj hs
      have hqj := h.each hq
      have hchain := h.chain_nil hq (hok q hq)
      refine ⟨chain, free, h.construct hv.1 ⟨?_, hqj.full, hqj.bound, ?_⟩⟩
      · exact hchain ▸ hqj.headers
      · exact h.free_nil hchain ▸ hqj.slots
  | moveAssign i j =>
      obtain ⟨fuel, hs⟩ := hs
      have hs := hs fuel (Nat.le_refl fuel)
      obtain ⟨p, hp⟩ := Option.ne_none_iff_exists'.mp hv.1
      obtain ⟨q, hq⟩ := Option.ne_none_iff_exists'.mp hv.2
      rw [Pools.step] at hs
      by_cases hij : i = j
      · rw [if_pos hij] at hs
        obtain rfl := Option.some.inj hs
        exact ⟨chain, free, h⟩
      · rw [if_neg hij, hp, hq, Option.bind_some, Option.map_some] at hs
        obtain rfl := Option.some.inj hs
        exact ⟨_, _, h.moveAssign hp hq⟩
  | allocate i answer =>
      obtain ⟨chain', free', hinv, -⟩ := h.allocate hP hfit hv hok hs
      exact ⟨chain', free', hinv⟩
  | deallocate i c =>
      obtain ⟨fuel, hs⟩ := hs
      have hs := hs fuel (Nat.le_refl fuel)
      obtain ⟨hlive, b, hb, howns, hle, hlt⟩ := hv
      have hown := h.owns_iff.mp howns
      obtain ⟨p, hp⟩ : ∃ p, w.pools i = some p := by
        obtain ⟨p, -, hp, -⟩ := howns
        exact ⟨p, hp⟩
      obtain ⟨b', hb', rfl⟩ := h.live_chunk c hlive
      -- the chunk lies in the block of which it is the first slot
      obtain heq : b.addr = b'.addr := by
        by_contra hne
        have hout := h.laid.firstSlot_outside hP hfit hb hb' hne
        have hpos := hP.chunkBytes_pos
        omega
      have hnull := Nat.ne_of_gt (h.laid.pointer hP hfit hb').1
      rw [Pools.step, hp, Option.map_some, State.deallocate, if_pos hnull] at hs
      obtain rfl := Option.some.inj hs
      exact ⟨chain, _, h.deallocate hP hfit hp (heq ▸ hown) hlive⟩
  | write a byte =>
      obtain ⟨fuel, hs⟩ := hs
      obtain rfl := Option.some.inj (hs fuel (Nat.le_refl fuel))
      obtain ⟨c, hc, hle, hlt⟩ := hv
      exact ⟨chain, free, h.write hP hfit hc hle hlt⟩
  | destroy i =>
      obtain ⟨p, hp⟩ := Option.ne_none_iff_exists'.mp hv
      obtain ⟨enough, hs⟩ := hs
      obtain ⟨enough', hend⟩ := h.destruct hP hfit hsort hp hok
      have hs := hs (enough + enough') (by omega)
      obtain ⟨events, hrun, hgone⟩ := hend (enough + enough') (by omega)
      rw [Pools.step, hp, Option.bind_some, hrun, Option.map_some, hgone] at hs
      obtain rfl := Option.some.inj hs
      exact ⟨_, _, h.destroy hp⟩

/-- All of them. -/
theorem poolsInv_reached (h : Pools.Reached P trivial sort (PoolOp.Orderly P trivial) w) :
    ∃ chain free, PoolsInv P w chain free := by
  induction h with
  | start bytes => exact ⟨_, _, poolsInv_start bytes⟩
  | step _ hv hok hs ih =>
      obtain ⟨chain, free, ih⟩ := ih
      exact ih.step hP hfit hsort hv hok hs

end Run

-- ============================================================ the result

/-- The invariant is about ownership as it should be. -/
theorem PoolsInv.transfers (hP : P.Valid) (hfit : P.Fits) (h : PoolsInv P w chain free) :
    w.Transfers P := by
  constructor
  case owned => exact h.owned.congr (fun _ _ => h.owns_iff) fun _ => Iff.rfl
  case ledger => exact h.ledger
  case inside =>
    intro c hc
    obtain ⟨b, hb, rfl⟩ := h.live_chunk c hc
    have hchunk := h.laid.chunk hP hfit hb
    exact ⟨b, hb, hchunk.header, hchunk.inside⟩
  case disjoint =>
    refine h.live_nodup.imp_of_mem fun {c c'} hc hc' hne => ?_
    obtain ⟨b, hb, rfl⟩ := h.live_chunk c hc
    obtain ⟨b', hb', rfl⟩ := h.live_chunk c' hc'
    have hapart := h.laid.disjoint hP hfit hb hb' hne
    omega

/-- When no allocator is left, all blocks have been freed. -/
theorem PoolsInv.end (h : PoolsInv P w chain free) (hnone : ∀ i, w.pools i = none) :
    w.blocks = [] ∧ ∀ a, w.granted.count a = w.freed.count a := by
  have hout : ∀ a, a ∉ w.blocks.map Block.addr := by
    intro a ha
    obtain ⟨i, hi⟩ := (h.owned.out_iff a).mp ha
    rw [h.gone (hnone i)] at hi
    exact List.not_mem_nil hi
  refine ⟨List.eq_nil_iff_forall_not_mem.mpr fun b hb => hout b.addr (List.mem_map_of_mem hb), ?_⟩
  exact fun a => h.ledger.home (hout a)

/-- A move construction from an allocator with blocks gives these a second
owner. -/
theorem PoolsInv.moveConstruct_breaks (h : PoolsInv P w chain free) (hi : w.pools i = none)
    (hq : w.pools j = some q) (hnull : q.currentBlock ≠ 0)
    (hs : w.Leads P trivial sort (.moveConstruct i j) w') : ¬ w'.Transfers P := by
  obtain ⟨fuel, hs⟩ := hs
  have hs := hs fuel (Nat.le_refl fuel)
  rw [Pools.step, hq, Option.map_some] at hs
  obtain rfl := Option.some.inj hs
  have hij : j ≠ i := fun hji => by
    rw [hji, hi] at hq
    cases hq
  have hheaders := (h.each hq).headers
  obtain ⟨l, hchain⟩ := linked_head hheaders hnull
  have hmem : q.currentBlock ∈ chain j := hchain ▸ List.mem_cons_self ..
  intro htransfers
  refine hij (htransfers.owned.unique ⟨q, _, ?_, hheaders, hmem⟩
    ⟨_, _, Function.update_self .., hheaders, hmem⟩)
  exact (Function.update_of_ne hij ..).trans hq

/-- More operations lead to more worlds. -/
theorem Pools.Reached.mono {ok ok' : Pools → PoolOp → Prop} (h : Pools.Reached P trivial sort ok w)
    (hok : ∀ w op, ok w op → ok' w op) : Pools.Reached P trivial sort ok' w := by
  induction h with
  | start bytes => exact .start bytes
  | step _ hv hs hleads ih => exact ih.step hv (hok _ _ hs) hleads

/-- An allocator, which has asked for a block. -/
def oneBlock : Pools where
  bytes := writeWord (fun _ => 0) 65536 0
  blocks := [⟨65536, 4096⟩]
  pools := Function.update (fun _ => none) 0 (some ⟨65536, 65552, 65552, 0⟩)
  live := [65544]
  granted := [65536]
  freed := []
  left := fun _ => 0

/-- The constructor, and a chunk. -/
theorem reached_oneBlock :
    Pools.Reached pointers true (fun l => l.mergeSort) (PoolOp.Orderly pointers true) oneBlock := by
  have hsize : ∀ fuel, pointers.blockSize fuel = some 4096 := fun fuel =>
    Loops.whileLoop_done (by decide) fuel
  have hneeds : State.NeedsBlock ⟨fun _ => 0, [], 0, 0, 0, 0⟩ := ⟨rfl, Nat.le_refl 0⟩
  have hnew : Pools.Reached pointers true (fun l => l.mergeSort) (PoolOp.Orderly pointers true)
      ⟨fun _ => 0, [], Function.update (fun _ => none) 0 (some .new), [], [], [], fun _ => 0⟩ := by
    refine .step (.start fun _ => 0) (show (PoolOp.construct 0).Valid pointers _ from rfl)
      True.intro ⟨0, fun _ _ => ?_⟩
    rw [Pools.step, Pools.start, Function.update_eq_self]
  refine hnew.step (show (PoolOp.allocate 0 65536).Valid pointers _ from
    ⟨.new, rfl, fun _ fuel bs hbs => ?_⟩) (fun _ _ hleft => absurd rfl hleft) ⟨0, fun fuel _ => ?_⟩
  · obtain rfl := Option.some.inj ((hsize fuel).symm.trans hbs)
    exact granted_first
  · rw [Pools.step]
    refine Option.bind_eq_some_iff.mpr ⟨Pointers.new, rfl, Option.map_eq_some_iff.mpr ⟨_,
      (State.allocate_block hneeds).trans (congrArg (Option.map _) (hsize fuel)), ?_⟩⟩
    simp only [Function.update_idem]
    rfl

/-- What a chain of headers leads to is freed. -/
theorem Pools.leads_destroy {l : List Nat} (hp : w.pools i = some p)
    (hl : Linked (next w.bytes) (link p.currentBlock) l) :
    w.Leads P true sort (.destroy i) (w.release P i l) := by
  refine ⟨l.length, fun fuel hfuel => ?_⟩
  have hrun : (w.state p).destruct P true sort fuel = some (l.map .freed) :=
    destruct_trivial hl hfuel
  have hgone : (l.map Event.freed).filterMap Event.block = l := by
    rw [List.filterMap_map]
    exact List.filterMap_some
  rw [Pools.step, hp, Option.bind_some, hrun, Option.map_some, hgone]

end MctsConnectFour.Pool
