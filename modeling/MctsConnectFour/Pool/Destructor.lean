/-
What the destructor of an allocator destroys and frees.

It knows the chunks in use only by what they are not: it walks through the
slots of every block and looks each of them up in the sorted free list. A
block has one slot to look up, so that the walk is along the blocks
(`Ready.destruct_eq`). The look-up reads what `std::lower_bound` points to;
this is the end of the list when all free slots are in front of the one
looked up, and the end is read (`Ready.destruct_none`). So the destructor
is right if and only if the free list is empty or the last slot of all is
on it (`destroysLive_iff`).
-/
import Mathlib.Data.Finset.Card
import Mathlib.Data.Finset.Max
import MctsConnectFour.Pool.Safe

namespace MctsConnectFour.Pool

open Chain (Linked)
open Memory (Bytes readWord)

variable {P : Params} {fuel : Nat}

-- ====================================================== the destructor

/-- What can be seen of the destructor: it destroys elements, and passes
blocks to `virtual_free`. -/
inductive Event where
  | destroyed (p : Nat)
  | freed (block : Nat)
deriving DecidableEq, Repr

/-- The element that is destroyed. -/
def Event.element : Event → Option Nat
  | destroyed p => some p
  | freed _ => none

/-- The block that is freed. -/
def Event.block : Event → Option Nat
  | destroyed _ => none
  | freed a => some a

/-- `pointer_vector ( sp )`. -/
def pointerVector (bytes : Bytes) (fuel sp : Nat) : Option (List Nat) :=
  (Loops.whileLoop (fun x : Nat × List Nat => decide (x.1 ≠ 0))
    (fun x => some (readWord bytes x.1, x.2 ++ [x.1])) fuel (sp, [])).map Prod.snd

/-- `* std::lower_bound ( begin, end, p )`, of a sorted vector. At the end
there is nothing to read. -/
def lowerBound (v : List Nat) (p : Nat) : Option Nat := v.find? fun f => decide (p ≤ f)

/-- What is asked of `ska_sort`. -/
def Sorts (sort : List Nat → List Nat) : Prop :=
  ∀ l, (sort l).Perm l ∧ (sort l).Pairwise (· ≤ ·)

namespace State

/-- `last_slot ( block )`. -/
def lastSlotOf (P : Params) (block : Nat) : Nat := advance (firstSlot P block) P.chunkSize

/-- A turn of the walk along the blocks: the slots of `curr` up to `last`,
with `free` to look them up, and then the block itself. -/
def endBlock (P : Params) (bytes : Bytes) (free : Nat → Option Bool) (fuel : Nat)
    (x : Nat × List Event) (curr : Nat) : Option (Nat × List Event) :=
  (Loops.whileLoop (fun y : Nat × List Event => decide (y.1 < x.1))
    (fun y => (free y.1).map fun isFree =>
      (advance y.1 P.slotSize, if isFree then y.2 else y.2 ++ [.destroyed y.1]))
    fuel (firstSlot P curr, x.2)).map
      fun y => (lastSlotOf P (readWord bytes curr), y.2 ++ [.freed curr])

/-- The destructor. `trivial` is whether the elements are trivially
destructible. -/
def destruct (P : Params) (trivial : Bool) (sort : List Nat → List Nat) (fuel : Nat) (s : State) :
    Option (List Event) :=
  if trivial then
    (Loops.whileLoop (fun y : Nat × List Event => decide (y.1 ≠ 0))
      (fun y => some (readWord s.bytes y.1, y.2 ++ [.freed y.1])) fuel (s.currentBlock, [])).map
        Prod.snd
  else if P.chunkCount = 1 then
    (pointerVector s.bytes fuel s.freeSlots).bind fun v =>
    let free : Nat → Option Bool :=
      if v.isEmpty then fun _ => some false
      else fun p => (lowerBound (sort v) p).map fun f => decide (f = p)
    (Loops.whileLoop (fun y : Nat × Nat × List Event => decide (y.1 ≠ 0))
      (fun y => (endBlock P s.bytes free fuel y.2 y.1).map fun z => (readWord s.bytes y.1, z)) fuel
      (s.currentBlock, s.currentSlot, [])).map fun y => y.2.2
  else some []

end State

-- ============================================================== loops

/-- A loop along the pointers of a list that is threaded through memory. -/
theorem whileLoop_pointers {β : Type} {bytes : Bytes} {p : Nat} {l : List Nat}
    (f : β → Nat → Option β) (h : Linked (next bytes) (link p) l) (hfuel : l.length ≤ fuel) (b : β) :
    Loops.whileLoop (fun y : Nat × β => decide (y.1 ≠ 0))
      (fun y => (f y.2 y.1).map fun b => (readWord bytes y.1, b)) fuel (p, b)
        = (l.foldlM f b).map fun b => (0, b) := by
  induction l generalizing p fuel b with
  | nil =>
      rw [link_eq_none.mp h]
      exact Loops.whileLoop_done rfl fuel
  | cons a l ih =>
      obtain ⟨hp, hrest⟩ := h
      have hp0 : p ≠ 0 := fun heq => by
        rw [link_eq_none.mpr heq] at hp
        cases hp
      obtain rfl := eq_of_link hp
      rw [List.length_cons] at hfuel
      obtain ⟨fuel, rfl⟩ : ∃ k, fuel = k + 1 := ⟨fuel - 1, by omega⟩
      rw [Loops.whileLoop_step (by exact decide_eq_true hp0), List.foldlM_cons]
      cases hf : f b p with
      | none => rfl
      | some b' => exact ih hrest (by omega) b'

/-- A loop that appends. -/
theorem foldlM_append {α β : Type} (φ : α → List β) (l : List α) (b : List β) :
    l.foldlM (fun b a => some (b ++ φ a)) b = some (b ++ l.flatMap φ) := by
  induction l generalizing b with
  | nil => rw [List.flatMap_nil, List.append_nil]; rfl
  | cons a l ih =>
      rw [List.foldlM_cons, List.flatMap_cons, ← List.append_assoc]
      exact ih (b ++ φ a)

theorem pointerVector_eq {bytes : Bytes} {p : Nat} {l : List Nat}
    (h : Linked (next bytes) (link p) l) (hfuel : l.length ≤ fuel) :
    pointerVector bytes fuel p = some l := by
  have hloop := whileLoop_pointers (fun b a => some (b ++ [a])) h hfuel []
  rw [foldlM_append (fun a => [a])] at hloop
  simp only [Option.map_some] at hloop
  unfold pointerVector
  rw [hloop]
  simp

-- ============================================================ look-ups

section LowerBound

variable {v : List Nat} {p : Nat}

/-- The look-up finds out whether a slot is free, unless it is behind all
that are. -/
theorem lowerBound_found (hv : v.Pairwise (· ≤ ·)) (hle : ∃ f ∈ v, p ≤ f) :
    (lowerBound v p).map (fun f => decide (f = p)) = some (decide (p ∈ v)) := by
  unfold lowerBound
  cases hfind : v.find? fun f => decide (p ≤ f) with
  | none =>
      obtain ⟨f, hf, hpf⟩ := hle
      exact absurd (decide_eq_true hpf) (List.find?_eq_none.mp hfind f hf)
  | some f =>
      obtain ⟨hpf, before, after, rfl, hbefore⟩ := List.find?_eq_some_iff_append.mp hfind
      have hpf : p ≤ f := of_decide_eq_true hpf
      rw [Option.map_some, Option.some_inj, decide_eq_decide]
      constructor
      · intro h'
        obtain rfl := h'
        exact List.mem_append_right _ (List.mem_cons_self ..)
      · intro hp
        rcases List.mem_append.mp hp with hp | hp
        · exact absurd (hbefore p hp) (by simp)
        · rcases List.mem_cons.mp hp with rfl | hp
          · rfl
          · -- what comes behind `f` is not smaller
            have hfp := (List.pairwise_cons.mp (List.pairwise_append.mp hv).2.1).1 p hp
            exact Nat.le_antisymm hfp hpf

theorem lowerBound_end (hlt : ∀ f ∈ v, f < p) : lowerBound v p = none := by
  refine List.find?_eq_none.mpr fun f hf => ?_
  have := hlt f hf
  simpa using this

end LowerBound

-- =============================================================== walks

section Walk

variable {bytes : Bytes} {free : Nat → Option Bool} {last : Nat} {events : List Event}

/-- The walk through a block is at its end behind the first slot. -/
def OneSlot (P : Params) (a last : Nat) : Prop :=
  State.firstSlot P a < last ∧ last ≤ advance (State.firstSlot P a) P.slotSize

/-- What a turn comes to: one slot is looked up. -/
def lookUp (P : Params) (free : Nat → Option Bool) (events : List Event) (a : Nat) :
    Option (List Event) :=
  (free (State.firstSlot P a)).map fun isFree =>
    events ++ ((if isFree then [] else [.destroyed (State.firstSlot P a)]) ++ [.freed a])

theorem endBlock_eq {a : Nat} (hlast : OneSlot P a last) (hfuel : 0 < fuel) :
    State.endBlock P bytes free fuel (last, events) a
      = (lookUp P free events a).map fun events =>
          (State.lastSlotOf P (readWord bytes a), events) := by
  obtain ⟨fuel, rfl⟩ : ∃ k, fuel = k + 1 := ⟨fuel - 1, by omega⟩
  unfold State.endBlock lookUp
  rw [Loops.whileLoop_step (by exact decide_eq_true hlast.1)]
  simp only
  cases free (State.firstSlot P a) with
  | none => rfl
  | some isFree =>
      rw [Option.map_some, Option.bind_some,
        Loops.whileLoop_done (by exact decide_eq_false (Nat.not_lt.mpr hlast.2))]
      cases isFree with
      | true => rfl
      | false => simp

/-- The walk along the blocks. -/
theorem endBlocks_eq {p : Nat} {l : List Nat} (hfuel : 0 < fuel)
    (h : Linked (next bytes) (link p) l) (hlast : ∀ a, link p = some a → OneSlot P a last)
    (hends : ∀ a ∈ l, OneSlot P a (State.lastSlotOf P a)) :
    (l.foldlM (State.endBlock P bytes free fuel) (last, events)).map Prod.snd
      = l.foldlM (lookUp P free) events := by
  induction l generalizing p last events with
  | nil => rfl
  | cons a l ih =>
      obtain ⟨ha, hrest⟩ := h
      rw [List.foldlM_cons, List.foldlM_cons, endBlock_eq (hlast a ha) hfuel]
      cases lookUp P free events a with
      | none => rfl
      | some events =>
          refine ih hrest (fun a' ha' => ?_) fun a' ha' => hends a' (List.mem_cons_of_mem _ ha')
          -- `last` has been set for the block that comes next
          have hword : readWord bytes a = a' := eq_of_link ha'
          rw [hword]
          refine hends a' (List.mem_cons_of_mem _ ?_)
          cases l with
          | nil => exact absurd (ha'.symm.trans hrest) (by simp)
          | cons a'' l =>
              obtain rfl := Option.some.inj (ha'.symm.trans hrest.1)
              exact List.mem_cons_self ..

/-- Each slot is looked up. -/
theorem lookUps_found (found : Nat → Bool) {l : List Nat}
    (hfound : ∀ a ∈ l, free (State.firstSlot P a) = some (found (State.firstSlot P a))) :
    l.foldlM (lookUp P free) events
      = some (events ++ l.flatMap fun a =>
          (if found (State.firstSlot P a) then [] else [.destroyed (State.firstSlot P a)])
            ++ [.freed a]) := by
  induction l generalizing events with
  | nil => rw [List.flatMap_nil, List.append_nil]; rfl
  | cons a l ih =>
      rw [List.foldlM_cons, lookUp, hfound a (List.mem_cons_self ..), List.flatMap_cons,
        ← List.append_assoc]
      exact ih fun a' ha' => hfound a' (List.mem_cons_of_mem _ ha')

/-- One of them cannot. -/
theorem lookUps_end {l : List Nat} (hlost : ∃ a ∈ l, free (State.firstSlot P a) = none) :
    l.foldlM (lookUp P free) events = none := by
  induction l generalizing events with
  | nil => exact absurd hlost (by simp)
  | cons a l ih =>
      rw [List.foldlM_cons]
      cases hfree : free (State.firstSlot P a) with
      | none => rw [lookUp, hfree]; rfl
      | some isFree =>
          rw [lookUp, hfree]
          obtain ⟨a', ha', hnone⟩ := hlost
          refine ih ⟨a', (List.mem_cons.mp ha').resolve_left fun heq => ?_, hnone⟩
          rw [← heq, hnone] at hfree
          cases hfree

end Walk

-- ====================================================== the destructor

/-- An allocator that can be destroyed: its blocks are `as`, the first slot
of the last one has been handed out, and the free list is `l`. -/
structure Ready (P : Params) (s : State) (as l : List Nat) : Prop where
  headers : Linked (next s.bytes) (link s.currentBlock) as
  blocks : ∀ a ∈ as, ∃ size, Owned P ⟨a, size⟩
  slots : as ≠ [] →
    s.currentSlot = advance (State.firstSlot P s.currentBlock) (P.chunkCount * P.slotSize)
  free : Linked (next s.bytes) (link s.freeSlots) l

/-- What is seen of the end of the blocks `as`, when `l` is free. -/
def endOf (P : Params) (as l : List Nat) : List Event :=
  as.flatMap fun a =>
    (if decide (State.firstSlot P a ∈ l) then [] else [.destroyed (State.firstSlot P a)])
      ++ [.freed a]

variable {s : State} {as l : List Nat} {sort : List Nat → List Nat}

/-- There is nothing to destroy in trivial elements. -/
theorem destruct_trivial (h : Linked (next s.bytes) (link s.currentBlock) as)
    (hfuel : as.length ≤ fuel) : s.destruct P true sort fuel = some (as.map .freed) := by
  have hloop := whileLoop_pointers (fun b a => some (b ++ [Event.freed a])) h hfuel []
  rw [foldlM_append (fun a => [Event.freed a])] at hloop
  simp only [Option.map_some] at hloop
  unfold State.destruct
  rw [if_pos rfl, hloop, Option.map_some, List.nil_append, ← List.map_eq_flatMap]

section Walked

variable (hP : P.Valid) (hfit : P.Fits) (hone : P.chunkCount = 1) (hsort : Sorts sort)

include hP hfit hone

/-- A block ends with its slot, as the current block and as any other. -/
theorem Owned.oneSlot {b : Block} (hb : Owned P b) :
    OneSlot P b.addr (State.lastSlotOf P b.addr)
      ∧ OneSlot P b.addr (advance (State.firstSlot P b.addr) (P.chunkCount * P.slotSize)) := by
  have hfull := hb.full hP hfit
  have hin := (hb.firstSlot hP hfit).inside
  have hspace := hb.space
  have hpos := hP.chunkBytes_pos
  have hrange : addressSpace < wordRange := by decide
  have hlast : State.firstSlot P b.addr < State.lastSlotOf P b.addr := by
    rw [State.lastSlotOf, hP.chunkSize_eq hfit, advance_eq (by omega)]
    omega
  rw [State.lastSlotOf] at hlast ⊢
  rw [hone, Nat.one_mul] at hfull ⊢
  exact ⟨⟨hlast, hfull⟩, Nat.lt_of_lt_of_le hlast hfull, Nat.le_refl _⟩

/-- The walk is a look-up for each block. -/
theorem Ready.destruct_eq_lookUps (h : Ready P s as l) (hfuel : as.length + l.length < fuel) :
    s.destruct P false sort fuel
      = as.foldlM (lookUp P (if l.isEmpty then fun _ => some false
          else fun p => (lowerBound (sort l) p).map fun f => decide (f = p))) [] := by
  unfold State.destruct
  rw [if_neg Bool.false_ne_true, if_pos hone, pointerVector_eq h.free (by omega), Option.bind_some]
  simp only
  rw [whileLoop_pointers _ h.headers (by omega), Option.map_map]
  refine endBlocks_eq (by omega) h.headers (fun a ha => ?_) fun a ha => ?_
  · have hcurrent : s.currentBlock = a := eq_of_link ha
    cases as with
    | nil => exact absurd (ha.symm.trans h.headers) (by simp)
    | cons a' as =>
        obtain rfl := Option.some.inj (ha.symm.trans h.headers.1)
        obtain ⟨size, hb⟩ := h.blocks a (List.mem_cons_self ..)
        rw [h.slots (by simp), hcurrent]
        exact (hb.oneSlot hP hfit hone).2
  · obtain ⟨size, hb⟩ := h.blocks a ha
    exact (hb.oneSlot hP hfit hone).1

include hsort

/-- No slot is behind the last free one: the others are destroyed. -/
theorem Ready.destruct_eq (h : Ready P s as l) (hfuel : as.length + l.length < fuel)
    (hfound : l = [] ∨ ∃ f ∈ l, ∀ a ∈ as, State.firstSlot P a ≤ f) :
    s.destruct P false sort fuel = some (endOf P as l) := by
  rw [h.destruct_eq_lookUps hP hfit hone hfuel]
  refine lookUps_found (fun p => decide (p ∈ l)) fun a ha => ?_
  cases l with
  | nil => rfl
  | cons f l =>
      obtain ⟨hperm, hsorted⟩ := hsort (f :: l)
      obtain ⟨top, htop, hle⟩ := hfound.resolve_left (by simp)
      refine (lowerBound_found hsorted ⟨top, hperm.mem_iff.mpr htop, hle a ha⟩).trans ?_
      simp only [hperm.mem_iff]

/-- One is: the end of the sorted list is read. -/
theorem Ready.destruct_none (h : Ready P s as l) (hfuel : as.length + l.length < fuel)
    (hne : l ≠ []) (hlost : ∃ a ∈ as, ∀ f ∈ l, f < State.firstSlot P a) :
    s.destruct P false sort fuel = none := by
  rw [h.destruct_eq_lookUps hP hfit hone hfuel]
  obtain ⟨a, ha, hlt⟩ := hlost
  refine lookUps_end ⟨a, ha, ?_⟩
  rw [if_neg (by simpa using hne), lowerBound_end fun f hf => hlt f ?_]
  · rfl
  · exact (hsort l).1.mem_iff.mp hf

end Walked

-- ========================================================== what is seen

theorem element_endOf (as l : List Nat) :
    (endOf P as l).filterMap Event.element
      = (as.map (State.firstSlot P)).filter fun c => decide (c ∉ l) := by
  unfold endOf
  induction as with
  | nil => rfl
  | cons a as ih =>
      rw [List.flatMap_cons, List.filterMap_append, ih, List.map_cons]
      by_cases ha : State.firstSlot P a ∈ l
      · simp [ha, Event.element]
      · simp [ha, Event.element]

theorem block_endOf (as l : List Nat) : (endOf P as l).filterMap Event.block = as := by
  unfold endOf
  induction as with
  | nil => rfl
  | cons a as ih =>
      rw [List.flatMap_cons, List.filterMap_append, ih]
      by_cases ha : State.firstSlot P a ∈ l
      · simp [ha, Event.block]
      · rw [decide_eq_false ha]
        rfl

/-- The destructor of an allocator does what it should: it destroys the
live elements once each, and nothing else, and frees its blocks once each,
none before an element in it has been destroyed. -/
def DestroysLive (P : Params) (sort : List Nat → List Nat) (w : World) : Prop :=
  ∃ enough, ∀ fuel, enough ≤ fuel → ∃ events, w.state.destruct P false sort fuel = some events
    ∧ ((events.filterMap Event.element).Nodup ∧ ∀ c, c ∈ events.filterMap Event.element ↔ c ∈ w.live)
    ∧ (events.filterMap Event.block).Nodup
    ∧ (∀ a, a ∈ events.filterMap Event.block ↔ ∃ b ∈ w.state.blocks, b.addr = a)
    ∧ events.Pairwise fun e e' => ∀ b ∈ w.state.blocks, ∀ c, e = .freed b.addr →
        e' = .destroyed c → c + P.chunkBytes ≤ b.addr ∨ b.addr + b.size ≤ c

variable {w : World}

section World

variable (hP : P.Valid) (hfit : P.Fits)

include hP hfit

/-- The current slot is one chunk behind the first slot of the current
block. -/
theorem reached_slots (h : World.Reached P fuel w) : w.state.blocks ≠ [] →
    w.state.currentSlot
      = advance (State.firstSlot P w.state.currentBlock) (P.chunkCount * P.slotSize) := by
  induction h with
  | new bytes => exact fun hne => absurd rfl hne
  | @step w w' op h _ hs ih =>
      cases op with
      | allocate answer =>
          have hfull := (reached_sound hP hfit h).full
          rw [World.step] at hs
          obtain ⟨x, hx, rfl⟩ := Option.map_eq_some_iff.mp hs
          rcases State.allocate_cases hfull hx with ⟨_, rfl⟩ | ⟨_, bs, _, rfl⟩
          · exact ih
          · exact fun _ => rfl
      | deallocate p =>
          obtain rfl := Option.some.inj hs
          show (w.state.deallocate p).blocks ≠ [] → _
          unfold State.deallocate
          split
          · exact ih
          · exact ih
      | write a byte =>
          obtain rfl := Option.some.inj hs
          exact ih

theorem reached_ready (h : World.Reached P fuel w) :
    ∃ l, Ready P w.state (w.state.blocks.map Block.addr) l
      ∧ ∀ c, c ∈ l ↔ c ∈ w.handed ∧ c ∉ w.live := by
  have hsound := reached_sound hP hfit h
  obtain ⟨l, hlink, hmem⟩ := hsound.free
  refine ⟨l, ⟨hsound.headers, fun a ha => ?_, fun hne => ?_, hlink⟩, hmem⟩
  · obtain ⟨b, hb, rfl⟩ := List.mem_map.mp ha
    exact ⟨b.size, hsound.owned b hb⟩
  · exact reached_slots hP hfit h fun hnil => hne (by rw [hnil]; rfl)

omit hP hfit in
/-- The slots that have been handed out are the first ones of the blocks. -/
theorem Sound.mem_firstSlots (h : Sound P w) {c : Nat} :
    c ∈ (w.state.blocks.map Block.addr).map (State.firstSlot P) ↔ c ∈ w.handed := by
  rw [h.chunks, List.mem_map]
  constructor
  · intro h'
    obtain ⟨a, ha, hc⟩ := h'
    obtain ⟨b, hb, rfl⟩ := List.mem_map.mp ha
    exact ⟨b, hb, hc.symm⟩
  · intro h'
    obtain ⟨b, hb, hc⟩ := h'
    exact ⟨b.addr, List.mem_map_of_mem hb, hc.symm⟩

/-- The live elements are destroyed. -/
theorem Sound.end_elements (h : Sound P w) {l : List Nat}
    (hl : ∀ c, c ∈ l ↔ c ∈ w.handed ∧ c ∉ w.live) :
    ((endOf P (w.state.blocks.map Block.addr) l).filterMap Event.element).Nodup
      ∧ ∀ c, c ∈ (endOf P (w.state.blocks.map Block.addr) l).filterMap Event.element
        ↔ c ∈ w.live := by
  rw [element_endOf]
  refine ⟨(h.headers.nodup.map_on fun a ha a' ha' heq =>
    h.laid.firstSlot_inj hP hfit ha ha' heq).filter _, fun c => ?_⟩
  rw [List.mem_filter, decide_eq_true_eq, hl, h.mem_firstSlots]
  constructor
  · intro h'
    by_contra hnot
    exact h'.2 ⟨h'.1, hnot⟩
  · intro hc
    exact ⟨h.live_handed c hc, fun hnot => hnot.2 hc⟩

/-- No element is destroyed in a block that has been freed: within a block
the element comes first, and the blocks are apart. -/
theorem Sound.end_order (h : Sound P w) (l : List Nat) :
    (endOf P (w.state.blocks.map Block.addr) l).Pairwise fun e e' => ∀ b ∈ w.state.blocks, ∀ c,
      e = .freed b.addr → e' = .destroyed c → c + P.chunkBytes ≤ b.addr ∨ b.addr + b.size ≤ c := by
  refine List.pairwise_flatMap.mpr ⟨fun a _ => ?_, ?_⟩
  · by_cases hfree : State.firstSlot P a ∈ l
    · simp [hfree]
    · simp [hfree]
  · refine h.headers.nodup.imp_of_mem fun {a a'} ha ha' hne e he e' he' b hb c hfreed hdestroyed => ?_
    have hba : b.addr = a := by
      rw [hfreed] at he
      by_cases hfree : State.firstSlot P a ∈ l
      · simpa [hfree] using he
      · simpa [hfree] using he
    have hca : c = State.firstSlot P a' := by
      rw [hdestroyed] at he'
      by_cases hfree : State.firstSlot P a' ∈ l
      · simp [hfree] at he'
      · simpa [hfree] using he'
    obtain ⟨b', hb', rfl⟩ := List.mem_map.mp ha'
    rw [hca]
    exact h.laid.firstSlot_outside hP hfit hb hb' (hba ▸ hne)

end World

-- ============================================================ the result

section Result

variable (hP : P.Valid) (hfit : P.Fits) (hone : P.chunkCount = 1) {sort : List Nat → List Nat}
  (hsort : Sorts sort)

include hP hfit hone hsort

/-- With slots on the free list, and a live one behind all of them, the end
of the list is read. -/
theorem not_destroysLive (h : World.Reached P fuel w) (hfree : w.state.freeSlots ≠ 0) {c : Nat}
    (hc : c ∈ w.live) (hlast : ∀ c' ∈ w.handed, c' ≤ c) : ¬ DestroysLive P sort w := by
  have hsound := reached_sound hP hfit h
  obtain ⟨l, hready, hl⟩ := reached_ready hP hfit h
  intro hdestroys
  obtain ⟨enough, hdestroys⟩ := hdestroys
  obtain ⟨events, hrun, -⟩ := hdestroys
    (enough + (w.state.blocks.map Block.addr).length + l.length + 1) (by omega)
  obtain ⟨a, ha, rfl⟩ := List.mem_map.mp (hsound.mem_firstSlots.mpr (hsound.live_handed c hc))
  have hbehind : ∀ f ∈ l, f < State.firstSlot P a := by
    intro f hf
    obtain ⟨hfh, hfl⟩ := (hl f).mp hf
    exact Nat.lt_of_le_of_ne (hlast f hfh) fun heq => hfl (heq ▸ hc)
  rw [hready.destruct_none hP hfit hone hsort (by omega)
    (mt (link_eq_none_iff hready.free).mpr hfree) ⟨a, ha, hbehind⟩] at hrun
  cases hrun

/-- The destructor of an allocator does what it should if and only if its
free list is empty, or the last of the slots that it has handed out is on
it. -/
theorem destroysLive_iff (h : World.Reached P fuel w) :
    DestroysLive P sort w
      ↔ w.state.freeSlots = 0 ∨ ∃ f ∈ w.handed, f ∉ w.live ∧ ∀ c ∈ w.handed, c ≤ f := by
  have hsound := reached_sound hP hfit h
  obtain ⟨l, hready, hl⟩ := reached_ready hP hfit h
  have hnil := link_eq_none_iff hready.free
  constructor
  · intro hdestroys
    by_contra hnot
    obtain ⟨hfree, hlost⟩ := not_or.mp hnot
    -- the last slot of all is not on the free list
    have hne : w.handed ≠ [] := fun hnone => by
      obtain ⟨f, hf⟩ := List.exists_mem_of_ne_nil l (mt hnil.mpr hfree)
      have hf := ((hl f).mp hf).1
      rw [hnone] at hf
      exact List.not_mem_nil hf
    obtain ⟨c, hc, hmax⟩ := w.handed.toFinset.exists_max_image id
      ((List.toFinset_nonempty_iff _).mpr hne)
    rw [List.mem_toFinset] at hc
    have hmax : ∀ c' ∈ w.handed, c' ≤ c := fun c' hc' => hmax c' (List.mem_toFinset.mpr hc')
    have hlive : c ∈ w.live := by
      by_contra hlive
      exact hlost ⟨c, hc, hlive, hmax⟩
    exact not_destroysLive hP hfit hone hsort h hfree hlive hmax hdestroys
  · intro hcond
    refine ⟨(w.state.blocks.map Block.addr).length + l.length + 1, fun fuel' hfuel => ?_⟩
    refine ⟨_, hready.destruct_eq hP hfit hone hsort (by omega) ?_, hsound.end_elements hP hfit hl,
      ?_, fun a => ?_, hsound.end_order hP hfit l⟩
    · refine hcond.imp hnil.mp fun h' => ?_
      obtain ⟨f, hf, hlive, hle⟩ := h'
      exact ⟨f, (hl f).mpr ⟨hf, hlive⟩, fun a ha =>
        hle _ (hsound.mem_firstSlots.mp (List.mem_map_of_mem ha))⟩
    · rw [block_endOf]
      exact hsound.headers.nodup
    · rw [block_endOf, List.mem_map]

end Result

theorem sorts_mergeSort : Sorts fun l => l.mergeSort := by
  intro l
  refine ⟨List.mergeSort_perm l _, ?_⟩
  refine (List.pairwise_mergeSort (fun a b c hab hbc => ?_) (fun a b => ?_) l).imp of_decide_eq_true
  · exact decide_eq_true (Nat.le_trans (of_decide_eq_true hab) (of_decide_eq_true hbc))
  · simpa using Nat.le_total a b

/-- A chunk that is the only one. -/
theorem destroysLive_iff_pointers :
    ∃ w, World.Reached pointers 0 w ∧ w.live = [65544]
      ∧ (DestroysLive pointers (fun l => l.mergeSort) w
        ↔ w.state.freeSlots = 0 ∨ ∃ f ∈ w.handed, f ∉ w.live ∧ ∀ c ∈ w.handed, c ≤ f) := by
  have hreached := World.Reached.step (.new fun _ => 0) (valid_allocate granted_first) rfl
  exact ⟨_, hreached, rfl,
    destroysLive_iff pointers_valid pointers_fits rfl sorts_mergeSort hreached⟩

/-- Of two chunks the first is given back, and the second is behind it. -/
theorem gap_reads_end :
    ∃ w, World.Reached pointers 0 w ∧ w.handed = [131080, 65544] ∧ w.live = [131080]
      ∧ ¬ DestroysLive pointers (fun l => l.mergeSort) w := by
  obtain ⟨w, hw, hhanded, hlive⟩ : ∃ w, World.Reached pointers 0 w
      ∧ w.handed = [131080, 65544] ∧ w.live = [131080, 65544] :=
    ⟨_, .step (.step (.new fun _ => 0) (valid_allocate granted_first) rfl)
      (valid_allocate granted_second) rfl, by decide, by decide⟩
  have hgiven : 65544 ∈ w.live := by
    rw [hlive]
    decide
  have hreached : World.Reached pointers 0
      ⟨w.state.deallocate 65544, w.handed, w.live.erase 65544⟩ :=
    hw.step (show Op.Valid pointers 0 w (.deallocate 65544) from hgiven) rfl
  have hleft : w.live.erase 65544 = [131080] := by
    rw [hlive]
    decide
  refine ⟨_, hreached, hhanded, hleft, ?_⟩
  refine not_destroysLive pointers_valid pointers_fits rfl sorts_mergeSort hreached (c := 131080)
    ?_ (by simp only [hleft, List.mem_singleton]) ?_
  · show (w.state.deallocate 65544).freeSlots ≠ 0
    rw [State.deallocate, if_pos (by decide)]
    exact Nat.succ_ne_zero 65543
  · show ∀ c' ∈ w.handed, c' ≤ 131080
    rw [hhanded]
    decide

end MctsConnectFour.Pool
