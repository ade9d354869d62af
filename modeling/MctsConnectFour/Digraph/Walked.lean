/-
What an iterator sees of a list that threads are appending to.

The list only becomes longer at its end, so an iterator that has had the
front of the list still has: and when it comes to an end, it has had all
that was there when it began, in order (`iterator_sees`).

The locks say what it sees of an arc. An arc is on the in-list of its node
before it has ends, but the thread that makes it has its lock until then;
so an arc that an iterator has is one that names the node. And while it
has the arc, no thread that adds has the lock, and no other iterator,
unless both read.

Iterators do not keep threads that add from getting on for ever, nor each
other, as long as their clients go on (`shared_progress`): who has the
lock of an arc does not wait.
-/
import MctsConnectFour.Digraph.Growing
import MctsConnectFour.Digraph.Iterators
import MctsConnectFour.Digraph.Progress

namespace MctsConnectFour.Digraph.Tree

open Chain (Linked)

variable {A N : Type} {g g' : Tree A N} {I : ItType} {a b n : Nat}

-- =========================================================== iterators

/-- The iterator has the lock of the arc. -/
def ItPc.Holds : ItPc → Nat → Prop
  | has a, b | leaves a _, b => b = a
  | _, _ => False

/-- The arc that comes next, if it has been read. -/
def ItPc.next : ItPc → Option Nat
  | wants b => some b
  | leaves _ next => next
  | _ => none

/-- No arc comes next. -/
def ItPc.Through : ItPc → Prop
  | leaves _ none | ended => True
  | _ => False

/-- There is an iterator of the type that has the lock of the arc. -/
def HasLock (T : LockType) (o : Option ArcIt) (b : Nat) : Prop :=
  ∃ it, o = some it ∧ it.lockType = T ∧ it.pc.Holds b

theorem hasLock_none {T : LockType} : ¬ HasLock T none b := fun h => by
  obtain ⟨it, hit, -⟩ := h
  cases hit

theorem hasLock_some {T : LockType} {it : ArcIt} :
    HasLock T (some it) b ↔ it.lockType = T ∧ it.pc.Holds b :=
  ⟨fun h => by obtain ⟨it', hit, h⟩ := h; exact Option.some.inj hit ▸ h, fun h => ⟨it, rfl, h⟩⟩

/-- What an iterator has had, and the arc that comes next, are the front
of the list. -/
structure ArcIt.At (g : Tree A N) (it : ArcIt) : Prop where
  node : it.node < g.nodeNum
  front : ∀ l, Linked (g.getNext it.list) (g.head it.list it.node) l →
    it.had ++ it.pc.next.toList <+: l
  last : ∀ a, it.pc.Holds a → it.had.getLast? = some a

/-- They stay so when the list becomes longer. -/
theorem ArcIt.At.grown {it : ArcIt} (h : it.At g) (hg : LinksGrow g g') {l : List Nat}
    (hl : Linked (g.getNext it.list) (g.head it.list it.node) l) : it.At g' :=
  ⟨h.node.trans_le hg.nodes, fun _ hl' => (h.front l hl).trans (hg.list hl hl'), h.last⟩

/-- At the end of the list an iterator has had all of it. -/
theorem ArcIt.At.whole {it : ArcIt} (h : it.At g) (ha : it.pc.Holds a)
    (hnext : g.getNext it.list a = none) {l : List Nat}
    (hl : Linked (g.getNext it.list) (g.head it.list it.node) l) : it.had = l := by
  obtain ⟨rest, rfl⟩ := (List.prefix_append _ _).trans (h.front l hl)
  obtain ⟨init, hinit⟩ := List.getLast?_eq_some_iff.mp (h.last a ha)
  rw [hinit, List.append_assoc, List.singleton_append] at hl
  have hrest := hl.rest
  rw [hnext] at hrest
  cases rest with
  | nil => exact (List.append_nil _).symm
  | cons b rest => cases hrest.1

namespace Shared

variable {τ ρ : Type} {x x' : Shared τ ρ A N} {r : ρ} {it : ArcIt}

/-- The invariant of the steps of all. -/
structure Inv (x : Shared τ ρ A N) : Prop where
  world : x.world.Inv
  writers : Locks.Tracks (HasLock .write) x.writer x.it
  readers : Locks.Shares (HasLock .read) x.readers x.it
  alone : ∀ b r, x.writer b = some r → x.readers b = ∅
  apart : ∀ b, x.world.arcLock b = none ∨ x.writer b = none ∧ x.readers b = ∅
  at' : ∀ r it, x.it r = some it → it.At x.world.tree

theorem inv_start (h : Wired g) : (start g : Shared τ ρ A N).Inv where
  world := World.inv_start h
  writers := fun _ _ => iff_of_false (by simp [start]) hasLock_none
  readers := fun _ _ => iff_of_false (by simp [start]) hasLock_none
  alone := fun _ _ _ => rfl
  apart := fun _ => Or.inl rfl
  at' := fun _ _ hit => by cases hit

/-- The list an iterator walks. -/
theorem Inv.list (h : x.Inv) (hit : x.it r = some it) :
    ∃ l, Linked (x.world.tree.getNext it.list) (x.world.tree.head it.list it.node) l
      ∧ ∀ c ∈ l, c < x.world.tree.arcNum ∧ ((∀ j, ¬ (x.world.thread j).Unset c) →
        World.nodeOf x.world.tree it.list c = some it.node) :=
  h.world.chain (h.at' r it hit).node it.list

/-- Iterators have locks of arcs that exist. -/
theorem Inv.free_of_le (h : x.Inv) (hb : x.world.tree.arcNum ≤ b) :
    x.writer b = none ∧ x.readers b = ∅ := by
  have hlt : ∀ {T r}, HasLock T (x.it r) b → b < x.world.tree.arcNum := by
    intro T r hlock
    obtain ⟨it, hit, -, hholds⟩ := hlock
    obtain ⟨l, hl, hmem⟩ := h.list hit
    have hat := h.at' r it hit
    have hhad := List.mem_of_getLast? (hat.last b hholds)
    exact (hmem b (((List.prefix_append _ _).trans (hat.front l hl)).subset hhad)).1
  exact ⟨h.writers.free fun r hr => absurd (hlt hr) (Nat.not_lt.mpr hb),
    h.readers.free fun r hr => absurd (hlt hr) (Nat.not_lt.mpr hb)⟩

/-- An arc that an iterator has is one that names the node, and nobody has
its lock but iterators that read, if it reads itself. -/
theorem Inv.holds (h : x.Inv) (hit : x.it r = some it) (ha : it.pc.Holds a) :
    it.had.getLast? = some a ∧ World.nodeOf x.world.tree it.list a = some it.node
      ∧ x.world.arcLock a = none
      ∧ ∀ r' it', r' ≠ r → x.it r' = some it' → it'.pc.Holds a →
        it.lockType = .read ∧ it'.lockType = .read := by
  have hat := h.at' r it hit
  have hlast := hat.last a ha
  have hwrites : ∀ {r it}, x.it r = some it → it.pc.Holds a → it.lockType = .write →
      x.writer a = some r :=
    fun hit ha hT => (h.writers a _).mpr ⟨_, hit, hT, ha⟩
  have hreads : ∀ {r it}, x.it r = some it → it.pc.Holds a → it.lockType = .read →
      r ∈ x.readers a :=
    fun hit ha hT => (h.readers a _).mpr ⟨_, hit, hT, ha⟩
  have hfree : x.world.arcLock a = none := by
    refine (h.apart a).resolve_right fun hnone => ?_
    cases hT : it.lockType with
    | write => cases (hwrites hit ha hT).symm.trans hnone.1
    | read => exact Finset.notMem_empty _ (hnone.2 ▸ hreads hit ha hT)
  refine ⟨hlast, ?_, hfree, fun r' it' hne hit' ha' => ?_⟩
  · obtain ⟨l, hl, hmem⟩ := h.list hit
    have hhad : a ∈ l :=
      ((List.prefix_append _ _).trans (hat.front l hl)).subset (List.mem_of_getLast? hlast)
    refine (hmem a hhad).2 fun j hj => ?_
    -- who has still to give it its ends has its lock
    have hholds : (x.world.thread j).HoldsArc a := by
      cases hx : x.world.thread j with
      | makeNode s b e =>
          rw [hx] at hj
          exact hj
      | setEnds s t b =>
          rw [hx] at hj
          exact hj
      | _ =>
          rw [hx] at hj
          exact hj.elim
    cases ((h.world.arcs a j).mpr hholds).symm.trans hfree
  · cases hT : it.lockType with
    | write =>
        have hw := hwrites hit ha hT
        cases hT' : it'.lockType with
        | write => exact absurd (Option.some.inj ((hwrites hit' ha' hT').symm.trans hw)) hne
        | read => exact absurd (h.alone a r hw ▸ hreads hit' ha' hT') (Finset.notMem_empty _)
    | read =>
        refine ⟨rfl, ?_⟩
        cases hT' : it'.lockType with
        | write =>
            exact absurd (h.alone a r' (hwrites hit' ha' hT') ▸ hreads hit ha hT)
              (Finset.notMem_empty _)
        | read => rfl

/-- A step of a thread that adds, while the iterators stay. -/
theorem Inv.withWorld (h : x.Inv) {w' : World τ A N} (hw : w'.Inv)
    (hgrow : LinksGrow x.world.tree w'.tree)
    (hlocks : ∀ b, x.world.arcLock b = none →
      w'.arcLock b = none ∨ x.writer b = none ∧ x.readers b = ∅) :
    Inv { x with world := w' } where
  world := hw
  writers := h.writers
  readers := h.readers
  alone := h.alone
  apart := fun b => by
    rcases h.apart b with hfree | hfree
    · exact hlocks b hfree
    · exact Or.inr hfree
  at' := fun r it hit => by
    obtain ⟨l, hl, -⟩ := h.list hit
    exact (h.at' r it hit).grown hgrow hl

variable [DecidableEq ρ]

/-- An iterator gets on. -/
theorem Inv.withIt (h : x.Inv) {writer : Nat → Option ρ} {readers : Nat → Finset ρ}
    (hwriters : Locks.Tracks (HasLock .write) writer (Function.update x.it r (some it)))
    (hreaders : Locks.Shares (HasLock .read) readers (Function.update x.it r (some it)))
    (halone : ∀ b r, writer b = some r → readers b = ∅)
    (hapart : ∀ b, x.world.arcLock b = none ∨ writer b = none ∧ readers b = ∅)
    (hat : it.At x.world.tree) :
    Inv ⟨x.world, Function.update x.it r (some it), writer, readers⟩ where
  world := h.world
  writers := hwriters
  readers := hreaders
  alone := halone
  apart := hapart
  at' :=
    (Function.forall_update_iff x.it fun _ o => ∀ it, o = some it → it.At x.world.tree).mpr
      ⟨fun _ heq => Option.some.inj heq ▸ hat, fun r' _ => h.at' r'⟩

theorem Inv.construct (h : x.Inv) {T : LockType} (hn : n < x.world.tree.nodeNum)
    (hnew : x.construct r T I n = some x') : x'.Inv ∧ x'.world = x.world := by
  rw [Shared.construct] at hnew
  cases hr : x.it r with
  | some it =>
      rw [hr] at hnew
      cases hnew
  | none =>
      rw [hr] at hnew
      obtain rfl := Option.some.inj hnew
      have hholds : ∀ b, ¬ (ItPc.towards (x.world.tree.head I n)).Holds b := by
        intro b
        cases x.world.tree.head I n <;> exact id
      have hstay : ∀ {T' : LockType} (b : Nat),
          HasLock T' (some ⟨T, I, n, [], .towards (x.world.tree.head I n)⟩) b
            ↔ HasLock T' (x.it r) b := by
        intro T' b
        rw [hr]
        exact iff_of_false (fun hb => hholds b (hasLock_some.mp hb).2) hasLock_none
      refine ⟨h.withIt (h.writers.stay hstay) (h.readers.stay hstay) h.alone h.apart
        ⟨hn, fun l hl => ?_, fun a ha => absurd ha (hholds a)⟩, rfl⟩
      cases l with
      | nil =>
          rw [show x.world.tree.head I n = none from hl]
          exact List.nil_prefix
      | cons b l =>
          rw [hl.1]
          exact List.prefix_append [b] l

/-- An iterator takes the lock it waits for. -/
theorem Inv.lock (h : x.Inv) (hit : x.it r = some it) (hpc : it.pc = .wants b) {T : LockType}
    (hT : it.lockType = T) (hlock : x.lock r b T = some x') :
    (x'.goTo r { it with had := it.had ++ [b], pc := .has b }).Inv ∧ x'.world = x.world
      ∧ x'.it = x.it := by
  have hat := h.at' r it hit
  have hnone : ∀ T m, ¬ HasLock T (x.it r) m := by
    intro T m hm
    rw [hit, hasLock_some, hpc] at hm
    exact hm.2
  have hhas : ∀ T m, HasLock T (some { it with had := it.had ++ [b], pc := .has b }) m
      ↔ it.lockType = T ∧ m = b := fun T m => hasLock_some
  have hat' : ArcIt.At x.world.tree { it with had := it.had ++ [b], pc := .has b } := by
    refine ⟨hat.node, fun l hl => ?_, fun a ha => ?_⟩
    · have hfront := hat.front l hl
      rw [hpc] at hfront
      simpa [ItPc.next] using hfront
    · obtain rfl : a = b := ha
      exact List.getLast?_concat
  cases T with
  | write =>
      rw [Shared.lock] at hlock
      split at hlock
      · next hfree =>
          obtain rfl := Option.some.inj hlock
          refine ⟨h.withIt (h.writers.acquire hfree.2.1 fun m => ?_) (h.readers.stay fun m => ?_)
            ?_ ?_ hat', rfl, rfl⟩
          · rw [hhas, hT]
            exact ⟨fun hm => Or.inr hm.2, fun hm => ⟨rfl, hm.resolve_left (hnone _ m)⟩⟩
          · rw [hhas, hT]
            exact iff_of_false (fun hm => by cases hm.1) (hnone _ m)
          · exact (Function.forall_update_iff x.writer fun m o => ∀ r', o = some r' →
              x.readers m = ∅).mpr ⟨fun _ _ => hfree.2.2, fun m _ => h.alone m⟩
          · exact (Function.forall_update_iff x.writer fun m o => x.world.arcLock m = none
              ∨ o = none ∧ x.readers m = ∅).mpr ⟨Or.inl hfree.1, fun m _ => h.apart m⟩
      · cases hlock
  | read =>
      rw [Shared.lock] at hlock
      split at hlock
      · next hfree =>
          obtain rfl := Option.some.inj hlock
          refine ⟨h.withIt (h.writers.stay fun m => ?_) (h.readers.acquire fun m => ?_)
            ?_ ?_ hat', rfl, rfl⟩
          · rw [hhas, hT]
            exact iff_of_false (fun hm => by cases hm.1) (hnone _ m)
          · rw [hhas, hT]
            exact ⟨fun hm => Or.inr hm.2, fun hm => ⟨rfl, hm.resolve_left (hnone _ m)⟩⟩
          · exact (Function.forall_update_iff x.readers fun m o => ∀ r', x.writer m = some r' →
              o = ∅).mpr ⟨fun _ hr' => (by cases hfree.2.symm.trans hr'), fun m _ => h.alone m⟩
          · exact (Function.forall_update_iff x.readers fun m o => x.world.arcLock m = none
              ∨ x.writer m = none ∧ o = ∅).mpr ⟨Or.inl hfree.1, fun m _ => h.apart m⟩
      · cases hlock

/-- An iterator gives its lock back. -/
theorem Inv.unlock (h : x.Inv) (hit : x.it r = some it) {next : Option Nat}
    (hpc : it.pc = .leaves a next) {T : LockType} (hT : it.lockType = T) :
    ((x.unlock r a T).goTo r { it with pc := .towards next }).Inv := by
  have hat := h.at' r it hit
  have hholds : ∀ m, ¬ (ItPc.towards next).Holds m := by
    intro m
    cases next <;> exact id
  have hhas : ∀ T m, ¬ HasLock T (some { it with pc := .towards next }) m :=
    fun T m hm => hholds m (hasLock_some.mp hm).2
  have hold : ∀ T m, HasLock T (x.it r) m ↔ it.lockType = T ∧ m = a := by
    intro T m
    rw [hit, hasLock_some, hpc]
    exact Iff.rfl
  have hat' : ArcIt.At x.world.tree { it with pc := .towards next } := by
    refine ⟨hat.node, fun l hl => ?_, fun m hm => absurd hm (hholds m)⟩
    have hfront := hat.front l hl
    rw [hpc] at hfront
    cases next <;> exact hfront
  cases T with
  | write =>
      show Inv ⟨x.world, _, Function.update x.writer a none, x.readers⟩
      refine h.withIt (h.writers.release ((hold .write a).mpr ⟨hT, rfl⟩) fun m => ?_)
        (h.readers.stay fun m => ?_) ?_ ?_ hat'
      · exact iff_of_false (hhas _ m) fun hm => hm.2 ((hold _ m).mp hm.1).2
      · exact iff_of_false (hhas _ m) fun hm => by cases hT.symm.trans ((hold _ m).mp hm).1
      · exact (Function.forall_update_iff x.writer fun m o => ∀ r', o = some r' →
          x.readers m = ∅).mpr ⟨fun _ hr' => (by cases hr'), fun m _ => h.alone m⟩
      · exact (Function.forall_update_iff x.writer fun m o => x.world.arcLock m = none
          ∨ o = none ∧ x.readers m = ∅).mpr
            ⟨(h.apart a).imp_right fun hfree => ⟨rfl, hfree.2⟩, fun m _ => h.apart m⟩
  | read =>
      show Inv ⟨x.world, _, x.writer, Function.update x.readers a ((x.readers a).erase r)⟩
      refine h.withIt (h.writers.stay fun m => ?_) (h.readers.release fun m => ?_) ?_ ?_ hat'
      · exact iff_of_false (hhas _ m) fun hm => by cases hT.symm.trans ((hold _ m).mp hm).1
      · exact iff_of_false (hhas _ m) fun hm => hm.2 ((hold _ m).mp hm.1).2
      · exact (Function.forall_update_iff x.readers fun m o => ∀ r', x.writer m = some r' →
          o = ∅).mpr ⟨fun r' hr' => by rw [h.alone a r' hr']; rfl, fun m _ => h.alone m⟩
      · exact (Function.forall_update_iff x.readers fun m o => x.world.arcLock m = none
          ∨ x.writer m = none ∧ o = ∅).mpr
            ⟨(h.apart a).imp_right fun hfree => ⟨hfree.1, by rw [hfree.2]; rfl⟩,
              fun m _ => h.apart m⟩

/-- The iterator reads the link to the next arc. -/
theorem Inv.read (h : x.Inv) (hit : x.it r = some it) (hpc : it.pc = .has a) :
    (x.goTo r { it with pc := .leaves a (x.world.tree.getNext it.list a) }).Inv := by
  have hat := h.at' r it hit
  have hstay : ∀ {T : LockType} (m : Nat),
      HasLock T (some { it with pc := .leaves a (x.world.tree.getNext it.list a) }) m
        ↔ HasLock T (x.it r) m := by
    intro T m
    rw [hit, hasLock_some, hasLock_some, hpc]
    exact Iff.rfl
  refine h.withIt (h.writers.stay hstay) (h.readers.stay hstay) h.alone h.apart
    ⟨hat.node, fun l hl => ?_, fun m hm => hat.last m (by rw [hpc]; exact hm)⟩
  have hholds : it.pc.Holds a := by
    rw [hpc]
    exact rfl
  obtain ⟨rest, rfl⟩ := (List.prefix_append _ _).trans (hat.front l hl)
  obtain ⟨init, hinit⟩ := List.getLast?_eq_some_iff.mp (hat.last a hholds)
  have hlinked := hl
  rw [hinit, List.append_assoc, List.singleton_append] at hlinked
  refine (List.prefix_append_right_inj _).mpr ?_
  have hrest := hlinked.rest
  cases rest with
  | nil =>
      rw [show x.world.tree.getNext it.list a = none from hrest]
      exact List.nil_prefix
  | cons b rest =>
      rw [hrest.1]
      exact List.prefix_append [b] rest

/-- A step of an iterator changes only that iterator and its locks. -/
theorem Inv.goIt (h : x.Inv) (hgo : x.goIt r = some x') :
    x'.Inv ∧ x'.world = x.world ∧ ∀ r', r' ≠ r → x'.it r' = x.it r' := by
  rw [Shared.goIt] at hgo
  cases hit : x.it r with
  | none =>
      rw [hit] at hgo
      cases hgo
  | some it =>
      rw [hit] at hgo
      dsimp only at hgo
      cases hpc : it.pc with
      | wants b =>
          rw [hpc] at hgo
          obtain ⟨x₁, hlock, rfl⟩ := Option.map_eq_some_iff.mp hgo
          obtain ⟨hinv, hworld, hits⟩ := h.lock hit hpc rfl hlock
          refine ⟨hinv, hworld, fun r' hr' => ?_⟩
          exact (Function.update_of_ne hr' ..).trans (congrFun hits r')
      | has a =>
          rw [hpc] at hgo
          obtain rfl := Option.some.inj hgo
          exact ⟨h.read hit hpc, rfl, fun r' hr' => Function.update_of_ne hr' ..⟩
      | leaves a next =>
          rw [hpc] at hgo
          obtain rfl := Option.some.inj hgo
          refine ⟨h.unlock hit hpc rfl, ?_, fun r' hr' => ?_⟩
          · cases it.lockType <;> rfl
          · refine (Function.update_of_ne hr' ..).trans ?_
            cases it.lockType <;> rfl
      | ended =>
          rw [hpc] at hgo
          cases hgo

-- ================================================================ runs

/-- The iterator walks a list that begins with `l₀`, and when no arc comes
next it has had these. -/
structure Walks (x : Shared τ ρ A N) (r : ρ) (T : LockType) (I : ItType) (n : Nat)
    (l₀ : List Nat) (it : ArcIt) : Prop where
  here : x.it r = some it
  walk : it.lockType = T ∧ it.list = I ∧ it.node = n
  list : ∀ l, Linked (x.world.tree.getNext I) (x.world.tree.head I n) l → l₀ <+: l
  through : it.pc.Through → l₀ <+: it.had

variable {T : LockType} {l₀ : List Nat}

/-- A step of the iterator itself. -/
theorem Walks.goIt (h : Walks x r T I n l₀ it) (hx : x.Inv) (hgo : x.goIt r = some x') :
    ∃ it', Walks x' r T I n l₀ it' := by
  obtain ⟨-, hworld, -⟩ := hx.goIt hgo
  have hlist : ∀ l, Linked (x'.world.tree.getNext I) (x'.world.tree.head I n) l → l₀ <+: l := by
    rw [hworld]
    exact h.list
  have hwalk := h.walk
  rw [Shared.goIt, h.here] at hgo
  dsimp only at hgo
  cases hpc : it.pc with
  | wants b =>
      rw [hpc] at hgo
      obtain ⟨x₁, -, rfl⟩ := Option.map_eq_some_iff.mp hgo
      exact ⟨_, Function.update_self .., hwalk, hlist, False.elim⟩
  | has a =>
      rw [hpc] at hgo
      obtain rfl := Option.some.inj hgo
      refine ⟨_, Function.update_self .., hwalk, hlist, fun hthrough => ?_⟩
      cases hnext : x.world.tree.getNext it.list a with
      | some b =>
          rw [hnext] at hthrough
          exact hthrough.elim
      | none =>
          -- the end of the list: all of it has been had
          obtain ⟨l, hl, -⟩ := hx.list h.here
          have hwhole := (hx.at' r it h.here).whole (by rw [hpc]; exact rfl) hnext hl
          obtain ⟨-, rfl, rfl⟩ := hwalk
          exact hwhole ▸ h.list l hl
  | leaves a next =>
      rw [hpc] at hgo
      obtain rfl := Option.some.inj hgo
      refine ⟨_, Function.update_self .., hwalk, hlist, fun hthrough => h.through ?_⟩
      rw [hpc]
      cases next with
      | none => trivial
      | some b => exact hthrough
  | ended =>
      rw [hpc] at hgo
      cases hgo

/-- A new iterator has had nothing, and walks the list that is there. -/
theorem walks_construct (hl : Linked (x.world.tree.getNext I) (x.world.tree.head I n) l₀)
    (hnew : x.construct r T I n = some x') : ∃ it, Walks x' r T I n l₀ it := by
  rw [Shared.construct] at hnew
  cases hr : x.it r with
  | some it =>
      rw [hr] at hnew
      cases hnew
  | none =>
      rw [hr] at hnew
      obtain rfl := Option.some.inj hnew
      refine ⟨_, Function.update_self .., ⟨rfl, rfl, rfl⟩, fun l hl' => ?_, fun hthrough => ?_⟩
      · rw [hl.unique hl']
      · cases l₀ with
        | nil => exact List.nil_prefix
        | cons a l =>
            rw [hl.1] at hthrough
            exact hthrough.elim

variable [DecidableEq τ]

omit [DecidableEq ρ] in
theorem Inv.begin (h : x.Inv) {i : τ} {y : Add A N} {w' : World τ A N}
    (hy : y.Valid x.world.tree) (hbegin : x.world.begin i y = some w') :
    Inv { x with world := w' } ∧ LinksGrow x.world.tree w'.tree := by
  obtain ⟨hgrow, hlocks⟩ := World.linksGrow_begin hbegin
  refine ⟨h.withWorld (h.world.begin hy hbegin) hgrow fun b hfree => ?_, hgrow⟩
  by_cases hb : b < x.world.tree.arcNum
  · exact Or.inl ((hlocks b hb).trans hfree)
  · exact Or.inr (h.free_of_le (Nat.le_of_not_lt hb))

/-- A thread that adds makes a step of its own, and takes the lock of an
arc only when no iterator has it. -/
theorem goAdd_eq {i : τ} (hgo : x.goAdd i = some x') :
    ∃ w', x.world.go i = some w' ∧ x' = { x with world := w' }
      ∧ ∀ byNode I s t a b, x.world.thread i = .append byNode I s t a (.tail b) →
        x.writer b = none ∧ x.readers b = ∅ := by
  rw [goAdd] at hgo
  split at hgo
  · next hi =>
      split at hgo
      · next hfree =>
          obtain ⟨w', hw', rfl⟩ := Option.map_eq_some_iff.mp hgo
          refine ⟨w', hw', rfl, fun byNode I s t a b heq => ?_⟩
          cases hi.symm.trans heq
          exact hfree
      · cases hgo
  · next hi =>
      obtain ⟨w', hw', rfl⟩ := Option.map_eq_some_iff.mp hgo
      exact ⟨w', hw', rfl, fun byNode I s t a b heq => absurd heq (hi byNode I s t a b)⟩

theorem Inv.goAdd (h : x.Inv) {i : τ} (hgo : x.goAdd i = some x') :
    x'.Inv ∧ LinksGrow x.world.tree x'.world.tree ∧ x'.it = x.it := by
  obtain ⟨w', hw', rfl, hwait⟩ := goAdd_eq hgo
  have hgrow := h.world.linksGrow_go hw'
  refine ⟨h.withWorld (h.world.go hw') hgrow fun b hfree => ?_, hgrow, rfl⟩
  rcases World.arcLock_go hw' hfree with hfree' | ⟨byNode, I, s, t, a, hi⟩
  · exact Or.inl hfree'
  · exact Or.inr (hwait byNode I s t a b hi)

/-- A step keeps the invariant, and links only grow. -/
theorem Inv.step (h : x.Inv) (hstep : Step x x') :
    x'.Inv ∧ LinksGrow x.world.tree x'.world.tree := by
  cases hstep with
  | begin hy hbegin => exact h.begin hy hbegin
  | goAdd hgo =>
      obtain ⟨hinv, hgrow, -⟩ := h.goAdd hgo
      exact ⟨hinv, hgrow⟩
  | construct hn hnew =>
      obtain ⟨hinv, hworld⟩ := h.construct hn hnew
      exact ⟨hinv, hworld ▸ .refl⟩
  | goIt hgo =>
      obtain ⟨hinv, hworld, -⟩ := h.goIt hgo
      exact ⟨hinv, hworld ▸ .refl⟩

theorem Leads.inv (h : Leads x x') (hx : x.Inv) : x'.Inv := by
  induction h with
  | refl => exact hx
  | tail _ hstep ih => exact (ih.step hstep).1

/-- Any step. -/
theorem Walks.step (h : Walks x r T I n l₀ it) (hx : x.Inv) (hstep : Step x x') :
    ∃ it', Walks x' r T I n l₀ it' := by
  obtain ⟨l, hl, -⟩ := hx.list h.here
  obtain ⟨hT, rfl, rfl⟩ := h.walk
  have hgrown : ∀ l', Linked (x'.world.tree.getNext it.list)
      (x'.world.tree.head it.list it.node) l' → l₀ <+: l' :=
    fun l' hl' => (h.list l hl).trans ((hx.step hstep).2.list hl hl')
  cases hstep with
  | begin hy hbegin => exact ⟨it, h.here, h.walk, hgrown, h.through⟩
  | goAdd hgo =>
      obtain ⟨-, -, hits⟩ := hx.goAdd hgo
      exact ⟨it, hits ▸ h.here, h.walk, hgrown, h.through⟩
  | @construct r' T' I' n' x' hn hnew =>
      refine ⟨it, ?_, h.walk, hgrown, h.through⟩
      rw [Shared.construct] at hnew
      split at hnew
      · next hnone =>
          obtain rfl := Option.some.inj hnew
          refine (Function.update_of_ne ?_ ..).trans h.here
          intro hrr
          rw [← hrr, h.here] at hnone
          cases hnone
      · cases hnew
  | @goIt r' x' hgo =>
      by_cases hrr : r = r'
      · subst hrr
        exact h.goIt hx hgo
      · obtain ⟨-, -, hothers⟩ := hx.goIt hgo
        exact ⟨it, (hothers r hrr).trans h.here, h.walk, hgrown, h.through⟩

/-- In a run. -/
theorem Walks.leads (h : Walks x r T I n l₀ it) (hx : x.Inv) (hrun : Leads x x') :
    ∃ it', Walks x' r T I n l₀ it' := by
  induction hrun with
  | refl => exact ⟨it, h⟩
  | tail hbefore hstep ih =>
      obtain ⟨it', h'⟩ := ih
      exact h'.step (Leads.inv hbefore hx) hstep

omit [DecidableEq τ] in
/-- Who has the lock of an arc does not wait. -/
theorem goIt_ne_none {T : LockType} (h : HasLock T (x.it r) b) : x.goIt r ≠ none := by
  obtain ⟨it, hit, -, hholds⟩ := h
  rw [Shared.goIt, hit]
  dsimp only
  cases hpc : it.pc with
  | wants b =>
      rw [hpc] at hholds
      exact hholds.elim
  | has a => simp
  | leaves a next => simp
  | ended =>
      rw [hpc] at hholds
      exact hholds.elim

/-- Where no iterator has a lock, threads that add wait for each other
only. -/
theorem go_eq_none {i : τ} (hfree : ∀ b, x.writer b = none ∧ x.readers b = ∅)
    (hstuck : x.goAdd i = none) : x.world.go i = none := by
  rw [Shared.goAdd] at hstuck
  split at hstuck
  · rw [if_pos (hfree _)] at hstuck
    exact Option.map_eq_none_iff.mp hstuck
  · exact Option.map_eq_none_iff.mp hstuck

omit [DecidableEq τ] in
/-- Where no lock is taken, an iterator gets on to the end. -/
theorem ended_of_stuck (harcs : ∀ b, x.world.arcLock b = none)
    (hfree : ∀ b, x.writer b = none ∧ x.readers b = ∅) (hit : x.it r = some it)
    (hstuck : x.goIt r = none) : it.pc = .ended := by
  rw [Shared.goIt, hit] at hstuck
  dsimp only at hstuck
  cases hpc : it.pc with
  | wants b =>
      rw [hpc] at hstuck
      cases hT : it.lockType with
      | write =>
          rw [hT] at hstuck
          simp [Shared.lock, harcs, hfree] at hstuck
      | read =>
          rw [hT] at hstuck
          simp [Shared.lock, harcs, hfree] at hstuck
  | has a =>
      rw [hpc] at hstuck
      cases hstuck
  | leaves a next =>
      rw [hpc] at hstuck
      cases hstuck
  | ended => rfl

/-- When nobody can make a step, all threads are done, all iterators have
come to the end, and no lock is taken. -/
theorem shared_progress {g₀ : Tree A N} (hg : Wired g₀) (hrun : Leads (start g₀) x)
    (hadd : ∀ i, x.goAdd i = none) (hwalk : ∀ r, x.goIt r = none) :
    (∀ i, x.world.thread i = .idle) ∧ (∀ r it, x.it r = some it → it.pc = .ended)
      ∧ (∀ m, x.world.nodeLock m = none)
      ∧ ∀ b, x.world.arcLock b = none ∧ x.writer b = none ∧ x.readers b = ∅ := by
  have hinv := hrun.inv (inv_start hg)
  have hfree : ∀ b, x.writer b = none ∧ x.readers b = ∅ := fun b =>
    ⟨hinv.writers.free fun r hr => goIt_ne_none hr (hwalk r),
      hinv.readers.free fun r hr => goIt_ne_none hr (hwalk r)⟩
  have hidle : ∀ i, x.world.thread i = .idle := by
    intro i
    by_contra hi
    obtain ⟨j, w', hgo⟩ := hinv.world.exists_go hi
    cases (go_eq_none hfree (hadd j)).symm.trans hgo
  obtain ⟨hnodes, harcs⟩ := hinv.world.unlocked hidle
  exact ⟨hidle, fun r it hit => ended_of_stuck harcs hfree hit (hwalk r), hnodes,
    fun b => ⟨harcs b, hfree b⟩⟩

-- ============================================================== turns

/-- A step of a thread that adds or of an iterator. -/
def go (x : Shared τ ρ A N) : τ ⊕ ρ → Option (Shared τ ρ A N)
  | .inl i => x.goAdd i
  | .inr r => x.goIt r

theorem Leads.goes {l : List (τ ⊕ ρ)} (hgoes : l.foldlM go x = some x') : Leads x x' := by
  induction l generalizing x with
  | nil =>
      obtain rfl := Option.some.inj hgoes
      exact .refl
  | cons m l ih =>
      rw [List.foldlM_cons] at hgoes
      obtain ⟨x₁, hgo, hrest⟩ := Option.bind_eq_some_iff.mp hgoes
      refine .head ?_ (ih hrest)
      cases m with
      | inl i => exact .goAdd hgo
      | inr r => exact .goIt hgo

open World (oneNode)

/-- A thread has begun to add an arc from the root to itself. -/
def begun : Option (Shared Unit Unit Nat Nat) :=
  ((World.start oneNode).begin () (.arc 0 0 3)).map fun w =>
    ⟨w, fun _ => none, fun _ => none, fun _ => ∅⟩

/-- The thread appends to the in-list, the iterator walks it, and the
thread appends to the out-list. -/
def turns : List (Unit ⊕ Unit) :=
  List.replicate 6 (.inl ()) ++ List.replicate 6 (.inr ()) ++ List.replicate 6 (.inl ())

/-- An iterator of the in-list of the root, constructed before. -/
def walked : Option (Shared Unit Unit Nat Nat) :=
  (begun.bind fun x => x.construct () .read .ins 0).bind fun x => turns.foldlM go x

theorem leads_begun : ∃ x, begun = some x ∧ 0 < x.world.tree.nodeNum
    ∧ Leads (start oneNode) x := by
  refine ⟨_, rfl, Nat.one_pos, .single (.begin (i := ()) (y := .arc 0 0 3) ?_ rfl)⟩
  exact ⟨Nat.one_pos, Nat.one_pos⟩

/-- The arc that is appended meanwhile is had as well. -/
example : (walked.bind fun x => x.it ()).map (·.had) = some [0, 1] := by rfl

theorem shared_progress_walked : ∃ x, walked = some x ∧ (∀ i, x.world.thread i = .idle)
    ∧ (∀ r it, x.it r = some it → it.pc = .ended) ∧ (∀ m, x.world.nodeLock m = none)
    ∧ ∀ b, x.world.arcLock b = none ∧ x.writer b = none ∧ x.readers b = ∅ := by
  obtain ⟨x₀, hx₀, hn, hbefore⟩ := leads_begun
  have hwalked : ∃ x₁ x₂, x₀.construct () .read .ins 0 = some x₁ ∧ turns.foldlM go x₁ = some x₂
      ∧ walked = some x₂ ∧ (∀ i, x₂.goAdd i = none) ∧ ∀ r, x₂.goIt r = none := by
    cases hx₀
    exact ⟨_, _, rfl, rfl, rfl, fun _ => rfl, fun _ => rfl⟩
  obtain ⟨x₁, x₂, hnew, hgoes, hx₂, hadd, hwalk⟩ := hwalked
  have hrun : Leads (start oneNode) x₂ :=
    (hbefore.tail (.construct hn hnew)).trans (Leads.goes hgoes)
  exact ⟨x₂, hx₂, shared_progress wired_new hrun hadd hwalk⟩

end Shared

end MctsConnectFour.Digraph.Tree
