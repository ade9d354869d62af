/-
The queueing arc iterator of the older tree (`QueingArcIt_`), and what
becomes of the arcs it puts off.

The iterator locks the arc it stands on. Where the lock of the next arc
is busy it queues that arc and goes on along the list; past the end of
the list it turns to the queue. But the constructor has put
`invalid_arc` at the front of the queue, and to the loop an invalid arc
is the end of the iteration: the first arc that is taken back is that
one, and the arcs put off stay in the queue. So an arc whose lock is
busy is skipped, and the iterator visits every arc exactly when no lock
but the first is ever busy (`visitsOnce_iff`). The first is waited for.

# The locks

Other threads are what decides an attempt: `free a k` says whether the
`k`-th call of `tryLock` on the arc `a` succeeds. Of the locks only those
that the iterator holds are state here; whether it locks for reading or
for writing is the same to it.
-/
import MctsConnectFour.Digraph.Wired

namespace MctsConnectFour.Digraph.Tree

open Chain (Linked Threaded)

variable {A N : Type}

-- ======================================================== the iterator

/-- `ItType`: along the in-list or along the out-list. -/
inductive ItType where
  | ins
  | outs
deriving DecidableEq

/-- `I == ItType::in ? m_nodes [ n ].head_in : m_nodes [ n ].head_out`. -/
def head (g : Tree A N) (I : ItType) (n : Nat) : Option Nat :=
  if I = .ins then g.headIn n else g.headOut n

/-- `getNext ( a )`. -/
def getNext (g : Tree A N) (I : ItType) (a : Nat) : Option Nat :=
  if I = .ins then g.nextIn a else g.nextOut a

/-- `QueingArcIt_`, the locks it holds, and how often it has tried each. -/
structure QueingArcIt where
  arc : Option Nat
  queue : List (Option Nat)
  notAllTouched : Bool
  held : List Nat
  tries : Nat → Nat

namespace QueingArcIt

/-- `lock ( a )`: the call returns when the lock is taken. -/
def lock (it : QueingArcIt) (a : Nat) : QueingArcIt := { it with held := a :: it.held }

/-- `unlock ( a )`. -/
def unlock (it : QueingArcIt) (a : Nat) : QueingArcIt := { it with held := it.held.erase a }

/-- One more attempt on `a`. -/
def tried (it : QueingArcIt) (a : Nat) : QueingArcIt :=
  { it with tries := Function.update it.tries a (it.tries a + 1) }

/-- `tryLock ( a )`. -/
def tryLock (free : Nat → Nat → Bool) (it : QueingArcIt) (a : Nat) : Bool × QueingArcIt :=
  if free a (it.tries a) then (true, (it.tried a).lock a) else (false, it.tried a)

/-- `m_queue.push_back ( a )`. -/
def queuePush (it : QueingArcIt) (a : Option Nat) : QueingArcIt :=
  { it with queue := it.queue ++ [a] }

/-- `queuePop ( )`; the source never pops an empty queue. -/
def queuePop (it : QueingArcIt) : Option Nat × QueingArcIt :=
  (it.queue.head?.join, { it with queue := it.queue.tail })

/-- The constructor. -/
def construct (g : Tree A N) (I : ItType) (n : Nat) : QueingArcIt :=
  let it : QueingArcIt :=
    { arc := g.head I n
      queue := []
      notAllTouched := true
      held := []
      tries := fun _ => 0 }
  let it := it.queuePush none
  match it.arc with
  | none => it
  | some a => it.lock a

/-- The body of the loop of `operator ++`, with `next` and whether the loop
is left. -/
def probe (g : Tree A N) (I : ItType) (free : Nat → Nat → Bool)
    (x : QueingArcIt × Option Nat × Bool) : Option (QueingArcIt × Option Nat × Bool) :=
  x.2.1.map fun next =>
    let (taken, it) := x.1.tryLock free next
    if taken then (it, some next, true)
    else
      let it := it.queuePush (some next)
      if it.notAllTouched then
        match g.getNext I next with
        | some a => (it, some a, false)
        | none =>
          let (a, it) := { it with notAllTouched := false }.queuePop
          (it, a, false)
      else
        let (a, it) := it.queuePop
        (it, a, false)

/-- `operator ++`, on a valid iterator. -/
def increment (g : Tree A N) (I : ItType) (free : Nat → Nat → Bool) (fuel : Nat)
    (it : QueingArcIt) : Option QueingArcIt :=
  it.arc.bind fun a =>
    (Loops.whileLoop (fun x : QueingArcIt × Option Nat × Bool => x.2.1.isSome && !x.2.2)
      (probe g I free) fuel (it.unlock a, g.getNext I a, false)).map fun x =>
        { x.1 with arc := x.2.1 }

/-- An iteration: the iterator at its end, and the arcs it has stood on,
each with the locks held then. -/
def iterate (g : Tree A N) (I : ItType) (free : Nat → Nat → Bool) (n fuel : Nat) :
    Option (QueingArcIt × List (Nat × List Nat)) :=
  Loops.whileLoop (fun x : QueingArcIt × List (Nat × List Nat) => x.1.arc.isSome)
    (fun x => x.1.arc.bind fun a =>
      (x.1.increment g I free fuel).map fun it => (it, x.2 ++ [(a, x.1.held)]))
    fuel (construct g I n, [])

end QueingArcIt

/-- The arcs of the list that an iterator follows. -/
def listArcs (g : Tree A N) (I : ItType) (n : Nat) : List Nat :=
  if I = .ins then g.inArcs n else g.outArcs n

/-- What an iteration should do: come to an end, given the fuel, having
stood on every arc of the list once, each while it was locked, and with no
lock left. -/
def VisitsOnce (g : Tree A N) (I : ItType) (free : Nat → Nat → Bool) (n : Nat) : Prop :=
  ∃ enough, ∀ fuel, enough ≤ fuel →
    ∃ it visits, QueingArcIt.iterate g I free n fuel = some (it, visits)
      ∧ (visits.map Prod.fst).Perm (g.listArcs I n)
      ∧ (∀ v ∈ visits, v.1 ∈ v.2) ∧ it.held = []

-- ============================================================ one step

section Step

variable {g : Tree A N} {I : ItType} {free : Nat → Nat → Bool}

/-- An iterator in its first pass: the sentinel is at the front of the
queue, and of the arcs still to come, `l`, none has been tried. -/
structure FirstPass (it : QueingArcIt) (l : List Nat) : Prop where
  sentinel : it.queue.head? = some none
  first : it.notAllTouched = true
  untried : ∀ a ∈ l, it.tries a = 0

/-- The arcs from the first one on whose lock is free. -/
def fromFree (free : Nat → Nat → Bool) (l : List Nat) : List Nat :=
  l.dropWhile fun a => !free a 0

theorem fromFree_cons {a : Nat} {l : List Nat} :
    fromFree free (a :: l) = if free a 0 then a :: l else fromFree free l := by
  unfold fromFree
  rw [List.dropWhile_cons]
  cases free a 0 <;> simp

variable (free) in
theorem fromFree_suffix (l : List Nat) : fromFree free l <:+ l := List.dropWhile_suffix _

/-- A busy arc with others behind it: it is put off, and the next one is
tried. -/
theorem probe_busy {it : QueingArcIt} {a b : Nat} {l : List Nat} (h : FirstPass it (a :: b :: l))
    (hbusy : free a 0 = false) (hnext : g.getNext I a = some b) (hnew : a ∉ b :: l) :
    ∃ it', QueingArcIt.probe g I free (it, some a, false) = some (it', some b, false)
      ∧ it'.held = it.held ∧ FirstPass it' (b :: l) := by
  have htries := h.untried a (List.mem_cons_self ..)
  have hflag : ((it.tried a).queuePush (some a)).notAllTouched = true := h.first
  refine ⟨(it.tried a).queuePush (some a), ?_, rfl, ?_⟩
  · unfold QueingArcIt.probe QueingArcIt.tryLock
    simp only [Option.map_some, htries, hbusy, Bool.false_eq_true, if_false, hflag, if_true, hnext]
  · refine ⟨?_, h.first, ?_⟩
    · show (it.queue ++ [some a]).head? = some none
      rw [List.head?_append, h.sentinel]
      rfl
    · intro c hc
      have hca : c ≠ a := fun heq => hnew (heq ▸ hc)
      show Function.update it.tries a _ c = 0
      rw [Function.update_of_ne hca]
      exact h.untried c (List.mem_cons_of_mem _ hc)

/-- A busy arc at the end of the list: the sentinel comes back, and the
loop is left with it. -/
theorem probe_busy_last {it : QueingArcIt} {a : Nat} (h : FirstPass it [a])
    (hbusy : free a 0 = false) (hnext : g.getNext I a = none) :
    ∃ it', QueingArcIt.probe g I free (it, some a, false) = some (it', none, false)
      ∧ it'.held = it.held := by
  have htries := h.untried a (List.mem_cons_self ..)
  have hfront : (it.queue ++ [some a]).head?.join = none := by
    rw [List.head?_append, h.sentinel]
    rfl
  have hflag : ((it.tried a).queuePush (some a)).notAllTouched = true := h.first
  let it' : QueingArcIt := { (it.tried a).queuePush (some a) with notAllTouched := false }
  have hpop : it'.queuePop.1 = none := hfront
  refine ⟨it'.queuePop.2, ?_, rfl⟩
  unfold QueingArcIt.probe QueingArcIt.tryLock
  simp only [Option.map_some, htries, hbusy, Bool.false_eq_true, if_false, hflag, if_true, hnext]
  exact congrArg (fun next => some (it'.queuePop.2, next, false)) hpop

/-- A free arc: its lock is taken, and the loop is left. -/
theorem probe_free {it : QueingArcIt} {a : Nat} {l : List Nat} (h : FirstPass it (a :: l))
    (hfree : free a 0 = true) (hnew : a ∉ l) :
    ∃ it', QueingArcIt.probe g I free (it, some a, false) = some (it', some a, true)
      ∧ it'.held = a :: it.held ∧ FirstPass it' l := by
  have htries := h.untried a (List.mem_cons_self ..)
  refine ⟨(it.tried a).lock a, ?_, rfl, ?_⟩
  · unfold QueingArcIt.probe QueingArcIt.tryLock
    simp only [Option.map_some, htries, hfree, if_true]
  · refine ⟨h.sentinel, h.first, ?_⟩
    intro c hc
    have hca : c ≠ a := fun heq => hnew (heq ▸ hc)
    show Function.update it.tries a _ c = 0
    rw [Function.update_of_ne hca]
    exact h.untried c (List.mem_cons_of_mem _ hc)

variable (free) in
/-- The loop of `operator ++` stops at the first free arc, or at the end of
the list. -/
theorem probe_loop {next : Option Nat} {l : List Nat} (hlinked : Linked (g.getNext I) next l) :
    ∀ {it : QueingArcIt} (fuel : Nat), FirstPass it l → l.length ≤ fuel →
      ∃ it' left, Loops.whileLoop (fun x : QueingArcIt × Option Nat × Bool => x.2.1.isSome && !x.2.2)
          (QueingArcIt.probe g I free) fuel (it, next, false)
            = some (it', (fromFree free l).head?, left)
        ∧ it'.held = (fromFree free l).head?.toList ++ it.held
        ∧ (fromFree free l ≠ [] → FirstPass it' (fromFree free l).tail) := by
  have hnodup := hlinked.nodup
  induction l generalizing next with
  | nil =>
      intro it fuel _ _
      obtain rfl : next = none := hlinked
      exact ⟨it, false, Loops.whileLoop_done rfl fuel, rfl, fun hne => absurd rfl hne⟩
  | cons a l ih =>
      intro it fuel h hfuel
      obtain ⟨rfl, hrest⟩ := hlinked
      obtain ⟨hnew, hnodup⟩ := List.nodup_cons.mp hnodup
      rw [List.length_cons] at hfuel
      obtain ⟨fuel, rfl⟩ : ∃ k, fuel = k + 1 := ⟨fuel - 1, by omega⟩
      rw [Loops.whileLoop_step rfl, fromFree_cons]
      cases hfree : free a 0 with
      | true =>
          obtain ⟨it', hprobe, hheld, hfirst⟩ := probe_free (g := g) (I := I) h hfree hnew
          rw [hprobe, Option.bind_some, if_pos rfl]
          exact ⟨it', true, Loops.whileLoop_done rfl fuel, hheld, fun _ => hfirst⟩
      | false =>
          rw [if_neg (by simp)]
          cases l with
          | nil =>
              obtain ⟨it', hprobe, hheld⟩ := probe_busy_last h hfree hrest
              rw [hprobe, Option.bind_some]
              exact ⟨it', false, Loops.whileLoop_done rfl fuel, hheld, fun hne => absurd rfl hne⟩
          | cons b l =>
              obtain ⟨it', hprobe, hheld, hfirst⟩ := probe_busy h hfree hrest.1 hnew
              rw [hprobe, Option.bind_some]
              obtain ⟨it'', left, hloop, hheld', hfirst'⟩ :=
                ih ⟨rfl, hrest.2⟩ hnodup fuel hfirst (by omega)
              exact ⟨it'', left, hloop, by rw [hheld', hheld], hfirst'⟩

end Step

-- =========================================================== iterating

section Iterate

variable {g : Tree A N} {I : ItType} {free : Nat → Nat → Bool}

theorem filter_fromFree (l : List Nat) :
    (fromFree free l).filter (fun a => free a 0) = l.filter fun a => free a 0 := by
  induction l with
  | nil => rfl
  | cons a l ih =>
      rw [fromFree_cons]
      cases hfree : free a 0 with
      | true => rw [if_pos rfl]
      | false => rw [if_neg (by simp), ih, List.filter_cons_of_neg (by simp [hfree])]

theorem head_fromFree {l rest : List Nat} {a : Nat} (h : fromFree free l = a :: rest) :
    free a 0 = true := by
  induction l with
  | nil => exact absurd h (by simp [fromFree])
  | cons b l ih =>
      rw [fromFree_cons] at h
      cases hfree : free b 0 with
      | true =>
          rw [hfree, if_pos rfl] at h
          rw [← (List.cons.inj h).1, hfree]
      | false =>
          rw [hfree, if_neg (by simp)] at h
          exact ih h

/-- An iterator that stands on an arc goes on to the free ones behind
it. -/
theorem iterate_loop (F : Nat) : ∀ {l : List Nat} (it : QueingArcIt) {a : Nat} (fuel : Nat)
    (seen : List (Nat × List Nat)), Linked (g.getNext I) (g.getNext I a) l → FirstPass it l →
    it.arc = some a → it.held = [a] → l.length ≤ F → l.length < fuel →
      ∃ it' visits, Loops.whileLoop
          (fun x : QueingArcIt × List (Nat × List Nat) => x.1.arc.isSome)
          (fun x => x.1.arc.bind fun a =>
            (x.1.increment g I free F).map fun it => (it, x.2 ++ [(a, x.1.held)])) fuel (it, seen)
            = some (it', seen ++ visits)
        ∧ visits.map Prod.fst = a :: l.filter (fun b => free b 0)
        ∧ (∀ v ∈ visits, v.1 ∈ v.2) ∧ it'.held = [] := by
  intro l
  induction hn : l.length using Nat.strongRecOn generalizing l with
  | _ n ih =>
      intro it a fuel seen hlinked hfirst harc hheld hF hfuel
      obtain ⟨fuel, rfl⟩ : ∃ k, fuel = k + 1 := ⟨fuel - 1, by omega⟩
      have hfirst' : FirstPass (it.unlock a) l := ⟨hfirst.sentinel, hfirst.first, hfirst.untried⟩
      obtain ⟨it₁, left, hloop, hheld₁, hpass₁⟩ := probe_loop free hlinked F hfirst'
        (by omega)
      have hincr : it.increment g I free F
          = some { it₁ with arc := (fromFree free l).head? } := by
        unfold QueingArcIt.increment
        rw [harc, Option.bind_some, hloop, Option.map_some]
      have hunlocked : (it.unlock a).held = [] := by
        show it.held.erase a = []
        rw [hheld, List.erase_cons_head]
      rw [hunlocked, List.append_nil] at hheld₁
      rw [Loops.whileLoop_step (by rw [harc]; rfl), harc, Option.bind_some, hincr, Option.map_some,
        Option.bind_some, hheld]
      cases hrest : fromFree free l with
      | nil =>
          rw [hrest] at hheld₁
          refine ⟨{ it₁ with arc := none }, [(a, [a])], ?_, ?_, ?_, hheld₁⟩
          · exact Loops.whileLoop_done rfl fuel
          · rw [← filter_fromFree, hrest]
            rfl
          · intro v hv
            rw [List.mem_singleton.mp hv]
            exact List.mem_singleton_self a
      | cons b rest =>
          have hsuffix := fromFree_suffix free l
          rw [hrest] at hsuffix hheld₁ hpass₁
          obtain ⟨skipped, rfl⟩ := hsuffix
          have hlen : rest.length < n := by
            rw [← hn, List.length_append, List.length_cons]
            omega
          have hbehind : Linked (g.getNext I) (g.getNext I b) rest := hlinked.suffix.2
          have hpass : FirstPass { it₁ with arc := some b } rest :=
            ⟨(hpass₁ (by simp)).sentinel, (hpass₁ (by simp)).first, (hpass₁ (by simp)).untried⟩
          obtain ⟨it₂, visits, hrun, hvisits, hlocked, hend⟩ :=
            ih rest.length hlen rfl { it₁ with arc := some b } fuel (seen ++ [(a, [a])]) hbehind
              hpass rfl hheld₁ (by omega) (by omega)
          refine ⟨it₂, (a, [a]) :: visits, ?_, ?_, ?_, hend⟩
          · rw [show seen ++ (a, [a]) :: visits = seen ++ [(a, [a])] ++ visits by simp]
            exact hrun
          · have hfilter : (skipped ++ b :: rest).filter (fun c => free c 0)
                = b :: rest.filter fun c => free c 0 := by
              rw [← filter_fromFree, hrest,
                List.filter_cons_of_pos (by exact head_fromFree hrest)]
            rw [List.map_cons, hvisits, hfilter]
          · intro v hv
            rcases List.mem_cons.mp hv with hv | hv
            · rw [hv]
              exact List.mem_singleton_self a
            · exact hlocked v hv

variable (free) in
/-- An iteration stands on the first arc, and then on those whose lock is
free when it comes by. -/
theorem iterate_spec {n : Nat} {l : List Nat} (hlinked : Linked (g.getNext I) (g.head I n) l)
    {fuel : Nat} (hfuel : l.length ≤ fuel) :
    ∃ it visits, QueingArcIt.iterate g I free n fuel = some (it, visits)
      ∧ visits.map Prod.fst = l.take 1 ++ l.tail.filter (fun b => free b 0)
      ∧ (∀ v ∈ visits, v.1 ∈ v.2) ∧ it.held = [] := by
  cases l with
  | nil =>
      have hhead : g.head I n = none := hlinked
      have hnew : (QueingArcIt.construct g I n).arc = none
          ∧ (QueingArcIt.construct g I n).held = [] := by
        unfold QueingArcIt.construct
        simp [QueingArcIt.queuePush, hhead]
      refine ⟨QueingArcIt.construct g I n, [], ?_, rfl, ?_, hnew.2⟩
      · unfold QueingArcIt.iterate
        exact Loops.whileLoop_done (by rw [hnew.1]; rfl) fuel
      · intro v hv
        exact absurd hv List.not_mem_nil
  | cons a l =>
      obtain ⟨hhead, hrest⟩ := hlinked
      have hnew : (QueingArcIt.construct g I n).arc = some a
          ∧ (QueingArcIt.construct g I n).held = [a]
          ∧ FirstPass (QueingArcIt.construct g I n) l := by
        unfold QueingArcIt.construct
        simp only [QueingArcIt.queuePush, hhead]
        exact ⟨rfl, rfl, rfl, rfl, fun _ _ => rfl⟩
      rw [List.length_cons] at hfuel
      obtain ⟨it, visits, hrun, hvisits, hlocked, hend⟩ :=
        iterate_loop fuel _ fuel [] hrest hnew.2.2 hnew.1 hnew.2.1
          (by omega) (by omega)
      exact ⟨it, visits, hrun, hvisits, hlocked, hend⟩

/-- The lists of a tree hold the arcs that they should. -/
theorem Wired.linked (h : Wired g) (I : ItType) {n : Nat} (hn : n < g.nodeNum) :
    Linked (g.getNext I) (g.head I n) (g.listArcs I n) := by
  cases I with
  | ins => exact (h.ins hn).linked
  | outs => exact (h.outs hn).linked

/-- Every arc is visited exactly when none behind the first is busy. -/
theorem Wired.visitsOnce (h : Wired g) (I : ItType) (free : Nat → Nat → Bool) {n : Nat}
    (hn : n < g.nodeNum) :
    VisitsOnce g I free n ↔ ∀ a ∈ (g.listArcs I n).tail, free a 0 = true := by
  have hlinked := h.linked I hn
  have hsplit : g.listArcs I n = (g.listArcs I n).take 1 ++ (g.listArcs I n).tail := by
    rw [← List.drop_one, List.take_append_drop]
  constructor
  · intro hvisits
    obtain ⟨enough, hall⟩ := hvisits
    obtain ⟨it, visits, hrun, hperm, -, -⟩ :=
      hall (max enough (g.listArcs I n).length) (Nat.le_max_left ..)
    obtain ⟨it', visits', hrun', hfirst, -, -⟩ :=
      iterate_spec free hlinked (Nat.le_max_right enough (g.listArcs I n).length)
    -- the visits are those of the free arcs, and so many only if all are free
    obtain ⟨rfl, rfl⟩ := Prod.mk.inj (Option.some.inj (hrun.symm.trans hrun'))
    have hlen := hperm.length_eq
    rw [hfirst] at hlen
    have hsum := congrArg List.length hsplit
    rw [List.length_append] at hlen hsum
    exact List.length_filter_eq_length_iff.mp (by omega)
  · intro hfree
    refine ⟨(g.listArcs I n).length, fun fuel hfuel => ?_⟩
    obtain ⟨it, visits, hrun, hfirst, hlocked, hend⟩ := iterate_spec free hlinked hfuel
    refine ⟨it, visits, hrun, ?_, hlocked, hend⟩
    rw [hfirst, List.filter_eq_self.mpr hfree, ← hsplit]

end Iterate

-- ========================================================== the result

/-- In a tree built by its operations, the queueing iterator visits the
arcs of a node once each exactly when every `tryLock` behind the first arc
succeeds at once. -/
theorem visitsOnce_iff [Inhabited A] [Inhabited N] {ops : List (Op A N)}
    (hv : ValidRun (new : Tree A N) ops) :
    ∃ g, (new : Tree A N).run ops = some g ∧ ∀ (I : ItType) (free : Nat → Nat → Bool) (n : Nat),
      n < g.nodeNum →
        Linked (g.getNext I) (g.head I n) (g.listArcs I n)
          ∧ (VisitsOnce g I free n ↔ ∀ a ∈ (g.listArcs I n).tail, free a 0 = true) := by
  obtain ⟨g, hrun, hwired, -⟩ := wired_new.run hv
  exact ⟨g, hrun, fun I free n hn => ⟨hwired.linked I hn, hwired.visitsOnce I free hn⟩⟩

/-- The root and two children. -/
def twoChildren : List (Op Unit Unit) := [.addNode 0 () (), .addNode 0 () ()]

theorem twoChildren_valid : ValidRun (new : Tree Unit Unit) twoChildren := by
  refine ⟨Nat.one_pos, fun g hg => ⟨?_, fun _ _ => trivial⟩⟩
  obtain rfl := Option.some.inj hg
  exact Nat.succ_pos 1

theorem visitsOnce_iff_twoChildren :
    ∃ g, (new : Tree Unit Unit).run twoChildren = some g
      ∧ ∀ (I : ItType) (free : Nat → Nat → Bool) (n : Nat), n < g.nodeNum →
        Linked (g.getNext I) (g.head I n) (g.listArcs I n)
          ∧ (VisitsOnce g I free n ↔ ∀ a ∈ (g.listArcs I n).tail, free a 0 = true) :=
  visitsOnce_iff twoChildren_valid

/-- The arc to the second child is busy the first time. -/
def busyOnce (a k : Nat) : Bool := a != 2 || k != 0

/-- It is free from then on, but the iterator ends without it. -/
theorem busyOnce_dropped :
    ValidRun (new : Tree Unit Unit) twoChildren
      ∧ (∀ a, ∃ k, ∀ k', k ≤ k' → busyOnce a k' = true)
      ∧ ∃ g, (new : Tree Unit Unit).run twoChildren = some g ∧ ¬ VisitsOnce g .outs busyOnce 0
        ∧ (QueingArcIt.iterate g .outs busyOnce 0 2).map Prod.snd = some [(1, [1])]
        ∧ (QueingArcIt.iterate g .outs busyOnce 0 2).map (fun x => x.1.queue)
          = some [some 2] := by
  refine ⟨twoChildren_valid, fun a => ⟨1, fun k' hk => ?_⟩, ?_⟩
  · unfold busyOnce
    simp
    omega
  · obtain ⟨g, hrun, hwired, -⟩ := wired_new.run twoChildren_valid
    obtain rfl := Option.some.inj hrun
    refine ⟨_, rfl, fun hvisits => ?_, rfl, rfl⟩
    have hfree := (hwired.visitsOnce .outs busyOnce (n := 0) (by decide)).mp hvisits 2 (by decide)
    exact absurd hfree (by decide)

end MctsConnectFour.Digraph.Tree
