/-
No addition to the older tree is lost when several threads add to it.

`World.Inv` is the invariant of the steps of all threads, `Listed` with the
locks that the threads hold. What has been begun is in the arena from then
on, the `k`-th addition as the `k`-th arc after those of the tree they
started from (`Booked`). When all threads are done the lists thread these
arcs, each once (`adds_complete`).

Nobody waits for ever: who waits for a node holds nothing, who waits for an
arc holds a node only, and who holds an arc does not wait. So some thread
can get on, and every step leaves less to do (`adds_progress`).
-/
import MctsConnectFour.Digraph.Concurrent

namespace MctsConnectFour.Digraph.Tree

open Chain (Threaded)

variable {A N : Type} {g g' : Tree A N} {I J : ItType} {a b c n k : Nat}

namespace World

variable {τ : Type} {w w' : World τ A N} {i : τ}

-- =========================================================== invariant

/-- The invariant of the steps of all threads. -/
structure Inv (w : World τ A N) : Prop where
  nodes : Locks.Tracks Thread.HoldsNode w.nodeLock w.thread
  arcs : Locks.Tracks Thread.HoldsArc w.arcLock w.thread
  held_lt : ∀ {i b}, (w.thread i).HoldsArc b → b < w.tree.arcNum
  zero : 0 < w.tree.arcNum
  listed : ∃ L E, Listed w.tree w.thread L E

/-- Nobody has begun. -/
theorem inv_start (h : Wired g) : (start g : World τ A N).Inv := by
  have hnone : ∀ I a, ¬ Pending (start g : World τ A N).thread I a := by
    intro I a ha
    exact ha.choose_spec
  refine ⟨fun l j => ?_, fun l j => ?_, fun hb => hb.elim, h.root.1, g.listArcs,
    fun I a => if a < g.arcNum then (if I = .ins then g.home a else g.source a) else none, ?_⟩
  · exact iff_of_false (by simp [start]) id
  · exact iff_of_false (by simp [start]) id
  constructor
  case mem =>
    intro I n a
    rw [and_iff_left (hnone I a)]
    cases I with
    | ins => simp [listArcs, mem_inArcs]
    | outs => simp [listArcs, mem_outArcs]
  case lt =>
    intro I n a ha
    split at ha
    · rename_i hlt
      refine ⟨hlt, ?_⟩
      cases I with
      | ins =>
          by_contra hn
          have hmem : a ∈ g.inArcs n := mem_inArcs.mpr ⟨hlt, ha⟩
          rw [h.inArcs_new (Nat.le_of_not_lt hn)] at hmem
          cases hmem
      | outs =>
          by_contra hn
          have hmem : a ∈ g.outArcs n := mem_outArcs.mpr ⟨hlt, ha⟩
          rw [h.outArcs_new (Nat.le_of_not_lt hn)] at hmem
          cases hmem
    · cases ha
  case ends => exact fun ha => by cases ha
  case own => exact fun ha => by cases ha
  case pos => exact fun ha => by cases ha
  case settled =>
    intro a ha _
    exact ⟨if_pos ha, if_pos ha⟩
  case fresh => exact fun ha => absurd ha (hnone _ _)
  case some_in => exact h.some_in
  case threaded =>
    intro I n hn _
    cases I with
    | ins => exact h.ins hn
    | outs => exact h.outs hn
  case at' => exact fun _ => trivial

/-- The thread that is about an addition is the only one. -/
theorem Inv.unset_unique (h : w.Inv) {j : τ} (hi : (w.thread i).Unset a)
    (hj : (w.thread j).Unset a) : j = i := by
  obtain ⟨L, E, hlisted⟩ := h.listed
  exact hlisted.own hj.arc hi.arc

theorem Inv.unset_lt (h : w.Inv) (hi : (w.thread i).Unset a) : a < w.tree.arcNum := by
  obtain ⟨L, E, hlisted⟩ := h.listed
  exact (hlisted.pos hi.arc).2

/-- An arc is on the list of the node that it names when nobody is about
to add. -/
theorem Inv.lists (h : w.Inv) (hidle : ∀ i, w.thread i = .idle) {n : Nat}
    (hn : n < w.tree.nodeNum) : ∃ ins outs : List Nat,
      ins.Perm (w.tree.inArcs n) ∧ outs.Perm (w.tree.outArcs n)
      ∧ Threaded w.tree.nextIn (w.tree.headIn n) (w.tree.tailIn n) ins
      ∧ Threaded w.tree.nextOut (w.tree.headOut n) (w.tree.tailOut n) outs := by
  obtain ⟨L, E, hlisted⟩ := h.listed
  have hpending : ∀ I a, ¬ Pending w.thread I a := by
    intro I a ha
    obtain ⟨i, hi⟩ := ha
    rw [hidle i] at hi
    exact hi
  have hsettled : ∀ {a}, a < w.tree.arcNum →
      E .ins a = w.tree.home a ∧ E .outs a = w.tree.source a :=
    fun ha => hlisted.settled ha fun i => by rw [hidle i]; exact id
  have hthreaded : ∀ I, Threaded (w.tree.getNext I) (w.tree.head I n) (w.tree.tail I n) (L I n) :=
    fun I => hlisted.threaded hn fun i => by rw [hidle i]; exact id
  have hmem : ∀ {I a}, a ∈ L I n ↔ a < w.tree.arcNum ∧ E I a = some n := by
    intro I a
    rw [hlisted.mem, and_iff_left (hpending I a)]
    exact ⟨fun ha => ⟨(hlisted.lt ha).1, ha⟩, And.right⟩
  refine ⟨L .ins n, L .outs n, ?_, ?_, hthreaded .ins, hthreaded .outs⟩
  · refine (List.perm_ext_iff_of_nodup (hthreaded .ins).linked.nodup
      (List.nodup_range.filter _)).mpr fun a => hmem.trans (Iff.trans ?_ mem_inArcs.symm)
    exact and_congr_right fun ha => by rw [(hsettled ha).1]
  · refine (List.perm_ext_iff_of_nodup (hthreaded .outs).linked.nodup
      (List.nodup_range.filter _)).mpr fun a => hmem.trans (Iff.trans ?_ mem_outArcs.symm)
    exact and_congr_right fun ha => by rw [(hsettled ha).2]

-- ============================================================ contents

/-- The arcs and the nodes say what they have said. -/
structure SameContent (g g' : Tree A N) : Prop where
  nums : g'.arcNum = g.arcNum ∧ g'.nodeNum = g.nodeNum
  ends : ∀ c, g'.source c = g.source c ∧ g'.target c = g.target c
  data : ∀ c, g'.arcData c = g.arcData c
  nodes : ∀ k, g'.nodeData k = g.nodeData k ∧ g'.headIn k = g.headIn k

theorem sameContent_setNext : SameContent g (g.setNext I b a) :=
  ⟨⟨arcNum_setNext, rfl⟩, fun c => ⟨source_setNext c, target_setNext c⟩, arcData_setNext,
    fun _ => ⟨rfl, rfl⟩⟩

theorem sameContent_setTail : SameContent g (g.setTail I n a) :=
  ⟨⟨rfl, nodeNum_setTail⟩, fun _ => ⟨rfl, rfl⟩, fun _ => rfl,
    fun k => ⟨nodeData_setTail k, head_setTail .ins k⟩⟩

theorem sameContent_setHeadOut : SameContent g (g.setHeadOut n a) :=
  ⟨⟨rfl, nodeNum_setHeadOut⟩, fun _ => ⟨rfl, rfl⟩, fun _ => rfl,
    fun k => ⟨nodeData_setHeadOut k, bind_modify _ k fun _ => rfl⟩⟩

theorem SameContent.refl : SameContent g g :=
  ⟨⟨rfl, rfl⟩, fun _ => ⟨rfl, rfl⟩, fun _ => rfl, fun _ => ⟨rfl, rfl⟩⟩

/-- An append changes links only. -/
theorem goAppend_content {byNode : Bool} {pc : Pc} {y : World τ A N × Pc}
    (hgo : w.goAppend i byNode I n a pc = some y) :
    SameContent w.tree y.1.tree ∧ y.1.thread = w.thread := by
  cases pc with
  | node =>
      obtain ⟨w₁, hlock, rfl⟩ := Option.map_eq_some_iff.mp hgo
      obtain ⟨-, rfl⟩ := lockNode_eq_some.mp hlock
      exact ⟨.refl, rfl⟩
  | ends =>
      rw [World.goAppend] at hgo
      split at hgo
      · obtain rfl := Option.some.inj hgo
        exact ⟨.refl, rfl⟩
      · obtain ⟨b, -, rfl⟩ := Option.map_eq_some_iff.mp hgo
        exact ⟨.refl, rfl⟩
  | tail b =>
      obtain ⟨w₁, hlock, rfl⟩ := Option.map_eq_some_iff.mp hgo
      obtain ⟨-, rfl⟩ := lockArc_eq_some.mp hlock
      exact ⟨.refl, rfl⟩
  | next b =>
      obtain ⟨b', -, rfl⟩ := Option.map_eq_some_iff.mp hgo
      exact ⟨sameContent_setNext, rfl⟩
  | last b =>
      obtain rfl := Option.some.inj hgo
      exact ⟨sameContent_setTail, rfl⟩
  | unlockArc b =>
      obtain rfl := Option.some.inj hgo
      exact ⟨.refl, rfl⟩
  | first =>
      obtain rfl := Option.some.inj hgo
      cases byNode with
      | true => exact ⟨sameContent_setHeadOut, rfl⟩
      | false => exact ⟨sameContent_setTail, rfl⟩
  | second =>
      obtain rfl := Option.some.inj hgo
      cases byNode with
      | true => exact ⟨sameContent_setTail, rfl⟩
      | false => exact ⟨sameContent_setHeadOut, rfl⟩
  | unlockNode => cases hgo

/-- An addition is there: as the arc `a`, and as a node after the first
`m`, if there is a node to it. -/
def Recorded (g : Tree A N) (m a : Nat) : Add A N → Prop
  | .arc s t d => g.source a = some s ∧ g.target a = some t ∧ g.arcData a = some d
  | .node s d e _ _ => g.source a = some s ∧ g.arcData a = some d ∧ ∃ t, g.target a = some t
      ∧ m ≤ t ∧ g.headIn t = some a ∧ g.nodeData t = some e

/-- An addition is there, or a thread is about it. -/
def Recording (w : World τ A N) (m a : Nat) : Add A N → Prop
  | .arc s t d => Recorded w.tree m a (.arc s t d) ∧ ∀ i, ¬ (w.thread i).Unset a
  | .node s d e o o' => Recorded w.tree m a (.node s d e o o') ∧ (∀ i, ¬ (w.thread i).Unset a)
      ∨ w.tree.arcData a = some d ∧ ∃ i, w.thread i = .makeNode s a e
        ∨ ∃ t, w.thread i = .setEnds s t a ∧ m ≤ t ∧ w.tree.headIn t = some a
          ∧ w.tree.nodeData t = some e

theorem lt_of_nodeData {e : N} (h : g.nodeData k = some e) : k < g.nodeNum := by
  by_contra hk
  rw [nodeData, List.getElem?_eq_none (Nat.le_of_not_lt hk)] at h
  cases h

/-- What is there stays when nothing that it says is changed. -/
theorem Recorded.congr {m : Nat} {x : Add A N} (h : Recorded g m a x)
    (hends : g'.source a = g.source a ∧ g'.target a = g.target a)
    (hdata : g'.arcData a = g.arcData a)
    (hnodes : ∀ k, k < g.nodeNum → g'.nodeData k = g.nodeData k ∧ g'.headIn k = g.headIn k) :
    Recorded g' m a x := by
  cases x with
  | arc s t d => exact ⟨hends.1.trans h.1, hends.2.trans h.2.1, hdata.trans h.2.2⟩
  | node s d e o o' =>
      obtain ⟨hsource, hd, t, ht, hmt, hhead, he⟩ := h
      obtain ⟨hdata', hhead'⟩ := hnodes t (lt_of_nodeData he)
      exact ⟨hends.1.trans hsource, hdata.trans hd, t, hends.2.trans ht, hmt, hhead'.trans hhead,
        hdata'.trans he⟩

/-- A step of a thread changes nothing of the arcs that are there, but for
the ends of an arc that it has to set. -/
structure Keeps (w : World τ A N) (i : τ) (w' : World τ A N) : Prop where
  nodes : w.tree.nodeNum ≤ w'.tree.nodeNum
  ends : ∀ c, c < w.tree.arcNum → ¬ (w.thread i).Unset c →
    w'.tree.source c = w.tree.source c ∧ w'.tree.target c = w.tree.target c
  data : ∀ c, c < w.tree.arcNum → w'.tree.arcData c = w.tree.arcData c
  node : ∀ k, k < w.tree.nodeNum →
    w'.tree.nodeData k = w.tree.nodeData k ∧ w'.tree.headIn k = w.tree.headIn k
  other : ∀ j, j ≠ i → w'.thread j = w.thread j
  unset : ∀ c, c < w.tree.arcNum → (w'.thread i).Unset c → (w.thread i).Unset c

/-- An arc that nobody has to set stays so. -/
theorem Keeps.settled (h : Keeps w i w') (ha : a < w.tree.arcNum)
    (hset : ∀ j, ¬ (w.thread j).Unset a) (j : τ) : ¬ (w'.thread j).Unset a := by
  by_cases hji : j = i
  · subst hji
    exact fun hj => hset j (h.unset a ha hj)
  · rw [h.other j hji]
    exact hset j

/-- An addition stays there or under way if the thread is not about it. -/
theorem Keeps.recording (h : Keeps w i w') {m : Nat} {x : Add A N}
    (ha : a < w.tree.arcNum) (hi : ¬ (w.thread i).Unset a) (hrec : Recording w m a x) :
    Recording w' m a x := by
  cases x with
  | arc s t d =>
      exact ⟨hrec.1.congr (h.ends a ha hi) (h.data a ha) h.node, h.settled ha hrec.2⟩
  | node s d e o o' =>
      rcases hrec with ⟨hrec, hset⟩ | ⟨hd, j, hj⟩
      · exact Or.inl ⟨hrec.congr (h.ends a ha hi) (h.data a ha) h.node, h.settled ha hset⟩
      · have hji : j ≠ i := by
          intro hji
          apply hi
          rw [← hji]
          rcases hj with hj | ⟨t, hj, -⟩
          · rw [hj]
            exact rfl
          · rw [hj]
            exact rfl
        refine Or.inr ⟨(h.data a ha).trans hd, j, ?_⟩
        rw [h.other j hji]
        rcases hj with hj | ⟨t, hj, hmt, hhead, he⟩
        · exact Or.inl hj
        · obtain ⟨hdata', hhead'⟩ := h.node t (lt_of_nodeData he)
          exact Or.inr ⟨t, hj, hmt, hhead'.trans hhead, hdata'.trans he⟩

/-- The arena holds the arcs of the tree at the start, as they were, and
then the additions in the order in which they have been begun. -/
structure Booked (g₀ : Tree A N) (xs : List (Add A N)) (w : World τ A N) : Prop where
  arcs : w.tree.arcNum = g₀.arcNum + xs.length
  nodes : g₀.nodeNum ≤ w.tree.nodeNum
  old : ∀ b, b < g₀.arcNum → (w.tree.source b = g₀.source b ∧ w.tree.target b = g₀.target b
    ∧ w.tree.arcData b = g₀.arcData b) ∧ ∀ i, ¬ (w.thread i).Unset b
  new : ∀ k x, xs[k]? = some x → Recording w g₀.nodeNum (g₀.arcNum + k) x

/-- The arcs of the tree at the start are let alone. -/
theorem Booked.old_keeps {g₀ : Tree A N} {xs : List (Add A N)} (h : Booked g₀ xs w)
    (hkeeps : Keeps w i w') (hb : b < g₀.arcNum) :
    (w'.tree.source b = g₀.source b ∧ w'.tree.target b = g₀.target b
      ∧ w'.tree.arcData b = g₀.arcData b) ∧ ∀ i, ¬ (w'.thread i).Unset b := by
  obtain ⟨⟨hsource, htarget, hdata⟩, hset⟩ := h.old b hb
  have hlt : b < w.tree.arcNum := by
    have := h.arcs
    omega
  obtain ⟨hsource', htarget'⟩ := hkeeps.ends b hlt (hset i)
  exact ⟨⟨hsource'.trans hsource, htarget'.trans htarget, (hkeeps.data b hlt).trans hdata⟩,
    hkeeps.settled hlt hset⟩

-- =============================================================== steps

variable [DecidableEq τ]

/-- An arc that a thread comes to hold exists. -/
theorem held_update {th : τ → Thread N} {x : Thread N} {m : Nat}
    (h : ∀ {j b}, (th j).HoldsArc b → b < m) (hx : ∀ b, x.HoldsArc b → b < m) {j : τ} {b : Nat}
    (hj : (Function.update th i x j).HoldsArc b) : b < m := by
  by_cases hji : j = i
  · rw [hji, Function.update_self] at hj
    exact hx b hj
  · rw [Function.update_of_ne hji] at hj
    exact h hj

/-- A thread gets on along its append without a write. -/
theorem Inv.along (h : w.Inv) {byNode : Bool} {s t : Nat} {pc pc' : Pc}
    {nodeLock arcLock : Nat → Option τ} (hi : w.thread i = .append byNode I s t a pc)
    (hnodes : Locks.Tracks Thread.HoldsNode nodeLock
      (Function.update w.thread i (.append byNode I s t a pc')))
    (harcs : Locks.Tracks Thread.HoldsArc arcLock
      (Function.update w.thread i (.append byNode I s t a pc')))
    (hheld : ∀ b, (.append byNode I s t a pc' : Thread N).HoldsArc b → b < w.tree.arcNum)
    (hpends : pc'.Pends ↔ pc.Pends)
    (hwrites : ∀ J k, ¬ (.append byNode I s t a pc : Thread N).Writes J k)
    (hat : ∀ L E, Listed w.tree w.thread L E →
      (.append byNode I s t a pc' : Thread N).At w.tree L) :
    Inv ⟨w.tree, nodeLock, arcLock, Function.update w.thread i (.append byNode I s t a pc')⟩ := by
  obtain ⟨L, E, hlisted⟩ := h.listed
  refine ⟨hnodes, harcs, held_update h.held_lt hheld, h.zero, L, E,
    hlisted.move i (fun J c => ?_) (fun c => ?_) (fun c hc => ?_) (fun J k => ?_) (hat L E hlisted)⟩
  all_goals rw [hi]
  · exact Thread.pends_same hpends J c
  · exact Iff.rfl
  · exact ⟨hc, fun _ => rfl⟩
  · exact hwrites J k

/-- A thread appends. -/
theorem Inv.goAppend (h : w.Inv) {byNode : Bool} {s t : Nat} {pc : Pc}
    (hi : w.thread i = .append byNode I s t a pc) {y : World τ A N × Pc}
    (hgo : w.goAppend i byNode I (I.endOf s t) a pc = some y) :
    (y.1.goTo i (.append byNode I s t a y.2)).Inv := by
  have hnodes : ∀ {pc'}, pc ≠ .node → pc' ≠ .node → Locks.Tracks Thread.HoldsNode w.nodeLock
      (Function.update w.thread i (.append byNode I s t a pc')) := by
    intro pc' hpc hpc'
    refine h.nodes.stay fun m => ?_
    rw [hi]
    simp [Thread.HoldsNode, hpc, hpc']
  have harcs : ∀ {pc'}, (∀ m, (.append byNode I s t a pc' : Thread N).HoldsArc m
      ↔ (.append byNode I s t a pc : Thread N).HoldsArc m) → Locks.Tracks Thread.HoldsArc w.arcLock
        (Function.update w.thread i (.append byNode I s t a pc')) := by
    intro pc' hsame
    refine h.arcs.stay fun m => ?_
    rw [hi]
    exact hsame m
  cases pc with
  | node =>
      obtain ⟨w₁, hlock, rfl⟩ := Option.map_eq_some_iff.mp hgo
      obtain ⟨hfree, rfl⟩ := lockNode_eq_some.mp hlock
      refine h.along hi (h.nodes.acquire hfree fun m => ?_) (harcs fun _ => Iff.rfl)
        (fun b hb => hb.elim) Iff.rfl (fun _ _ hw => hw) fun _ _ _ => trivial
      rw [hi]
      exact ⟨fun hm => Or.inr hm.2, fun hm => ⟨by simp, hm.resolve_left fun h' => h'.1 rfl⟩⟩
  | ends =>
      rw [World.goAppend] at hgo
      by_cases hempty : I = .outs ∧ w.tree.headOut (I.endOf s t) = none
      · rw [if_pos hempty] at hgo
        obtain rfl := Option.some.inj hgo
        refine h.along hi (hnodes (by simp) (by simp)) (harcs fun _ => Iff.rfl)
          (fun b hb => hb.elim) Iff.rfl (fun _ _ hw => hw) fun _ _ _ => ?_
        obtain ⟨rfl, hhead⟩ := hempty
        exact ⟨rfl, hhead⟩
      · rw [if_neg hempty] at hgo
        obtain ⟨b, hb, rfl⟩ := Option.map_eq_some_iff.mp hgo
        exact h.along hi (hnodes (by simp) (by simp)) (harcs fun _ => Iff.rfl)
          (fun b hb => hb.elim) Iff.rfl (fun _ _ hw => hw) fun _ _ _ => hb
  | tail b =>
      obtain ⟨w₁, hlock, rfl⟩ := Option.map_eq_some_iff.mp hgo
      obtain ⟨hfree, rfl⟩ := lockArc_eq_some.mp hlock
      refine h.along hi (hnodes (by simp) (by simp)) (h.arcs.acquire hfree fun m => ?_)
        (fun c hc => ?_) Iff.rfl (fun _ _ hw => hw) fun L E hlisted => ?_
      · rw [hi]
        exact ⟨Or.inr, fun hm => hm.resolve_left id⟩
      · obtain rfl := hc
        obtain ⟨L, E, hlisted⟩ := h.listed
        have hat := hlisted.at' i
        rw [hi] at hat
        have hold := hlisted.held h.nodes (holdsNode_of_ne hi (by simp))
          (fun J hw => by rw [hi] at hw; exact hw) (hlisted.endOf_lt hi).2 I
        exact hlisted.mem_lt (List.mem_of_getLast? (hold.tail.symm.trans hat))
      · have hat := hlisted.at' i
        rw [hi] at hat
        exact hat
  | next b =>
      obtain ⟨L, E, hlisted⟩ := h.listed
      obtain ⟨htail, hlisted'⟩ := hlisted.next h.nodes hi
      rw [World.goAppend, htail] at hgo
      obtain rfl := Option.some.inj hgo
      refine ⟨hnodes (by simp) (by simp), harcs fun _ => Iff.rfl, ?_, ?_, _, _, hlisted'⟩
      · intro j c hc
        refine (held_update h.held_lt (fun c hc => ?_) hc).trans_eq arcNum_setNext.symm
        exact h.held_lt (i := i) (by rw [hi]; exact hc)
      · exact h.zero.trans_eq arcNum_setNext.symm
  | last b =>
      obtain ⟨L, E, hlisted⟩ := h.listed
      obtain rfl := Option.some.inj hgo
      refine ⟨hnodes (by simp) (by simp), harcs fun _ => Iff.rfl, ?_, h.zero, _, _,
        hlisted.last h.nodes hi⟩
      exact held_update h.held_lt fun c hc => h.held_lt (i := i) (by rw [hi]; exact hc)
  | unlockArc b =>
      obtain rfl := Option.some.inj hgo
      refine h.along hi (hnodes (by simp) (by simp)) (h.arcs.release (i := i) ?_ fun m => ?_)
        (fun b hb => hb.elim) Iff.rfl (fun _ _ hw => hw) fun _ _ _ => trivial
      · rw [hi]
        exact rfl
      · rw [hi]
        exact ⟨False.elim, fun hm => hm.2 hm.1⟩
  | first =>
      obtain ⟨L, E, hlisted⟩ := h.listed
      obtain rfl := Option.some.inj hgo
      have hnum : (if byNode then w.tree.setHeadOut (I.endOf s t) a
          else w.tree.setTail .outs (I.endOf s t) a).arcNum = w.tree.arcNum := by
        cases byNode <;> rfl
      exact ⟨hnodes (by simp) (by simp), harcs fun _ => Iff.rfl,
        fun hb => (held_update h.held_lt (fun c hc => by cases hc) hb).trans_eq hnum.symm,
        h.zero.trans_eq hnum.symm, _, _, hlisted.first h.nodes hi⟩
  | second =>
      obtain ⟨L, E, hlisted⟩ := h.listed
      obtain rfl := Option.some.inj hgo
      have hnum : (if byNode then w.tree.setTail .outs (I.endOf s t) a
          else w.tree.setHeadOut (I.endOf s t) a).arcNum = w.tree.arcNum := by
        cases byNode <;> rfl
      exact ⟨hnodes (by simp) (by simp), harcs fun _ => Iff.rfl,
        fun hb => (held_update h.held_lt (fun c hc => by cases hc) hb).trans_eq hnum.symm,
        h.zero.trans_eq hnum.symm, _, _, hlisted.second h.nodes hi⟩
  | unlockNode => cases hgo

/-- A step of a thread. -/
theorem Inv.go (h : w.Inv) (hgo : w.go i = some w') : w'.Inv := by
  obtain ⟨L, E, hlisted⟩ := h.listed
  cases hi : w.thread i with
  | idle =>
      rw [World.go, hi] at hgo
      cases hgo
  | makeNode s a e =>
      rw [World.go, hi] at hgo
      obtain rfl := Option.some.inj hgo
      refine ⟨h.nodes.stay fun m => ?_, h.arcs.stay fun m => ?_, ?_, h.zero, _, _,
        hlisted.makeNode hi⟩
      · rw [hi]
        exact Iff.rfl
      · rw [hi]
        exact Iff.rfl
      · exact held_update h.held_lt fun c hc => h.held_lt (i := i) (by rw [hi]; exact hc)
  | setEnds s t a =>
      rw [World.go, hi] at hgo
      obtain rfl := Option.some.inj hgo
      refine ⟨h.nodes.stay fun m => ?_, h.arcs.stay fun m => ?_, ?_,
        h.zero.trans_eq (arcNum_setSourceTarget s t).symm, _, _, hlisted.setEnds hi⟩
      · rw [hi]
        exact Iff.rfl
      · rw [hi]
        exact Iff.rfl
      · intro j b hb
        refine (held_update h.held_lt (fun c hc => ?_) hb).trans_eq
          (arcNum_setSourceTarget s t).symm
        exact h.held_lt (i := i) (by rw [hi]; exact hc)
  | unlockNew s t a =>
      rw [World.go, hi] at hgo
      obtain rfl := Option.some.inj hgo
      refine ⟨h.nodes.stay fun m => ?_, h.arcs.release (i := i) (by rw [hi]; exact rfl) fun m => ?_,
        held_update h.held_lt (fun b hb => by cases hb), h.zero, L, E,
        hlisted.move i (fun J c => ?_) (fun c => ?_) (fun c hc => ?_) (fun J k => ?_) trivial⟩
      all_goals rw [hi]
      · exact iff_of_false (fun hm => hm.1 rfl) id
      · exact ⟨False.elim, fun hm => hm.2 hm.1⟩
      · cases J <;> simp [Thread.Pends, Pc.Pends, and_comm]
      · exact Iff.rfl
      · exact ⟨hc, fun _ => rfl⟩
      · exact id
  | append byNode I s t a pc =>
      by_cases hpc : pc = .unlockNode
      · subst hpc
        rw [World.go, hi] at hgo
        obtain rfl := Option.some.inj hgo
        have hholds := holdsNode_of_ne hi (by simp)
        have hreleased : ∀ {x : Thread N}, (∀ m, ¬ x.HoldsNode m) →
            Locks.Tracks Thread.HoldsNode (Function.update w.nodeLock (I.endOf s t) none)
              (Function.update w.thread i x) := by
          intro x hx
          refine h.nodes.release hholds fun m => iff_of_false (hx m) fun hm => hm.2 ?_
          rw [hi] at hm
          exact hm.1.2
        cases I with
        | ins =>
            refine ⟨hreleased fun m hm => hm.1 rfl, h.arcs.stay fun m => ?_,
              held_update h.held_lt (fun b hb => by cases hb), h.zero, L, E,
              hlisted.move i (fun J c => ?_) (fun c => ?_) (fun c hc => ?_) (fun J k => ?_)
                trivial⟩
            all_goals rw [hi]
            · exact Iff.rfl
            · exact Thread.pends_turn id (show Pc.Pends .node from trivial) J c
            · exact Iff.rfl
            · exact ⟨hc, fun _ => rfl⟩
            · exact id
        | outs =>
            refine ⟨hreleased fun m hm => hm, h.arcs.stay fun m => ?_,
              held_update h.held_lt (fun b hb => by cases hb), h.zero, L, E,
              hlisted.move i (fun J c => ?_) (fun c => ?_) (fun c hc => ?_) (fun J k => ?_)
                trivial⟩
            all_goals rw [hi]
            · exact Iff.rfl
            · cases J <;> simp [Thread.Pends, Pc.Pends]
            · exact Iff.rfl
            · cases hc
            · exact id
      · rw [go_append hi hpc] at hgo
        obtain ⟨y, hy, rfl⟩ := Option.map_eq_some_iff.mp hgo
        exact h.goAppend hi hy

/-- A thread begins to add. -/
theorem Inv.begin (h : w.Inv) {x : Add A N} (hx : x.Valid w.tree)
    (hbegin : w.begin i x = some w') : w'.Inv := by
  obtain ⟨L, E, hlisted⟩ := h.listed
  cases x with
  | arc s t d =>
      rw [World.begin] at hbegin
      cases hi : w.thread i with
      | idle =>
          rw [hi] at hbegin
          obtain rfl := Option.some.inj hbegin
          refine ⟨h.nodes.stay fun m => ?_, h.arcs.stay fun m => ?_, ?_, ?_, L, _,
            hlisted.emplaceArc hi rfl rfl h.zero rfl (fun J => ?_) trivial (fun J k hk => ?_)
              fun _ => ⟨rfl, rfl⟩⟩
          · rw [hi]
            exact iff_of_false (fun hm => hm.1 rfl) id
          · rw [hi]
            exact Iff.rfl
          · intro j b hb
            have hlt := held_update h.held_lt (fun b hb => by cases hb) hb
            exact hlt.trans_le (Nat.le_of_lt ((arcNum_emplaceArc _).symm ▸ Nat.lt_succ_self _))
          · exact h.zero.trans ((arcNum_emplaceArc _).symm ▸ Nat.lt_succ_self _)
          · cases J with
            | ins => exact ⟨rfl, Or.inl ⟨rfl, trivial⟩⟩
            | outs => exact ⟨rfl, Or.inr ⟨rfl, rfl⟩⟩
          · obtain rfl := Option.some.inj hk
            cases J with
            | ins => exact hx.2
            | outs => exact hx.1
      | _ =>
          rw [hi] at hbegin
          cases hbegin
  | node s d e oldSource oldTarget =>
      rw [World.begin] at hbegin
      cases hi : w.thread i with
      | idle =>
          rw [hi] at hbegin
          obtain ⟨w₁, hlock, rfl⟩ := Option.map_eq_some_iff.mp hbegin
          obtain ⟨hfree, rfl⟩ := lockArc_eq_some.mp hlock
          refine ⟨h.nodes.stay fun m => ?_, h.arcs.acquire hfree fun m => ?_, ?_, ?_, L, _,
            hlisted.emplaceArc hi rfl rfl h.zero rfl (fun J => rfl) trivial (fun J k hk => ?_)
              fun hunset => absurd rfl hunset⟩
          · rw [hi]
            exact Iff.rfl
          · rw [hi]
            exact ⟨Or.inr, fun hm => hm.resolve_left id⟩
          · intro j b hb
            have hlt : b < w.tree.arcNum + 1 := by
              refine held_update (fun hj => (h.held_lt hj).trans (Nat.lt_succ_self _)) ?_ hb
              intro c hc
              exact hc ▸ Nat.lt_succ_self _
            exact hlt.trans_eq (arcNum_emplaceArc _).symm
          · exact h.zero.trans ((arcNum_emplaceArc _).symm ▸ Nat.lt_succ_self _)
          · cases J with
            | ins => cases hk
            | outs => exact Option.some.inj hk ▸ hx
      | _ =>
          rw [hi] at hbegin
          cases hbegin

/-- A step of a thread, as far as contents go: it makes the node of its
arc, or gives the arc its ends, or is of no account. -/
theorem go_content (hgo : w.go i = some w') :
    (∃ s a e, w.thread i = .makeNode s a e
      ∧ w' = (w.write (w.tree.emplaceNode a e)).goTo i (.setEnds s w.tree.nodeNum a))
    ∨ (∃ s t a, w.thread i = .setEnds s t a
      ∧ w' = (w.write (w.tree.setSourceTarget a s t)).goTo i (.unlockNew s t a))
    ∨ (∀ c, ¬ (w.thread i).Unset c) ∧ SameContent w.tree w'.tree
      ∧ ∃ x : Thread N, (∀ c, ¬ x.Unset c) ∧ w'.thread = Function.update w.thread i x := by
  cases hi : w.thread i with
  | idle =>
      rw [World.go, hi] at hgo
      cases hgo
  | makeNode s a e =>
      rw [World.go, hi] at hgo
      exact Or.inl ⟨s, a, e, rfl, (Option.some.inj hgo).symm⟩
  | setEnds s t a =>
      rw [World.go, hi] at hgo
      exact Or.inr (Or.inl ⟨s, t, a, rfl, (Option.some.inj hgo).symm⟩)
  | unlockNew s t a =>
      rw [World.go, hi] at hgo
      obtain rfl := Option.some.inj hgo
      exact Or.inr (Or.inr ⟨fun _ => id, .refl, _, fun _ => id, rfl⟩)
  | append byNode I s t a pc =>
      refine Or.inr (Or.inr ⟨fun _ => id, ?_⟩)
      by_cases hpc : pc = .unlockNode
      · subst hpc
        rw [World.go, hi] at hgo
        obtain rfl := Option.some.inj hgo
        refine ⟨.refl, _, fun c => ?_, rfl⟩
        cases I <;> exact id
      · rw [go_append hi hpc] at hgo
        obtain ⟨y, hy, rfl⟩ := Option.map_eq_some_iff.mp hgo
        obtain ⟨hsame, hthread⟩ := goAppend_content hy
        exact ⟨hsame, .append byNode I s t a y.2, fun _ => id, by rw [← hthread]; rfl⟩

/-- The thread that has been written. -/
theorem thread_goTo (w : World τ A N) (i : τ) (x : Thread N) : (w.goTo i x).thread i = x :=
  Function.update_self ..

theorem thread_goTo_of_ne (w : World τ A N) {j : τ} (x : Thread N) (hji : j ≠ i) :
    (w.goTo i x).thread j = w.thread j :=
  Function.update_of_ne hji ..

theorem keeps_go (hw : w.Inv) (hgo : w.go i = some w') :
    w'.tree.arcNum = w.tree.arcNum ∧ Keeps w i w' := by
  rcases go_content hgo with ⟨s, b, e, hi, rfl⟩ | ⟨s, t, b, hi, rfl⟩ | ⟨hset, hsame, y, hy, hthread⟩
  · refine ⟨rfl, ?_⟩
    constructor
    case nodes => exact Nat.le_of_lt ((nodeNum_emplaceNode e).symm ▸ Nat.lt_succ_self _)
    case ends => exact fun _ _ _ => ⟨rfl, rfl⟩
    case data => exact fun _ _ => rfl
    case node =>
      exact fun k hk => ⟨(nodeData_emplaceNode e k).trans (if_neg hk.ne),
        (head_emplaceNode e .ins k).trans (if_neg hk.ne)⟩
    case other => exact fun j hji => thread_goTo_of_ne _ _ hji
    case unset =>
      intro c _ hc
      rw [thread_goTo] at hc
      rw [hi]
      exact hc
  · have hb := hw.unset_lt (i := i) (a := b) (by rw [hi]; exact rfl)
    refine ⟨arcNum_setSourceTarget s t, ?_⟩
    constructor
    case nodes => exact Nat.le_refl _
    case ends =>
      intro c _ hc
      have hcb : c ≠ b := by
        intro heq
        apply hc
        rw [hi]
        exact heq
      exact ⟨(source_setSourceTarget hb s t c).trans (if_neg hcb),
        (target_setSourceTarget hb s t c).trans (if_neg hcb)⟩
    case data => exact fun c _ => arcData_setSourceTarget s t c
    case node => exact fun _ _ => ⟨rfl, rfl⟩
    case other => exact fun j hji => thread_goTo_of_ne _ _ hji
    case unset =>
      intro c _ hc
      rw [thread_goTo] at hc
      exact hc.elim
  · refine ⟨hsame.nums.1, ?_⟩
    constructor
    case nodes => exact hsame.nums.2.ge
    case ends => exact fun c _ _ => hsame.ends c
    case data => exact fun c _ => hsame.data c
    case node => exact fun k _ => hsame.nodes k
    case other =>
      intro j hji
      rw [hthread]
      exact Function.update_of_ne hji ..
    case unset =>
      intro c _ hc
      rw [hthread, Function.update_self] at hc
      exact absurd hc (hy c)

/-- A step of a thread leaves an addition there or under way. -/
theorem Recording.go {m : Nat} {x : Add A N} (h : Recording w m a x) (hw : w.Inv)
    (ha : a < w.tree.arcNum) (hm : m ≤ w.tree.nodeNum) (hgo : w.go i = some w') :
    Recording w' m a x := by
  have hkeeps := (keeps_go hw hgo).2
  by_cases hunset : (w.thread i).Unset a
  · cases x with
    | arc s t d => exact absurd hunset (h.2 i)
    | node s d e o o' =>
        rcases h with ⟨-, hset⟩ | ⟨hd, j, hj⟩
        · exact absurd hunset (hset i)
        · rcases hj with hj | ⟨t, hj, hmt, hhead, he⟩
          · -- the node is made now
            obtain rfl := hw.unset_unique hunset (by rw [hj]; exact rfl)
            rw [World.go, hj] at hgo
            obtain rfl := Option.some.inj hgo
            refine Or.inr ⟨hd, j, Or.inr ⟨w.tree.nodeNum, thread_goTo _ _ _, hm, ?_, ?_⟩⟩
            · exact (head_emplaceNode e .ins _).trans (by rw [if_pos rfl, if_pos rfl])
            · exact (nodeData_emplaceNode e _).trans (if_pos rfl)
          · -- the arc is given its ends now
            obtain rfl := hw.unset_unique hunset (by rw [hj]; exact rfl)
            rw [World.go, hj] at hgo
            obtain rfl := Option.some.inj hgo
            refine Or.inl ⟨⟨?_, (arcData_setSourceTarget s t a).trans hd, t, ?_, hmt, hhead, he⟩,
              fun k hk => ?_⟩
            · exact (source_setSourceTarget ha s t a).trans (if_pos rfl)
            · exact (target_setSourceTarget ha s t a).trans (if_pos rfl)
            · by_cases hkj : k = j
              · rw [hkj, thread_goTo] at hk
                exact hk
              · rw [thread_goTo_of_ne _ _ hkj] at hk
                exact hkj (hw.unset_unique hunset hk)
  · exact hkeeps.recording ha hunset h

/-- What a thread begins is under way, as the next arc of the arena. -/
theorem begin_content (hw : w.Inv) {x : Add A N} (hbegin : w.begin i x = some w') (m : Nat) :
    Recording w' m w.tree.arcNum x ∧ w'.tree.arcNum = w.tree.arcNum + 1 ∧ Keeps w i w'
      ∧ ∀ c, ¬ (w.thread i).Unset c := by
  have hkeeps : ∀ {w₁ : World τ A N} {r : ArcType A} {y : Thread N},
      w₁.tree = w.tree.emplaceArc r → w₁.thread = w.thread →
      (∀ c, y.Unset c → c = w.tree.arcNum) → Keeps w i (w₁.goTo i y) := by
    intro w₁ r y htree hthread hy
    constructor
    case nodes =>
      exact Nat.le_of_eq (by rw [show (w₁.goTo i y).tree = w₁.tree from rfl, htree]; rfl)
    case ends =>
      intro c hc _
      rw [show (w₁.goTo i y).tree = w₁.tree from rfl, htree]
      exact ⟨(source_emplaceArc r c).trans (if_neg hc.ne),
        (target_emplaceArc r c).trans (if_neg hc.ne)⟩
    case data =>
      intro c hc
      rw [show (w₁.goTo i y).tree = w₁.tree from rfl, htree]
      exact (arcData_emplaceArc r c).trans (if_neg hc.ne)
    case node =>
      intro k _
      rw [show (w₁.goTo i y).tree = w₁.tree from rfl, htree]
      exact ⟨rfl, rfl⟩
    case other =>
      intro j hji
      rw [thread_goTo_of_ne _ _ hji, hthread]
    case unset =>
      intro c hc hyc
      rw [thread_goTo] at hyc
      exact absurd (hy c hyc) hc.ne
  cases x with
  | arc s t d =>
      rw [World.begin] at hbegin
      cases hi : w.thread i with
      | idle =>
          rw [hi] at hbegin
          obtain rfl := Option.some.inj hbegin
          refine ⟨⟨⟨?_, ?_, ?_⟩, fun j hj => ?_⟩, arcNum_emplaceArc _,
            hkeeps rfl rfl fun _ hc => hc.elim, fun _ => id⟩
          · exact (source_emplaceArc _ _).trans (if_pos rfl)
          · exact (target_emplaceArc _ _).trans (if_pos rfl)
          · exact (arcData_emplaceArc _ _).trans (if_pos rfl)
          · by_cases hji : j = i
            · rw [hji, thread_goTo] at hj
              exact hj
            · rw [thread_goTo_of_ne _ _ hji] at hj
              exact (hw.unset_lt hj).ne rfl
      | _ =>
          rw [hi] at hbegin
          cases hbegin
  | node s d e o o' =>
      rw [World.begin] at hbegin
      cases hi : w.thread i with
      | idle =>
          rw [hi] at hbegin
          obtain ⟨w₁, hlock, rfl⟩ := Option.map_eq_some_iff.mp hbegin
          obtain ⟨-, rfl⟩ := lockArc_eq_some.mp hlock
          refine ⟨Or.inr ⟨?_, i, Or.inl (thread_goTo _ _ _)⟩, arcNum_emplaceArc _,
            hkeeps rfl rfl fun _ hc => hc, fun _ => id⟩
          exact (arcData_emplaceArc _ _).trans (if_pos rfl)
      | _ =>
          rw [hi] at hbegin
          cases hbegin

-- ================================================================ runs

/-- In every world that threads reach. -/
theorem Reached.inv (hg : Wired g) {xs : List (Add A N)} (hr : Reached g xs w) : w.Inv := by
  induction hr with
  | start => exact inv_start hg
  | begin _ hx hbegin ih => exact ih.begin hx hbegin
  | go _ hgo ih => exact ih.go hgo

theorem Reached.booked {g₀ : Tree A N} (hg : Wired g₀) {xs : List (Add A N)}
    (hr : Reached g₀ xs w) : Booked g₀ xs w := by
  induction hr with
  | start =>
      exact ⟨rfl, Nat.le_refl _, fun b _ => ⟨⟨rfl, rfl, rfl⟩, fun _ => id⟩,
        fun k x hk => by simp at hk⟩
  | @begin xs w w' i x hr hx hbegin ih =>
      obtain ⟨hnew, hnum, hkeeps, hidle⟩ := begin_content (hr.inv hg) hbegin g₀.nodeNum
      refine ⟨by simp [hnum, ih.arcs, Nat.add_assoc], ih.nodes.trans hkeeps.nodes,
        fun b hb => ih.old_keeps hkeeps hb, fun k z hk => ?_⟩
      by_cases hlast : k < xs.length
      · rw [List.getElem?_append_left hlast] at hk
        refine hkeeps.recording ?_ (hidle _) (ih.new k z hk)
        have := ih.arcs
        omega
      · -- the last in the list is what is begun now
        rw [List.getElem?_append_right (Nat.le_of_not_lt hlast)] at hk
        obtain ⟨hk0, rfl⟩ : k - xs.length = 0 ∧ x = z := by
          rw [List.getElem?_singleton] at hk
          split at hk
          · exact ⟨‹_›, Option.some.inj hk⟩
          · cases hk
        have hkeq : g₀.arcNum + k = w.tree.arcNum := by
          have := ih.arcs
          omega
        rw [hkeq]
        exact hnew
  | @go xs w w' i hr hgo ih =>
      obtain ⟨hnum, hkeeps⟩ := keeps_go (hr.inv hg) hgo
      refine ⟨hnum.trans ih.arcs, ih.nodes.trans hkeeps.nodes,
        fun b hb => ih.old_keeps hkeeps hb, fun k z hk => ?_⟩
      refine (ih.new k z hk).go (hr.inv hg) ?_ ih.nodes hgo
      have hlt := (List.getElem?_eq_some_iff.mp hk).1
      have := ih.arcs
      omega

omit [DecidableEq τ] in
/-- Who is done holds no lock. -/
theorem Inv.unlocked (h : w.Inv) (hidle : ∀ i, w.thread i = .idle) :
    (∀ n, w.nodeLock n = none) ∧ ∀ a, w.arcLock a = none := by
  refine ⟨fun n => h.nodes.free fun i hholds => ?_, fun a => h.arcs.free fun i hholds => ?_⟩
  · rw [hidle i] at hholds
    exact hholds
  · rw [hidle i] at hholds
    exact hholds

/-- Threads make a step each, in the order of the list. -/
def goes (w : World τ A N) (l : List τ) : Option (World τ A N) := l.foldlM go w

theorem Reached.goes {g₀ : Tree A N} {xs : List (Add A N)} (hr : Reached g₀ xs w) {l : List τ}
    (hgoes : w.goes l = some w') : Reached g₀ xs w' := by
  induction l generalizing w with
  | nil =>
      obtain rfl := Option.some.inj hgoes
      exact hr
  | cons i l ih =>
      rw [World.goes, List.foldlM_cons] at hgoes
      obtain ⟨w₁, hgo, hrest⟩ := Option.bind_eq_some_iff.mp hgoes
      exact ih (hr.go hgo) hrest

/-- A new tree, of one node. -/
def oneNode : Tree Nat Nat := new

/-- One thread has begun to add a node below the root and another an arc
from the root to itself. -/
def bothBegun : Option (World Bool Nat Nat) :=
  ((start oneNode).begin false (.node 0 1 2 none 7)).bind fun w => w.begin true (.arc 0 0 3)

theorem reached_bothBegun :
    ∃ w, bothBegun = some w ∧ Reached oneNode [.node 0 1 2 none 7, .arc 0 0 3] w := by
  have hfirst : Reached (τ := Bool) oneNode [.node 0 1 2 none 7] _ :=
    .begin .start (i := false) (x := .node 0 1 2 none 7) Nat.one_pos rfl
  exact ⟨_, rfl, hfirst.begin (x := .arc 0 0 3) (i := true) ⟨Nat.one_pos, Nat.one_pos⟩ rfl⟩

/-- An order of their steps. -/
def mixed : List Bool :=
  [true, false, true, false, true, false, true, true, true, true, false,
    false, false, false, false, true, true, true, true, true, true, true]

/-- Both are done. -/
def twoAdders : Option (World Bool Nat Nat) := bothBegun.bind fun w => w.goes mixed

theorem reached_twoAdders : ∃ w, twoAdders = some w ∧ (∀ i, w.thread i = .idle)
    ∧ Reached oneNode [.node 0 1 2 none 7, .arc 0 0 3] w := by
  obtain ⟨w, hw, hr⟩ := reached_bothBegun
  have hgoes : twoAdders = w.goes mixed := by
    rw [twoAdders, hw]
    rfl
  have hdone : ∃ w', twoAdders = some w' ∧ ∀ i, w'.thread i = .idle :=
    ⟨_, rfl, fun i => by cases i <;> rfl⟩
  obtain ⟨w', hw', hidle⟩ := hdone
  exact ⟨w', hw', hidle, hr.goes (hgoes.symm.trans hw')⟩

end World

end MctsConnectFour.Digraph.Tree
