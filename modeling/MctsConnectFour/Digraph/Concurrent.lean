/-
What the steps of threads that add to the older tree do to its lists.

The invariant (`Listed`) is about lists that no field of the tree names:
`L I n` is what has been appended to a list so far, and `E I a` the node on
whose list an arc goes. An arc of the arena is on its list unless a thread
has still to append it (`Pending`); and where no thread is between the two
writes of an append, the links and the ends of the list are those of
`L I n`. A thread that is between them, or about to make them, holds the
lock of the node, and what it has read there still stands
(`Thread.At`): so says `At.congr`, for every step of another thread.

There is one lemma for each kind of step: a thread gets on without a write
(`Listed.move`), puts an arc or a node in an arena, gives an arc its ends,
or makes one of the writes of an append. These share `Listed.write`.
-/
import MctsConnectFour.Digraph.Locking

namespace MctsConnectFour.Digraph.Tree

open Chain (Linked Threaded)

variable {A N : Type} {g g' : Tree A N} {L L' : ItType → Nat → List Nat}
  {E : ItType → Nat → Option Nat} {I J : ItType} {a b c n k : Nat}

-- ============================================================== threads

/-- The arc has still to be put on the list. -/
def Pc.Pends : Pc → Prop
  | last _ | unlockArc _ | unlockNode => False
  | _ => True

namespace Thread

variable {x y : Thread N}

/-- The arc of a thread. -/
def arc : Thread N → Option Nat
  | idle => none
  | makeNode _ a _ | setEnds _ _ a | unlockNew _ _ a | append _ _ _ _ a _ => some a

/-- The nodes on whose lists it goes, as far as they are known. -/
def ends : Thread N → ItType → Option Nat
  | idle, _ => none
  | makeNode s _ _, I => if I = .ins then none else some s
  | setEnds s t _, I | unlockNew s t _, I | append _ _ s t _ _, I => some (I.endOf s t)

/-- The arc has still to be put on a list. -/
def Pends : Thread N → ItType → Nat → Prop
  | idle, _, _ => False
  | makeNode _ a _, _, b => b = a
  | setEnds _ _ a, I, b | unlockNew _ _ a, I, b => I = .outs ∧ b = a
  | append _ J _ _ a pc, I, b => b = a ∧ (I = J ∧ pc.Pends ∨ J = .ins ∧ I = .outs)

/-- The arc has still to be given its ends. -/
def Unset : Thread N → Nat → Prop
  | makeNode _ a _, b | setEnds _ _ a, b => b = a
  | _, _ => False

/-- The thread has the lock of a node. -/
def HoldsNode : Thread N → Nat → Prop
  | append _ I s t _ pc, n => pc ≠ .node ∧ n = I.endOf s t
  | _, _ => False

/-- The thread has the lock of an arc. -/
def HoldsArc : Thread N → Nat → Prop
  | makeNode _ a _, b | setEnds _ _ a, b | unlockNew _ _ a, b => b = a
  | append _ _ _ _ _ (.next c), b | append _ _ _ _ _ (.last c), b
  | append _ _ _ _ _ (.unlockArc c), b => b = c
  | _, _ => False

/-- The thread is between the writes of an append. -/
def Writes : Thread N → ItType → Nat → Prop
  | append _ J s t _ (.last _), I, n | append _ J s t _ .second, I, n => I = J ∧ n = J.endOf s t
  | _, _, _ => False

/-- What a thread that has the lock of a node knows about its list. -/
def At (g : Tree A N) (L : ItType → Nat → List Nat) : Thread N → Prop
  | append _ I s t _ (.tail b) | append _ I s t _ (.next b) => g.tail I (I.endOf s t) = some b
  | append _ I s t a (.last _) =>
      Linked (g.getNext I) (g.head I (I.endOf s t)) (L I (I.endOf s t))
        ∧ (L I (I.endOf s t)).getLast? = some a
  | append _ I s _ _ .first => I = .outs ∧ g.head .outs s = none
  | append byNode I s _ a .second => I = .outs ∧ L .outs s = []
      ∧ if byNode then g.head .outs s = some a
        else g.head .outs s = none ∧ g.tail .outs s = some a
  | _ => True

theorem Pends.arc (h : x.Pends I a) : x.arc = some a := by
  cases x with
  | idle => exact h.elim
  | makeNode s b e => exact congrArg some (Eq.symm h)
  | setEnds s t b => exact congrArg some h.2.symm
  | unlockNew s t b => exact congrArg some h.2.symm
  | append byNode J s t b pc => exact congrArg some h.1.symm

theorem Unset.arc (h : x.Unset a) : x.arc = some a := by
  cases x with
  | makeNode s b e => exact congrArg some (Eq.symm h)
  | setEnds s t b => exact congrArg some (Eq.symm h)
  | _ => exact h.elim

theorem Writes.holdsNode (h : x.Writes I n) : x.HoldsNode n := by
  cases x with
  | append byNode J s t b pc =>
      cases pc with
      | last c =>
          obtain ⟨rfl, rfl⟩ := h
          exact ⟨by simp, rfl⟩
      | second =>
          obtain ⟨rfl, rfl⟩ := h
          exact ⟨by simp, rfl⟩
      | _ => exact h.elim
  | _ => exact h.elim

section Append

variable {byNode : Bool} {s t : Nat} {pc pc' : Pc}

theorem pends_same (h : pc'.Pends ↔ pc.Pends) (J : ItType) (c : Nat) :
    (append byNode I s t a pc' : Thread N).Pends J c
      ↔ (append byNode I s t a pc : Thread N).Pends J c := by
  simp only [Pends, h]

/-- The arc has been put on the list. -/
theorem pends_linked (h : pc.Pends) (h' : ¬ pc'.Pends) (J : ItType) (c : Nat) :
    (append byNode I s t a pc' : Thread N).Pends J c
      ↔ (append byNode I s t a pc : Thread N).Pends J c ∧ ¬ (J = I ∧ c = a) := by
  simp only [Pends, h, h', and_true, and_false, false_or]
  cases I <;> cases J <;> simp

/-- The next list is the out-list of the source. -/
theorem pends_turn (h : ¬ pc.Pends) (h' : pc'.Pends) (J : ItType) (c : Nat) :
    (append byNode .outs s t a pc' : Thread N).Pends J c
      ↔ (append byNode .ins s t a pc : Thread N).Pends J c := by
  simp only [Pends, h, h', and_true, and_false, false_or]
  cases J <;> simp

end Append

/-- What a thread knows stands as long as nobody touches the list. -/
theorem At.congr (h : x.At g L)
    (hsame : ∀ n, x.HoldsNode n → ∀ I, g'.head I n = g.head I n ∧ g'.tail I n = g.tail I n
      ∧ L' I n = L I n ∧ ∀ c ∈ L I n, g'.getNext I c = g.getNext I c) : x.At g' L' := by
  cases x with
  | append byNode I s t a pc =>
      cases pc with
      | tail b =>
          obtain ⟨-, htail, -⟩ := hsame (I.endOf s t) ⟨by simp, rfl⟩ I
          exact htail.trans h
      | next b =>
          obtain ⟨-, htail, -⟩ := hsame (I.endOf s t) ⟨by simp, rfl⟩ I
          exact htail.trans h
      | last b =>
          obtain ⟨hhead, -, hL, hnext⟩ := hsame (I.endOf s t) ⟨by simp, rfl⟩ I
          refine ⟨?_, by rw [hL]; exact h.2⟩
          rw [hhead, hL]
          exact h.1.congr hnext
      | first =>
          obtain ⟨rfl, hhead⟩ := h
          obtain ⟨hhead', -⟩ := hsame s ⟨by simp, rfl⟩ .outs
          exact ⟨rfl, hhead'.trans hhead⟩
      | second =>
          obtain ⟨rfl, hL, hend⟩ := h
          obtain ⟨hhead', htail', hL', -⟩ := hsame s ⟨by simp, rfl⟩ .outs
          exact ⟨rfl, hL'.trans hL, by rw [hhead', htail']; exact hend⟩
      | _ => exact h
  | _ => exact h

end Thread

-- =========================================================== invariant

section Invariant

variable {τ : Type} {th : τ → Thread N} {i j : τ} {x : Thread N}

/-- Some thread has still to append the arc to a list. -/
def Pending (th : τ → Thread N) (I : ItType) (a : Nat) : Prop := ∃ i, (th i).Pends I a

/-- The lists `L` are those of the tree, but for what the threads are
about to do; and an arc is on the list of the node `E` says, or is to be
appended to it. -/
structure Listed (g : Tree A N) (th : τ → Thread N) (L : ItType → Nat → List Nat)
    (E : ItType → Nat → Option Nat) : Prop where
  mem : ∀ I n a, a ∈ L I n ↔ E I a = some n ∧ ¬ Pending th I a
  lt : ∀ {I n a}, E I a = some n → a < g.arcNum ∧ n < g.nodeNum
  ends : ∀ {i a}, (th i).arc = some a → ∀ I, E I a = (th i).ends I
  own : ∀ {i j a}, (th i).arc = some a → (th j).arc = some a → i = j
  pos : ∀ {i a}, (th i).arc = some a → 0 < a ∧ a < g.arcNum
  settled : ∀ {a}, a < g.arcNum → (∀ i, ¬ (th i).Unset a) →
    E .ins a = g.home a ∧ E .outs a = g.source a
  fresh : ∀ {I a}, Pending th I a → g.getNext I a = none
  some_in : ∀ {n}, n < g.nodeNum → L .ins n ≠ []
  threaded : ∀ {I n}, n < g.nodeNum → (∀ i, ¬ (th i).Writes I n) →
    Threaded (g.getNext I) (g.head I n) (g.tail I n) (L I n)
  at' : ∀ i, (th i).At g L

theorem Listed.disjoint (h : Listed g th L E) (hn : c ∈ L I n) (hk : c ∈ L I k) : n = k :=
  Option.some.inj (((h.mem I n c).mp hn).1.symm.trans ((h.mem I k c).mp hk).1)

theorem Listed.mem_lt (h : Listed g th L E) (hc : c ∈ L I n) : c < g.arcNum :=
  (h.lt ((h.mem I n c).mp hc).1).1

/-- Nobody but the thread that has the lock of a node writes to its lists. -/
theorem Listed.held (h : Listed g th L E) {lock : Nat → Option τ}
    (hlock : Locks.Tracks Thread.HoldsNode lock th) (hi : (th i).HoldsNode n)
    (hw : ∀ I, ¬ (th i).Writes I n) (hn : n < g.nodeNum) (I : ItType) :
    Threaded (g.getNext I) (g.head I n) (g.tail I n) (L I n) := by
  refine h.threaded hn fun j hj => ?_
  obtain rfl := hlock.unique hj.holdsNode hi
  exact hw I hj

/-- The node of the list exists. -/
theorem Listed.endOf_lt (h : Listed g th L E) {byNode : Bool} {s t : Nat} {pc : Pc}
    (hi : th i = .append byNode I s t a pc) :
    E I a = some (I.endOf s t) ∧ I.endOf s t < g.nodeNum := by
  have hE : E I a = some (I.endOf s t) := by
    rw [h.ends (i := i) (a := a) (by rw [hi]; rfl), hi]
    rfl
  exact ⟨hE, (h.lt hE).2⟩

/-- A thread has the lock of the node of the list. -/
theorem holdsNode_of_ne {byNode : Bool} {s t : Nat} {pc : Pc}
    (hi : th i = .append byNode I s t a pc) (hpc : pc ≠ .node) :
    (th i).HoldsNode (I.endOf s t) := by
  rw [hi]
  exact ⟨hpc, rfl⟩

theorem Listed.holds_lt (h : Listed g th L E) (hi : (th i).HoldsNode n) : n < g.nodeNum := by
  cases hx : th i with
  | append byNode I s t a pc =>
      rw [hx] at hi
      obtain ⟨-, rfl⟩ := hi
      exact (h.endOf_lt hx).2
  | _ =>
      rw [hx] at hi
      exact hi.elim

/-- Nothing is on the lists of a node that does not exist. -/
theorem Listed.nil_of_le (h : Listed g th L E) (hn : g.nodeNum ≤ n) : L I n = [] := by
  refine List.eq_nil_iff_forall_not_mem.mpr fun c hc => ?_
  have hlt := (h.lt ((h.mem I n c).mp hc).1).2
  omega

variable [DecidableEq τ]

/-- What no thread does after one has got on, none did before, unless it
was that one. -/
theorem not_of_update (P : Thread N → Prop) (h : ∀ j, ¬ P (Function.update th i x j))
    (hi : P (th i) → P x) (j : τ) : ¬ P (th j) := by
  have hj := h j
  by_cases hji : j = i
  · subst hji
    rw [Function.update_self] at hj
    exact fun hP => hj (hi hP)
  · rwa [Function.update_of_ne hji] at hj

/-- What is pending after a thread has got on. -/
theorem pending_update (hpends : x.Pends I a ↔ (th i).Pends I a) :
    Pending (Function.update th i x) I a ↔ Pending th I a := by
  refine exists_congr fun j => ?_
  by_cases hj : j = i
  · subst hj
    rw [Function.update_self]
    exact hpends
  · rw [Function.update_of_ne hj]

/-- What is pending after a thread has appended its arc to a list. -/
theorem Listed.pending_link (h : Listed g th L E) (ha : (th i).arc = some a)
    (hpends : ∀ J c, x.Pends J c ↔ (th i).Pends J c ∧ ¬ (J = I ∧ c = a)) (J : ItType) (c : Nat) :
    Pending (Function.update th i x) J c ↔ Pending th J c ∧ ¬ (J = I ∧ c = a) := by
  constructor
  · intro hc
    obtain ⟨j, hj⟩ := hc
    by_cases hji : j = i
    · subst hji
      rw [Function.update_self, hpends] at hj
      exact ⟨⟨j, hj.1⟩, hj.2⟩
    · rw [Function.update_of_ne hji] at hj
      refine ⟨⟨j, hj⟩, fun heq => ?_⟩
      obtain ⟨rfl, rfl⟩ := heq
      exact hji (h.own hj.arc ha)
  · intro hc
    obtain ⟨⟨j, hj⟩, hne⟩ := hc
    refine ⟨j, ?_⟩
    by_cases hji : j = i
    · subst hji
      rw [Function.update_self, hpends]
      exact ⟨hj, hne⟩
    · rwa [Function.update_of_ne hji]

/-- A thread gets on without a write. -/
theorem Listed.move (h : Listed g th L E) (i : τ)
    (hpends : ∀ I a, x.Pends I a ↔ (th i).Pends I a) (hunset : ∀ a, x.Unset a ↔ (th i).Unset a)
    (hends : ∀ a, x.arc = some a → (th i).arc = some a ∧ ∀ I, x.ends I = (th i).ends I)
    (hwrites : ∀ I n, ¬ (th i).Writes I n) (hat : x.At g L) :
    Listed g (Function.update th i x) L E := by
  have hpending : ∀ I a, Pending (Function.update th i x) I a ↔ Pending th I a :=
    fun I a => pending_update (hpends I a)
  have harc : ∀ {j a}, (Function.update th i x j).arc = some a →
      (th j).arc = some a ∧ ∀ I, (Function.update th i x j).ends I = (th j).ends I := by
    intro j a
    by_cases hj : j = i
    · subst hj
      rw [Function.update_self]
      exact hends a
    · rw [Function.update_of_ne hj]
      exact fun ha => ⟨ha, fun _ => rfl⟩
  constructor
  case mem => exact fun I n a => by rw [hpending]; exact h.mem I n a
  case lt => exact h.lt
  case ends => exact fun ha I => (h.ends (harc ha).1 I).trans ((harc ha).2 I).symm
  case own => exact fun ha hb => h.own (harc ha).1 (harc hb).1
  case pos => exact fun ha => h.pos (harc ha).1
  case settled =>
    exact fun ha hset => h.settled ha (not_of_update (·.Unset _) hset (hunset _).mpr)
  case fresh => exact fun ha => h.fresh ((hpending _ _).mp ha)
  case some_in => exact h.some_in
  case threaded =>
    intro I n hn hset
    exact h.threaded hn
      (not_of_update (·.Writes I n) hset fun hw => absurd hw (hwrites I n))
  case at' =>
    exact (Function.forall_update_iff th fun _ y => y.At g L).mpr ⟨hat, fun j _ => h.at' j⟩

/-- Of the tree nothing has changed but a list of one node. -/
structure Wrote (g : Tree A N) (L : ItType → Nat → List Nat) (I : ItType) (n : Nat)
    (g' : Tree A N) (L' : ItType → Nat → List Nat) : Prop where
  nums : g'.arcNum = g.arcNum ∧ g'.nodeNum = g.nodeNum
  ends : ∀ c, g'.source c = g.source c ∧ g'.home c = g.home c
  other : ∀ J k, ¬ (J = I ∧ k = n) → g'.head J k = g.head J k ∧ g'.tail J k = g.tail J k
    ∧ L' J k = L J k ∧ ∀ c ∈ L J k, g'.getNext J c = g.getNext J c

/-- A thread that has the lock of a node writes to one of its lists. -/
theorem Listed.write (h : Listed g th L E) {lock : Nat → Option τ}
    (hlock : Locks.Tracks Thread.HoldsNode lock th) (hi : (th i).HoldsNode n)
    (hwrote : Wrote g L I n g' L') (hwrites : ∀ J k, (th i).Writes J k → J = I ∧ k = n)
    (harc : x.arc = (th i).arc) (hends : x.ends = (th i).ends)
    (hunset : ∀ a, x.Unset a ↔ (th i).Unset a)
    (hmem : ∀ J k c, c ∈ L' J k ↔ E J c = some k ∧ ¬ Pending (Function.update th i x) J c)
    (hfresh : ∀ J c, Pending (Function.update th i x) J c → g'.getNext J c = none)
    (hsome : L I n ⊆ L' I n)
    (hthreaded : ¬ x.Writes I n →
      Threaded (g'.getNext I) (g'.head I n) (g'.tail I n) (L' I n))
    (hat : x.At g' L') : Listed g' (Function.update th i x) L' E := by
  have harc' : ∀ j, (Function.update th i x j).arc = (th j).arc
      ∧ (Function.update th i x j).ends = (th j).ends :=
    (Function.forall_update_iff th fun j y => y.arc = (th j).arc ∧ y.ends = (th j).ends).mpr
      ⟨⟨harc, hends⟩, fun _ _ => ⟨rfl, rfl⟩⟩
  constructor
  case mem => exact hmem
  case lt =>
    intro J k c hc
    rw [hwrote.nums.1, hwrote.nums.2]
    exact h.lt hc
  case ends =>
    intro j c hc J
    rw [(harc' j).1] at hc
    rw [(harc' j).2]
    exact h.ends hc J
  case own =>
    intro j k c hj hk
    rw [(harc' j).1] at hj
    rw [(harc' k).1] at hk
    exact h.own hj hk
  case pos =>
    intro j c hc
    rw [(harc' j).1] at hc
    rw [hwrote.nums.1]
    exact h.pos hc
  case settled =>
    intro c hc hset
    rw [hwrote.nums.1] at hc
    rw [(hwrote.ends c).1, (hwrote.ends c).2]
    exact h.settled hc (not_of_update (·.Unset c) hset (hunset c).mpr)
  case fresh => exact hfresh _ _
  case some_in =>
    intro k hk
    rw [hwrote.nums.2] at hk
    by_cases hkn : ItType.ins = I ∧ k = n
    · obtain ⟨rfl, rfl⟩ := hkn
      exact List.ne_nil_of_mem (hsome (List.head_mem (h.some_in hk)))
    · rw [(hwrote.other .ins k hkn).2.2.1]
      exact h.some_in hk
  case threaded =>
    intro J k hk hset
    rw [hwrote.nums.2] at hk
    by_cases hkn : J = I ∧ k = n
    · obtain ⟨rfl, rfl⟩ := hkn
      have hi' := hset i
      rw [Function.update_self] at hi'
      exact hthreaded hi'
    · obtain ⟨hhead, htail, hL, hnext⟩ := hwrote.other J k hkn
      rw [hhead, htail, hL]
      exact (h.threaded hk (not_of_update (·.Writes J k) hset
        fun hw => absurd (hwrites J k hw) hkn)).congr hnext
  case at' =>
    refine (Function.forall_update_iff th fun _ y => y.At g' L').mpr ⟨hat, fun j hj => ?_⟩
    refine (h.at' j).congr fun k hk J => hwrote.other J k fun heq => ?_
    exact hj (hlock.unique (heq.2 ▸ hk) hi)

/-- The lists after an arc has been appended to one of them. -/
def appended (L : ItType → Nat → List Nat) (I : ItType) (n a : Nat) (J : ItType) (k : Nat) :
    List Nat :=
  if J = I ∧ k = n then L I n ++ [a] else L J k

/-- An arc that is pending no more is on its list. -/
theorem Listed.mem_appended (h : Listed g th L E) (ha : (th i).arc = some a)
    (hE : E I a = some n)
    (hpends : ∀ J c, x.Pends J c ↔ (th i).Pends J c ∧ ¬ (J = I ∧ c = a)) (J : ItType)
    (k c : Nat) : c ∈ appended L I n a J k
      ↔ E J c = some k ∧ ¬ Pending (Function.update th i x) J c := by
  rw [h.pending_link ha hpends, appended]
  by_cases hkn : J = I ∧ k = n
  · obtain ⟨rfl, rfl⟩ := hkn
    rw [if_pos ⟨rfl, rfl⟩, List.mem_append, List.mem_singleton, h.mem]
    by_cases hca : c = a
    · subst hca
      exact iff_of_true (Or.inr rfl) ⟨hE, fun hp => hp.2 ⟨rfl, rfl⟩⟩
    · simp [hca]
  · rw [if_neg hkn, h.mem]
    refine and_congr_right fun hEc =>
      not_congr (and_iff_left_of_imp fun _ heq => hkn ?_).symm
    obtain ⟨rfl, rfl⟩ := heq
    exact ⟨rfl, Option.some.inj (hEc.symm.trans hE)⟩

section Steps

variable {byNode : Bool} {s t : Nat} {lock : Nat → Option τ}

/-- An arc that is on no list is put in the arena. -/
theorem Listed.emplaceArc (h : Listed g th L E) (hi : th i = .idle) {r : ArcType A}
    (hin : r.nextIn = none) (hout : r.nextOut = none) (hzero : 0 < g.arcNum)
    (harc : x.arc = some g.arcNum) (hpends : ∀ J, x.Pends J g.arcNum)
    (hat : x.At (g.emplaceArc r) L) (hends : ∀ J k, x.ends J = some k → k < g.nodeNum)
    (hset : ¬ x.Unset g.arcNum → x.ends .ins = some r.target ∧ x.ends .outs = r.source) :
    Listed (g.emplaceArc r) (Function.update th i x) L
      fun J c => if c = g.arcNum then x.ends J else E J c := by
  have hnew : ∀ J c, x.Pends J c ↔ c = g.arcNum := by
    intro J c
    constructor
    · exact fun hc => Option.some.inj (hc.arc.symm.trans harc)
    · exact fun hc => hc ▸ hpends J
  have hpending : ∀ J c, Pending (Function.update th i x) J c ↔ c = g.arcNum ∨ Pending th J c := by
    intro J c
    constructor
    · intro hc
      obtain ⟨j, hj⟩ := hc
      by_cases hji : j = i
      · subst hji
        rw [Function.update_self] at hj
        exact Or.inl ((hnew J c).mp hj)
      · rw [Function.update_of_ne hji] at hj
        exact Or.inr ⟨j, hj⟩
    · intro hc
      rcases hc with hc | ⟨j, hj⟩
      · exact ⟨i, by rw [Function.update_self]; exact (hnew J c).mpr hc⟩
      · refine ⟨j, ?_⟩
        rwa [Function.update_of_ne fun hji => ?_]
        rw [hji, hi] at hj
        exact hj
  have harc' : ∀ {j c}, (Function.update th i x j).arc = some c →
      j = i ∧ c = g.arcNum ∨ j ≠ i ∧ (th j).arc = some c := by
    intro j c hc
    by_cases hji : j = i
    · subst hji
      rw [Function.update_self, harc] at hc
      exact Or.inl ⟨rfl, (Option.some.inj hc).symm⟩
    · rw [Function.update_of_ne hji] at hc
      exact Or.inr ⟨hji, hc⟩
  have hnext := getNext_emplaceArc (g := g) hin hout
  constructor
  case mem =>
    intro J k c
    rw [hpending]
    by_cases hc : c = g.arcNum
    · exact iff_of_false (fun hmem => (h.mem_lt hmem).ne hc) fun h' => h'.2 (Or.inl hc)
    · rw [if_neg hc, h.mem]
      simp [hc]
  case lt =>
    intro J k c hc
    rw [arcNum_emplaceArc]
    split at hc
    · rename_i heq
      exact ⟨by omega, hends J k hc⟩
    · have hlt := h.lt hc
      exact ⟨by omega, hlt.2⟩
  case ends =>
    intro j c hc J
    rcases harc' hc with ⟨rfl, rfl⟩ | ⟨hji, hc⟩
    · rw [if_pos rfl, Function.update_self]
    · rw [if_neg (h.pos hc).2.ne, Function.update_of_ne hji]
      exact h.ends hc J
  case own =>
    intro j k c hj hk
    rcases harc' hj with ⟨rfl, rfl⟩ | ⟨-, hj'⟩
    · rcases harc' hk with ⟨rfl, -⟩ | ⟨-, hk'⟩
      · rfl
      · exact absurd rfl (h.pos hk').2.ne
    · rcases harc' hk with ⟨rfl, rfl⟩ | ⟨-, hk'⟩
      · exact absurd rfl (h.pos hj').2.ne
      · exact h.own hj' hk'
  case pos =>
    intro j c hc
    rw [arcNum_emplaceArc]
    rcases harc' hc with ⟨-, rfl⟩ | ⟨-, hc⟩
    · exact ⟨hzero, by omega⟩
    · have hpos := h.pos hc
      exact ⟨hpos.1, by omega⟩
  case settled =>
    intro c hc hunset
    rw [arcNum_emplaceArc] at hc
    have hhome : (g.emplaceArc r).home c = if c = g.arcNum then some r.target else g.home c := by
      unfold home
      by_cases hc0 : c = 0
      · rw [if_pos hc0, if_neg (by omega), if_pos hc0]
      · rw [if_neg hc0, target_emplaceArc, if_neg hc0]
    rw [hhome, source_emplaceArc]
    by_cases hca : c = g.arcNum
    · subst hca
      have hx := hunset i
      rw [Function.update_self] at hx
      simpa using hset hx
    · simp only [if_neg hca]
      refine h.settled (by omega) (not_of_update (·.Unset c) hunset ?_)
      rw [hi]
      exact False.elim
  case fresh =>
    intro J c hc
    rw [hnext]
    rcases (hpending J c).mp hc with rfl | hc
    · rw [getNext_eq, List.getElem?_eq_none (show g.arcs.length ≤ g.arcNum from Nat.le_refl _)]
      rfl
    · exact h.fresh hc
  case some_in => exact h.some_in
  case threaded =>
    intro J k hk hnone
    refine (h.threaded hk (not_of_update (·.Writes J k) hnone ?_)).congr
      fun c _ => hnext J c
    rw [hi]
    exact False.elim
  case at' =>
    exact (Function.forall_update_iff th fun _ y => y.At (g.emplaceArc r) L).mpr
      ⟨hat, fun j _ => (h.at' j).congr fun k _ J => ⟨rfl, rfl, rfl, fun c _ => hnext J c⟩⟩

/-- The node of an arc is put in the arena, the arc on its in-list. -/
theorem Listed.makeNode (h : Listed g th L E) {e : N} (hi : th i = .makeNode s a e) :
    Listed (g.emplaceNode a e) (Function.update th i (.setEnds s g.nodeNum a))
      (appended L .ins g.nodeNum a)
      fun J c => if J = .ins ∧ c = a then some g.nodeNum else E J c := by
  have harc : (th i).arc = some a := by rw [hi]; rfl
  have hpos := h.pos harc
  have hpends : ∀ J c, (.setEnds s g.nodeNum a : Thread N).Pends J c
      ↔ (th i).Pends J c ∧ ¬ (J = .ins ∧ c = a) := by
    intro J c
    rw [hi]
    cases J <;> simp [Thread.Pends]
  have hpending := h.pending_link harc hpends
  have hins : Pending th .ins a := ⟨i, by rw [hi]; exact rfl⟩
  have hnil : ∀ {k}, k = g.nodeNum → L .ins k = [] ∧ L .outs k = [] :=
    fun hk => ⟨h.nil_of_le hk.ge, h.nil_of_le hk.ge⟩
  have harc' : ∀ j, (Function.update th i (.setEnds s g.nodeNum a) j).arc = (th j).arc :=
    (Function.forall_update_iff th fun j y => y.arc = (th j).arc).mpr
      ⟨harc.symm, fun _ _ => rfl⟩
  constructor
  case mem =>
    intro J k c
    rw [hpending, appended]
    by_cases hca : J = .ins ∧ c = a
    · obtain ⟨rfl, rfl⟩ := hca
      simp only [true_and, and_self, if_true, not_true, and_false, not_false_eq_true, and_true]
      by_cases hk : k = g.nodeNum
      · rw [if_pos hk, hk]
        simp
      · rw [if_neg hk]
        refine iff_of_false (fun hmem => ((h.mem _ _ _).mp hmem).2 hins) fun h' => ?_
        exact hk (Option.some.inj h').symm
    · rw [if_neg hca]
      have hsame : c ∈ (if J = .ins ∧ k = g.nodeNum then L .ins g.nodeNum ++ [a] else L J k)
          ↔ c ∈ L J k := by
        by_cases hk : J = .ins ∧ k = g.nodeNum
        · obtain ⟨rfl, rfl⟩ := hk
          have hne : c ≠ a := fun heq => hca ⟨rfl, heq⟩
          simp [hne]
        · rw [if_neg hk]
      rw [hsame, h.mem]
      simp [hca]
  case lt =>
    intro J k c hc
    rw [nodeNum_emplaceNode]
    split at hc
    · rename_i heq
      obtain rfl := Option.some.inj hc
      exact ⟨heq.2 ▸ hpos.2, by omega⟩
    · have hlt := h.lt hc
      exact ⟨hlt.1, by omega⟩
  case ends =>
    intro j c hc J
    rw [harc'] at hc
    by_cases hji : j = i
    · subst hji
      obtain rfl : a = c := Option.some.inj (harc.symm.trans hc)
      rw [Function.update_self]
      have hE := h.ends hc J
      rw [hi] at hE
      cases J with
      | ins => exact if_pos ⟨rfl, rfl⟩
      | outs => exact (if_neg (by simp)).trans hE
    · rw [Function.update_of_ne hji, if_neg]
      · exact h.ends hc J
      · exact fun heq => hji (h.own (heq.2 ▸ hc) harc)
  case own =>
    intro j k c hj hk
    rw [harc'] at hj hk
    exact h.own hj hk
  case pos =>
    intro j c hc
    rw [harc'] at hc
    exact h.pos hc
  case settled =>
    intro c hc hunset
    have hca : c ≠ a := by
      intro heq
      apply hunset i
      rw [Function.update_self]
      exact heq
    rw [if_neg fun heq => hca heq.2, if_neg fun heq => hca heq.2]
    refine h.settled hc (not_of_update (·.Unset c) hunset ?_)
    rw [hi]
    exact id
  case fresh => exact fun hc => h.fresh ((hpending _ _).mp hc).1
  case some_in =>
    intro k hk
    rw [nodeNum_emplaceNode] at hk
    rw [appended]
    by_cases hkn : k = g.nodeNum
    · rw [if_pos ⟨rfl, hkn⟩]
      exact List.append_ne_nil_of_right_ne_nil _ (List.cons_ne_nil a [])
    · rw [if_neg fun heq => hkn heq.2]
      exact h.some_in (by omega)
  case threaded =>
    intro J k hk hnone
    rw [nodeNum_emplaceNode] at hk
    rw [head_emplaceNode, tail_emplaceNode, appended]
    by_cases hkn : k = g.nodeNum
    · simp only [hkn, if_true, and_true]
      cases J with
      | ins =>
          rw [if_pos rfl, if_pos rfl, (hnil rfl).1]
          exact Chain.threaded_single (h.fresh hins)
      | outs =>
          rw [if_neg (by simp), if_neg (by simp), (hnil rfl).2]
          exact Chain.threaded_nil
    · rw [if_neg hkn, if_neg hkn, if_neg fun heq => hkn heq.2]
      refine h.threaded (by omega) (not_of_update (·.Writes J k) hnone ?_)
      rw [hi]
      exact False.elim
  case at' =>
    refine (Function.forall_update_iff th fun _ y => y.At (g.emplaceNode a e) _).mpr
      ⟨trivial, fun j _ => (h.at' j).congr fun k hk J => ?_⟩
    have hkn : k ≠ g.nodeNum := (h.holds_lt hk).ne
    rw [head_emplaceNode, tail_emplaceNode, appended, if_neg hkn, if_neg hkn,
      if_neg fun heq => hkn heq.2]
    exact ⟨rfl, rfl, rfl, fun _ _ => rfl⟩

/-- The arc of a node is given its ends. -/
theorem Listed.setEnds (h : Listed g th L E) (hi : th i = .setEnds s t a) :
    Listed (g.setSourceTarget a s t) (Function.update th i (.unlockNew s t a)) L E := by
  have harc : (th i).arc = some a := by rw [hi]; rfl
  have hpos := h.pos harc
  have hpending : ∀ J c, Pending (Function.update th i (.unlockNew s t a)) J c ↔ Pending th J c :=
    fun J c => pending_update (by rw [hi]; exact Iff.rfl)
  have hsame : ∀ j, (Function.update th i (.unlockNew s t a) j).arc = (th j).arc
      ∧ (Function.update th i (.unlockNew s t a) j).ends = (th j).ends :=
    (Function.forall_update_iff th fun j y => y.arc = (th j).arc ∧ y.ends = (th j).ends).mpr
      ⟨by rw [hi]; exact ⟨rfl, rfl⟩, fun _ _ => ⟨rfl, rfl⟩⟩
  have hnext := getNext_setSourceTarget (g := g) (a := a) s t
  constructor
  case mem => exact fun J k c => by rw [hpending]; exact h.mem J k c
  case lt =>
    intro J k c hc
    rw [arcNum_setSourceTarget]
    exact h.lt hc
  case ends =>
    intro j c hc J
    rw [(hsame j).1] at hc
    rw [(hsame j).2]
    exact h.ends hc J
  case own =>
    intro j k c hj hk
    rw [(hsame j).1] at hj
    rw [(hsame k).1] at hk
    exact h.own hj hk
  case pos =>
    intro j c hc
    rw [(hsame j).1] at hc
    rw [arcNum_setSourceTarget]
    exact h.pos hc
  case settled =>
    intro c hc hunset
    rw [arcNum_setSourceTarget] at hc
    rw [source_setSourceTarget hpos.2, home, target_setSourceTarget hpos.2]
    by_cases hca : c = a
    · subst hca
      rw [if_neg hpos.1.ne', if_pos rfl, if_pos rfl, h.ends harc, h.ends harc, hi]
      exact ⟨rfl, rfl⟩
    · rw [if_neg hca, if_neg hca]
      refine h.settled hc (not_of_update (·.Unset c) hunset ?_)
      rw [hi]
      exact fun heq => absurd heq hca
  case fresh =>
    intro J c hc
    rw [hnext]
    exact h.fresh ((hpending J c).mp hc)
  case some_in => exact h.some_in
  case threaded =>
    intro J k hk hnone
    refine (h.threaded hk (not_of_update (·.Writes J k) hnone ?_)).congr
      fun c _ => hnext J c
    rw [hi]
    exact False.elim
  case at' =>
    exact (Function.forall_update_iff th fun _ y => y.At (g.setSourceTarget a s t) L).mpr
      ⟨trivial, fun j _ => (h.at' j).congr fun k _ J => ⟨rfl, rfl, rfl, fun c _ => hnext J c⟩⟩

/-- The arc at the end is linked to the new one. -/
theorem Listed.next (h : Listed g th L E)
    (hlock : Locks.Tracks Thread.HoldsNode lock th)
    (hi : th i = .append byNode I s t a (.next b)) :
    g.tail I (I.endOf s t) = some b ∧ Listed (g.setNext I b a)
      (Function.update th i (.append byNode I s t a (.last b)))
      (appended L I (I.endOf s t) a) E := by
  obtain ⟨hE, hn⟩ := h.endOf_lt hi
  have htail : g.tail I (I.endOf s t) = some b := by
    have hat := h.at' i
    rwa [hi] at hat
  generalize hnode : I.endOf s t = n at hE hn htail ⊢
  have hholds : (th i).HoldsNode n := by
    rw [hi]
    exact ⟨by simp, hnode.symm⟩
  have hold := h.held hlock hholds (fun J hw => by rw [hi] at hw; exact hw) hn I
  have hb : b ∈ L I n := List.mem_of_getLast? (hold.tail.symm.trans htail)
  have hblt := h.mem_lt hb
  have harc : (th i).arc = some a := by rw [hi]; rfl
  have hpends : ∀ J c, (.append byNode I s t a (.last b) : Thread N).Pends J c
      ↔ (th i).Pends J c ∧ ¬ (J = I ∧ c = a) := by
    rw [hi]
    exact Thread.pends_linked trivial id
  have hpending : Pending th I a := ⟨i, by rw [hi]; exact ⟨rfl, Or.inl ⟨rfl, trivial⟩⟩⟩
  have hnext := getNext_setNext (I := I) (a := a) hblt
  have hab : a ≠ b := fun heq => ((h.mem I n b).mp hb).2 (heq ▸ hpending)
  have hpushed : Threaded ((g.setNext I b a).getNext I) (g.head I n) (some a) (L I n ++ [a]) := by
    refine Threaded.push (htail ▸ hold) (fun c _ hc => ?_) ?_ ?_
    · rw [hnext, if_neg fun heq => hc heq.2]
    · rw [hnext, if_pos ⟨rfl, rfl⟩]
    · rw [hnext, if_neg fun heq => hab heq.2]
      exact h.fresh hpending
  refine ⟨htail, h.write hlock hholds (I := I) ?_ ?_ (by rw [hi]; rfl) (by rw [hi]; rfl)
    (fun _ => by rw [hi]; exact Iff.rfl) (h.mem_appended harc hE hpends) ?_ ?_ ?_ ?_⟩
  · constructor
    case nums => exact ⟨arcNum_setNext, rfl⟩
    case ends =>
      refine fun c => ⟨source_setNext c, ?_⟩
      unfold home
      rw [target_setNext]
    case other =>
      intro J k hkn
      refine ⟨rfl, rfl, if_neg hkn, fun c hc => ?_⟩
      rw [hnext, if_neg]
      intro heq
      obtain ⟨rfl, rfl⟩ := heq
      exact hkn ⟨rfl, h.disjoint hc hb⟩
  · intro J k hw
    rw [hi] at hw
    exact hw.elim
  · intro J c hc
    rw [h.pending_link harc hpends] at hc
    rw [hnext, if_neg]
    · exact h.fresh hc.1
    · intro heq
      obtain ⟨rfl, rfl⟩ := heq
      exact ((h.mem _ _ _).mp hb).2 hc.1
  · rw [appended, if_pos ⟨rfl, rfl⟩]
    exact List.subset_append_left ..
  · exact fun hw => absurd ⟨rfl, hnode.symm⟩ hw
  · show Linked _ ((g.setNext I b a).head I (I.endOf s t)) (appended L I n a I (I.endOf s t))
      ∧ (appended L I n a I (I.endOf s t)).getLast? = some a
    rw [hnode, appended, if_pos ⟨rfl, rfl⟩]
    exact ⟨hpushed.linked, hpushed.tail.symm⟩

/-- The end of the list is moved to the new arc. -/
theorem Listed.last (h : Listed g th L E)
    (hlock : Locks.Tracks Thread.HoldsNode lock th)
    (hi : th i = .append byNode I s t a (.last b)) :
    Listed (g.setTail I (I.endOf s t) a)
      (Function.update th i (.append byNode I s t a (.unlockArc b))) L E := by
  obtain ⟨-, hn⟩ := h.endOf_lt hi
  have hholds := holdsNode_of_ne hi (by simp)
  obtain ⟨hlinked, hlast⟩ : Linked (g.getNext I) (g.head I (I.endOf s t)) (L I (I.endOf s t))
      ∧ (L I (I.endOf s t)).getLast? = some a := by
    have hat := h.at' i
    rwa [hi] at hat
  have hpending : ∀ J c, Pending (Function.update th i (.append byNode I s t a (.unlockArc b))) J c
      ↔ Pending th J c := by
    refine fun J c => pending_update ?_
    rw [hi]
    exact Thread.pends_same Iff.rfl J c
  refine h.write hlock hholds (I := I) ?_ ?_ (by rw [hi]; rfl) (by rw [hi]; rfl)
    (fun _ => by rw [hi]; exact Iff.rfl) ?_ ?_ (List.Subset.refl _) ?_ trivial
  · constructor
    case nums => exact ⟨rfl, nodeNum_setTail⟩
    case ends => exact fun c => ⟨rfl, rfl⟩
    case other =>
      intro J k hkn
      exact ⟨head_setTail J k, by rw [tail_setTail hn, if_neg hkn], rfl, fun _ _ => rfl⟩
  · intro J k hw
    rwa [hi] at hw
  · exact fun J k c => by rw [hpending]; exact h.mem J k c
  · exact fun J c hc => h.fresh ((hpending J c).mp hc)
  · intro _
    refine ⟨?_, ?_⟩
    · rw [head_setTail]
      exact hlinked
    · rw [tail_setTail hn, if_pos ⟨rfl, rfl⟩, hlast]

/-- One end of an empty list is set. -/
theorem Listed.first (h : Listed g th L E)
    (hlock : Locks.Tracks Thread.HoldsNode lock th)
    (hi : th i = .append byNode I s t a .first) :
    Listed (if byNode then g.setHeadOut (I.endOf s t) a else g.setTail .outs (I.endOf s t) a)
      (Function.update th i (.append byNode I s t a .second)) L E := by
  obtain ⟨-, hn⟩ := h.endOf_lt hi
  have hholds := holdsNode_of_ne hi (by simp)
  obtain ⟨rfl, hhead⟩ : I = .outs ∧ g.head .outs s = none := by
    have hat := h.at' i
    rwa [hi] at hat
  have hempty : L .outs s = [] :=
    (h.held hlock hholds (fun J hw => by rw [hi] at hw; exact hw) hn .outs).linked.unique hhead
  have hpending : ∀ J c, Pending (Function.update th i (.append byNode .outs s t a .second)) J c
      ↔ Pending th J c := by
    refine fun J c => pending_update ?_
    rw [hi]
    exact Thread.pends_same Iff.rfl J c
  refine h.write hlock hholds (I := .outs) ?_ ?_ (by rw [hi]; rfl) (by rw [hi]; rfl)
    (fun _ => by rw [hi]; exact Iff.rfl) ?_ ?_ (List.Subset.refl _) ?_ ?_
  · cases byNode with
    | true =>
        constructor
        case nums => exact ⟨rfl, nodeNum_setHeadOut⟩
        case ends => exact fun c => ⟨rfl, rfl⟩
        case other =>
          intro J k hkn
          exact ⟨(head_setHeadOut hn J k).trans (if_neg hkn), tail_setHeadOut J k, rfl,
            fun _ _ => rfl⟩
    | false =>
        constructor
        case nums => exact ⟨rfl, nodeNum_setTail⟩
        case ends => exact fun c => ⟨rfl, rfl⟩
        case other =>
          intro J k hkn
          exact ⟨head_setTail J k, (tail_setTail hn J k).trans (if_neg hkn), rfl,
            fun _ _ => rfl⟩
  · intro J k hw
    rw [hi] at hw
    exact hw.elim
  · exact fun J k c => by rw [hpending]; exact h.mem J k c
  · intro J c hc
    have hnext := h.fresh ((hpending J c).mp hc)
    cases byNode with
    | true => exact hnext
    | false => exact hnext
  · exact fun hw => absurd ⟨rfl, rfl⟩ hw
  · refine ⟨rfl, hempty, ?_⟩
    cases byNode with
    | true => exact (head_setHeadOut hn .outs s).trans (if_pos ⟨rfl, rfl⟩)
    | false =>
        exact ⟨(head_setTail .outs s).trans hhead,
          (tail_setTail hn .outs s).trans (if_pos ⟨rfl, rfl⟩)⟩

/-- The other end of an empty list is set. -/
theorem Listed.second (h : Listed g th L E)
    (hlock : Locks.Tracks Thread.HoldsNode lock th)
    (hi : th i = .append byNode I s t a .second) :
    Listed (if byNode then g.setTail .outs (I.endOf s t) a else g.setHeadOut (I.endOf s t) a)
      (Function.update th i (.append byNode I s t a .unlockNode))
      (appended L I (I.endOf s t) a) E := by
  obtain ⟨hE, hn⟩ := h.endOf_lt hi
  have hholds := holdsNode_of_ne hi (by simp)
  obtain ⟨rfl, hempty, hend⟩ : I = .outs ∧ L .outs s = []
      ∧ if byNode then g.head .outs s = some a
        else g.head .outs s = none ∧ g.tail .outs s = some a := by
    have hat := h.at' i
    rwa [hi] at hat
  have harc : (th i).arc = some a := by rw [hi]; rfl
  have hpends : ∀ J c, (.append byNode .outs s t a .unlockNode : Thread N).Pends J c
      ↔ (th i).Pends J c ∧ ¬ (J = .outs ∧ c = a) := by
    rw [hi]
    exact Thread.pends_linked trivial id
  have hpending : Pending th .outs a := ⟨i, by rw [hi]; exact ⟨rfl, Or.inl ⟨rfl, trivial⟩⟩⟩
  have hnil : g.getNext .outs a = none := h.fresh hpending
  refine h.write hlock hholds (I := .outs) ?_ ?_ (by rw [hi]; rfl) (by rw [hi]; rfl)
    (fun _ => by rw [hi]; exact Iff.rfl) (h.mem_appended harc hE hpends) ?_ ?_ ?_ trivial
  · cases byNode with
    | true =>
        constructor
        case nums => exact ⟨rfl, nodeNum_setTail⟩
        case ends => exact fun c => ⟨rfl, rfl⟩
        case other =>
          intro J k hkn
          exact ⟨head_setTail J k, (tail_setTail hn J k).trans (if_neg hkn), if_neg hkn,
            fun _ _ => rfl⟩
    | false =>
        constructor
        case nums => exact ⟨rfl, nodeNum_setHeadOut⟩
        case ends => exact fun c => ⟨rfl, rfl⟩
        case other =>
          intro J k hkn
          exact ⟨(head_setHeadOut hn J k).trans (if_neg hkn), tail_setHeadOut J k, if_neg hkn,
            fun _ _ => rfl⟩
  · intro J k hw
    rwa [hi] at hw
  · intro J c hc
    have hnext := h.fresh ((h.pending_link harc hpends J c).mp hc).1
    cases byNode with
    | true => exact hnext
    | false => exact hnext
  · rw [appended, if_pos ⟨rfl, rfl⟩]
    exact List.subset_append_left ..
  · intro _
    have hsingle : appended L .outs s a .outs s = [a] := by
      rw [appended, if_pos ⟨rfl, rfl⟩, hempty, List.nil_append]
    show Threaded _ _ _ (appended L .outs s a .outs s)
    rw [hsingle]
    cases byNode with
    | true =>
        refine ⟨⟨(head_setTail .outs s).trans hend, hnil⟩, ?_⟩
        exact (tail_setTail hn .outs s).trans (if_pos ⟨rfl, rfl⟩)
    | false =>
        refine ⟨⟨(head_setHeadOut hn .outs s).trans (if_pos ⟨rfl, rfl⟩), hnil⟩, ?_⟩
        exact (tail_setHeadOut .outs s).trans hend.2

end Steps

end Invariant

end MctsConnectFour.Digraph.Tree
