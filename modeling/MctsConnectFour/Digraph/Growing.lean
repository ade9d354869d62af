/-
What adding to the older tree does to the links that are there.

A link is set once: where an arc is appended the link of the last arc was
not set, nor the head of an empty list (`LinksGrow`). So the list from a
head on only becomes longer at its end, whoever makes a step. And while an
append is under way the links from a head still come to an end
(`World.Inv.chain`).
-/
import MctsConnectFour.Digraph.Interleaved

namespace MctsConnectFour.Digraph.Tree

open Chain (Linked Threaded)

variable {A N : Type} {g g' g'' : Tree A N} {I : ItType} {a b n : Nat}

-- =============================================================== links

/-- What is set is not changed. -/
structure LinksGrow (g g' : Tree A N) : Prop where
  nodes : g.nodeNum ≤ g'.nodeNum
  next : ∀ I c d, g.getNext I c = some d → g'.getNext I c = some d
  head : ∀ I n a, g.head I n = some a → g'.head I n = some a

theorem LinksGrow.refl : LinksGrow g g := ⟨Nat.le_refl _, fun _ _ _ => id, fun _ _ _ => id⟩

theorem LinksGrow.trans (h : LinksGrow g g') (h' : LinksGrow g' g'') : LinksGrow g g'' :=
  ⟨h.nodes.trans h'.nodes, fun I c d hd => h'.next I c d (h.next I c d hd),
    fun I n a ha => h'.head I n a (h.head I n a ha)⟩

/-- A list only becomes longer. -/
theorem LinksGrow.list (h : LinksGrow g g') {l l' : List Nat}
    (hl : Linked (g.getNext I) (g.head I n) l) (hl' : Linked (g'.getNext I) (g'.head I n) l') :
    l <+: l' :=
  hl.grown hl' (h.head I n) (h.next I)

/-- A node that does not exist has no list. -/
theorem head_of_le (hn : g.nodeNum ≤ n) : g.head I n = none := by
  rw [head_eq, List.getElem?_eq_none hn]
  rfl

theorem linksGrow_setHeadOut (hn : n < g.nodeNum) (hhead : g.head .outs n = none) :
    LinksGrow g (g.setHeadOut n a) := by
  refine ⟨nodeNum_setHeadOut.ge, fun _ _ _ => id, fun J k c hc => ?_⟩
  rw [head_setHeadOut hn, if_neg]
  · exact hc
  · intro heq
    obtain ⟨rfl, rfl⟩ := heq
    cases hhead.symm.trans hc

theorem linksGrow_setTail : LinksGrow g (g.setTail I n a) :=
  ⟨nodeNum_setTail.ge, fun _ _ _ => id, fun J k _ hc => (head_setTail J k).trans hc⟩

theorem linksGrow_setNext (hb : b < g.arcNum) (hnext : g.getNext I b = none) :
    LinksGrow g (g.setNext I b a) := by
  refine ⟨Nat.le_refl _, fun J c d hd => ?_, fun _ _ _ => id⟩
  rw [getNext_setNext hb, if_neg]
  · exact hd
  · intro heq
    obtain ⟨rfl, rfl⟩ := heq
    cases hnext.symm.trans hd

theorem linksGrow_emplaceNode (e : N) : LinksGrow g (g.emplaceNode a e) := by
  refine ⟨(nodeNum_emplaceNode e).symm ▸ Nat.le_succ _, fun _ _ _ => id, fun J k c hc => ?_⟩
  rw [head_emplaceNode, if_neg]
  · exact hc
  · intro hk
    cases (head_of_le hk.ge).symm.trans hc

theorem linksGrow_emplaceArc {r : ArcType A} (hin : r.nextIn = none) (hout : r.nextOut = none) :
    LinksGrow g (g.emplaceArc r) :=
  ⟨Nat.le_refl _, fun J c _ hd => (getNext_emplaceArc hin hout J c).trans hd, fun _ _ _ => id⟩

theorem linksGrow_setSourceTarget (s t : Nat) : LinksGrow g (g.setSourceTarget a s t) :=
  ⟨Nat.le_refl _, fun J c _ hd => (getNext_setSourceTarget s t J c).trans hd, fun _ _ _ => id⟩

-- =============================================================== lists

namespace World

variable {τ : Type} {w w' : World τ A N} {i : τ}

/-- The node on whose list an arc is. -/
def nodeOf (g : Tree A N) (I : ItType) (a : Nat) : Option Nat :=
  if I = .ins then g.home a else g.source a

/-- From the head of every list the links come to an end. The arcs on the
way name the node, but for those that have no ends yet. -/
theorem Inv.chain (h : w.Inv) (hn : n < w.tree.nodeNum) (I : ItType) :
    ∃ l, Linked (w.tree.getNext I) (w.tree.head I n) l ∧ ∀ c ∈ l, c < w.tree.arcNum
      ∧ ((∀ j, ¬ (w.thread j).Unset c) → nodeOf w.tree I c = some n) := by
  obtain ⟨L, E, hlisted⟩ := h.listed
  suffices hlist : ∃ l, Linked (w.tree.getNext I) (w.tree.head I n) l
      ∧ ∀ c ∈ l, E I c = some n by
    obtain ⟨l, hl, hmem⟩ := hlist
    refine ⟨l, hl, fun c hc => ?_⟩
    have hE := hmem c hc
    have hlt := (hlisted.lt hE).1
    refine ⟨hlt, fun hset => ?_⟩
    obtain ⟨hhome, hsource⟩ := hlisted.settled hlt hset
    unfold nodeOf
    cases I with
    | ins => rw [if_pos rfl, ← hhome, hE]
    | outs => rw [if_neg (by simp), ← hsource, hE]
  have hL : ∀ c ∈ L I n, E I c = some n := fun c hc => ((hlisted.mem I n c).mp hc).1
  by_cases hwrites : ∃ i, (w.thread i).Writes I n
  · -- somebody is between the two writes of an append
    obtain ⟨i, hi⟩ := hwrites
    have hat := hlisted.at' i
    cases hx : w.thread i with
    | append byNode J s t a pc =>
        rw [hx] at hi hat
        cases pc with
        | last b =>
            obtain ⟨rfl, rfl⟩ := hi
            exact ⟨_, hat.1, hL⟩
        | second =>
            obtain ⟨rfl, rfl⟩ := hi
            obtain ⟨rfl, -, hend⟩ := hat
            cases byNode with
            | true =>
                have hnext : w.tree.getNext .outs a = none :=
                  hlisted.fresh ⟨i, by rw [hx]; exact ⟨rfl, Or.inl ⟨rfl, trivial⟩⟩⟩
                refine ⟨[a], ⟨hend, hnext⟩, fun c hc => ?_⟩
                obtain rfl := List.mem_singleton.mp hc
                exact (hlisted.endOf_lt hx).1
            | false => exact ⟨[], hend.1, fun c hc => by cases hc⟩
        | _ => exact hi.elim
    | _ =>
        rw [hx] at hi
        exact hi.elim
  · exact ⟨_, (hlisted.threaded hn fun i hi => hwrites ⟨i, hi⟩).linked, hL⟩

/-- An append sets links that have not been set. -/
theorem Inv.linksGrow_append (h : w.Inv) {byNode : Bool} {s t : Nat} {pc : Pc}
    (hi : w.thread i = .append byNode I s t a pc) {y : World τ A N × Pc}
    (hgo : w.goAppend i byNode I (I.endOf s t) a pc = some y) : LinksGrow w.tree y.1.tree := by
  obtain ⟨L, E, hlisted⟩ := h.listed
  have hn := (hlisted.endOf_lt hi).2
  have hat := hlisted.at' i
  rw [hi] at hat
  cases pc with
  | node =>
      obtain ⟨w₁, hlock, rfl⟩ := Option.map_eq_some_iff.mp hgo
      obtain ⟨-, rfl⟩ := lockNode_eq_some.mp hlock
      exact .refl
  | ends =>
      rw [World.goAppend] at hgo
      split at hgo
      · obtain rfl := Option.some.inj hgo
        exact .refl
      · obtain ⟨b, -, rfl⟩ := Option.map_eq_some_iff.mp hgo
        exact .refl
  | tail b =>
      obtain ⟨w₁, hlock, rfl⟩ := Option.map_eq_some_iff.mp hgo
      obtain ⟨-, rfl⟩ := lockArc_eq_some.mp hlock
      exact .refl
  | next b =>
      obtain ⟨b', htail, rfl⟩ := Option.map_eq_some_iff.mp hgo
      -- the arc at the end of the list has no link
      have hold := hlisted.held h.nodes (holdsNode_of_ne hi (by simp))
        (fun J hw => by rw [hi] at hw; exact hw) hn I
      obtain ⟨init, hinit⟩ := List.getLast?_eq_some_iff.mp (hold.tail.symm.trans htail)
      have hmem : b' ∈ L I (I.endOf s t) := List.mem_of_getLast? (hold.tail.symm.trans htail)
      have hlinked := hold.linked
      rw [hinit] at hlinked
      exact linksGrow_setNext (hlisted.mem_lt hmem) hlinked.rest
  | last b =>
      obtain rfl := Option.some.inj hgo
      exact linksGrow_setTail
  | unlockArc b =>
      obtain rfl := Option.some.inj hgo
      exact .refl
  | first =>
      obtain rfl := Option.some.inj hgo
      obtain ⟨rfl, hhead⟩ := hat
      cases byNode with
      | true => exact linksGrow_setHeadOut hn hhead
      | false => exact linksGrow_setTail
  | second =>
      obtain rfl := Option.some.inj hgo
      obtain ⟨rfl, -, hend⟩ := hat
      cases byNode with
      | true => exact linksGrow_setTail
      | false => exact linksGrow_setHeadOut hn hend.1
  | unlockNode => cases hgo

/-- A lock that is free stays so when one is given back. -/
private theorem free_update {lock : Nat → Option τ} (hfree : lock b = none) (a : Nat) :
    Function.update lock a none b = none := by
  by_cases hba : b = a
  · rw [hba, Function.update_self]
  · rw [Function.update_of_ne hba, hfree]

/-- An append takes the lock of the arc that it waits for, and no other. -/
theorem arcLock_goAppend {byNode : Bool} {pc : Pc} {y : World τ A N × Pc}
    (hgo : w.goAppend i byNode I n a pc = some y) (hfree : w.arcLock b = none) :
    y.1.arcLock b = none ∨ pc = .tail b := by
  cases pc with
  | node =>
      obtain ⟨w₁, hlock, rfl⟩ := Option.map_eq_some_iff.mp hgo
      obtain ⟨-, rfl⟩ := lockNode_eq_some.mp hlock
      exact Or.inl hfree
  | ends =>
      rw [World.goAppend] at hgo
      split at hgo
      · obtain rfl := Option.some.inj hgo
        exact Or.inl hfree
      · obtain ⟨b', -, rfl⟩ := Option.map_eq_some_iff.mp hgo
        exact Or.inl hfree
  | tail b' =>
      obtain ⟨w₁, hlock, rfl⟩ := Option.map_eq_some_iff.mp hgo
      obtain ⟨-, rfl⟩ := lockArc_eq_some.mp hlock
      by_cases hb : b = b'
      · exact Or.inr (congrArg Pc.tail hb.symm)
      · exact Or.inl ((Function.update_of_ne hb _ _).trans hfree)
  | next b' =>
      obtain ⟨c, -, rfl⟩ := Option.map_eq_some_iff.mp hgo
      exact Or.inl hfree
  | unlockArc b' =>
      obtain rfl := Option.some.inj hgo
      exact Or.inl (free_update hfree b')
  | last b' =>
      obtain rfl := Option.some.inj hgo
      exact Or.inl hfree
  | first =>
      obtain rfl := Option.some.inj hgo
      exact Or.inl hfree
  | second =>
      obtain rfl := Option.some.inj hgo
      exact Or.inl hfree
  | unlockNode => cases hgo

variable [DecidableEq τ]

/-- Every step of a thread that adds does so. -/
theorem Inv.linksGrow_go (h : w.Inv) (hgo : w.go i = some w') : LinksGrow w.tree w'.tree := by
  cases hi : w.thread i with
  | idle =>
      rw [World.go, hi] at hgo
      cases hgo
  | makeNode s a e =>
      rw [World.go, hi] at hgo
      obtain rfl := Option.some.inj hgo
      exact linksGrow_emplaceNode e
  | setEnds s t a =>
      rw [World.go, hi] at hgo
      obtain rfl := Option.some.inj hgo
      exact linksGrow_setSourceTarget s t
  | unlockNew s t a =>
      rw [World.go, hi] at hgo
      obtain rfl := Option.some.inj hgo
      exact .refl
  | append byNode I s t a pc =>
      by_cases hpc : pc = .unlockNode
      · subst hpc
        rw [World.go, hi] at hgo
        obtain rfl := Option.some.inj hgo
        exact .refl
      · rw [go_append hi hpc] at hgo
        obtain ⟨y, hy, rfl⟩ := Option.map_eq_some_iff.mp hgo
        exact h.linksGrow_append hi hy

/-- What is begun is on no list yet. The arc it locks is a new one. -/
theorem linksGrow_begin {y : Add A N} (hbegin : w.begin i y = some w') :
    LinksGrow w.tree w'.tree ∧ ∀ b, b < w.tree.arcNum → w'.arcLock b = w.arcLock b := by
  cases y with
  | arc s t d =>
      rw [World.begin] at hbegin
      split at hbegin
      · obtain rfl := Option.some.inj hbegin
        exact ⟨linksGrow_emplaceArc rfl rfl, fun _ _ => rfl⟩
      · cases hbegin
  | node s d e o o' =>
      rw [World.begin] at hbegin
      split at hbegin
      · obtain ⟨w₁, hlock, rfl⟩ := Option.map_eq_some_iff.mp hbegin
        obtain ⟨-, rfl⟩ := lockArc_eq_some.mp hlock
        exact ⟨linksGrow_emplaceArc rfl rfl, fun b hb => Function.update_of_ne hb.ne _ _⟩
      · cases hbegin

/-- Nor does any other step of a thread that adds. -/
theorem arcLock_go (hgo : w.go i = some w') (hfree : w.arcLock b = none) :
    w'.arcLock b = none ∨ ∃ byNode I s t a, w.thread i = .append byNode I s t a (.tail b) := by
  cases hi : w.thread i with
  | idle =>
      rw [World.go, hi] at hgo
      cases hgo
  | makeNode s a e =>
      rw [World.go, hi] at hgo
      obtain rfl := Option.some.inj hgo
      exact Or.inl hfree
  | setEnds s t a =>
      rw [World.go, hi] at hgo
      obtain rfl := Option.some.inj hgo
      exact Or.inl hfree
  | unlockNew s t a =>
      rw [World.go, hi] at hgo
      obtain rfl := Option.some.inj hgo
      exact Or.inl (free_update hfree a)
  | append byNode I s t a pc =>
      by_cases hpc : pc = .unlockNode
      · subst hpc
        rw [World.go, hi] at hgo
        obtain rfl := Option.some.inj hgo
        exact Or.inl hfree
      · rw [go_append hi hpc] at hgo
        obtain ⟨y, hy, rfl⟩ := Option.map_eq_some_iff.mp hgo
        rcases arcLock_goAppend hy hfree with hsame | rfl
        · exact Or.inl hsame
        · exact Or.inr ⟨_, _, _, _, _, rfl⟩

end World

end MctsConnectFour.Digraph.Tree
