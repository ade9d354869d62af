/-
Threads that add to the older tree come to an end.

A thread that cannot make its next step waits for a lock that another
thread has (`Inv.go_or_waits`). Who waits for a node holds nothing, who
waits for an arc holds a node only, and who holds an arc does not wait; so
some thread can get on (`Locks.exists_not_waiting`, with `Thread.rank`).
And every step leaves the thread less to do (`Thread.left`).
-/
import MctsConnectFour.Digraph.Interleaved
import Mathlib.Algebra.BigOperators.Group.Finset.Basic
import Mathlib.Algebra.Order.BigOperators.Group.Finset

namespace MctsConnectFour.Digraph.Tree

open Chain (Threaded)

variable {A N : Type} {I : ItType} {a b n : Nat}

-- ============================================================= measures

/-- How much of an append is left. -/
def Pc.left : Pc → Nat
  | node => 7
  | ends => 6
  | tail _ => 5
  | next _ => 4
  | last _ => 3
  | unlockArc _ => 2
  | first => 3
  | second => 2
  | unlockNode => 1

/-- How much a thread has left to do. -/
def Thread.left : Thread N → Nat
  | idle => 0
  | makeNode _ _ _ => 10
  | setEnds _ _ _ => 9
  | unlockNew _ _ _ => 8
  | append _ I _ _ _ pc => pc.left + if I = .ins then 7 else 0

/-- What a thread may wait for: a node, an arc, nothing. -/
def Thread.rank : Thread N → Nat
  | append _ _ _ _ _ .node => 2
  | append _ _ _ _ _ (.tail _) => 1
  | _ => 0

namespace World

variable {τ : Type} {w w' : World τ A N} {i j : τ}

/-- A thread waits for a lock that another has. -/
def Waits (w : World τ A N) (i j : τ) : Prop :=
  match w.thread i with
  | .append _ I s t _ .node => w.nodeLock (I.endOf s t) = some j
  | .append _ _ _ _ _ (.tail b) => w.arcLock b = some j
  | _ => False

/-- An append that gets on has less to do. -/
theorem left_goAppend {byNode : Bool} {pc : Pc} {y : World τ A N × Pc}
    (hgo : w.goAppend i byNode I n a pc = some y) : y.2.left < pc.left := by
  cases pc with
  | node =>
      obtain ⟨w₁, -, rfl⟩ := Option.map_eq_some_iff.mp hgo
      simp [Pc.left]
  | ends =>
      rw [World.goAppend] at hgo
      split at hgo
      · obtain rfl := Option.some.inj hgo
        simp [Pc.left]
      · obtain ⟨b, -, rfl⟩ := Option.map_eq_some_iff.mp hgo
        simp [Pc.left]
  | tail b =>
      obtain ⟨w₁, -, rfl⟩ := Option.map_eq_some_iff.mp hgo
      simp [Pc.left]
  | next b =>
      obtain ⟨b', -, rfl⟩ := Option.map_eq_some_iff.mp hgo
      simp [Pc.left]
  | last b =>
      obtain rfl := Option.some.inj hgo
      simp [Pc.left]
  | unlockArc b =>
      obtain rfl := Option.some.inj hgo
      simp [Pc.left]
  | first =>
      obtain rfl := Option.some.inj hgo
      simp [Pc.left]
  | second =>
      obtain rfl := Option.some.inj hgo
      simp [Pc.left]
  | unlockNode => cases hgo

-- ============================================================= progress

/-- A list that is about to be appended to has an end, unless it is an
out-list with no front. -/
theorem Inv.tail_ne_none (h : w.Inv) {byNode : Bool} {s t : Nat}
    (hi : w.thread i = .append byNode I s t a .ends)
    (hopen : ¬ (I = .outs ∧ w.tree.headOut (I.endOf s t) = none)) :
    w.tree.tail I (I.endOf s t) ≠ none := by
  obtain ⟨L, E, hlisted⟩ := h.listed
  obtain ⟨-, hn⟩ := hlisted.endOf_lt hi
  have hold := hlisted.held h.nodes (holdsNode_of_ne hi (by simp))
    (fun J hw => by rw [hi] at hw; exact hw) hn I
  have hne : L I (I.endOf s t) ≠ [] := by
    intro hnil
    cases I with
    | ins => exact hlisted.some_in hn hnil
    | outs =>
        refine hopen ⟨rfl, ?_⟩
        have hlinked := hold.linked
        rw [hnil] at hlinked
        exact hlinked
  rw [hold.tail]
  exact mt List.getLast?_eq_none_iff.mp hne

/-- Who has what another waits for waits for less, and is not done. -/
theorem Inv.waits (h : w.Inv) (hw : w.Waits i j) :
    (w.thread j).rank < (w.thread i).rank ∧ w.thread j ≠ .idle := by
  rw [Waits] at hw
  split at hw
  · rename_i byNode I s t a hi
    have hholds := (h.nodes _ j).mp hw
    rw [hi]
    cases hj : w.thread j with
    | append byNode' J s' t' b pc =>
        rw [hj] at hholds
        refine ⟨?_, by simp⟩
        cases pc with
        | node => exact absurd rfl hholds.1
        | _ => simp [Thread.rank]
    | _ =>
        rw [hj] at hholds
        exact hholds.elim
  · rename_i byNode I s t a b hi
    have hholds := (h.arcs _ j).mp hw
    rw [hi]
    cases hj : w.thread j with
    | append byNode' J s' t' c pc =>
        rw [hj] at hholds
        refine ⟨?_, by simp⟩
        cases pc with
        | node => exact hholds.elim
        | tail b' => exact hholds.elim
        | _ => simp [Thread.rank]
    | idle =>
        rw [hj] at hholds
        exact hholds.elim
    | _ => exact ⟨by simp [Thread.rank], by simp⟩
  · exact hw.elim

variable [DecidableEq τ]

/-- An append gets on, or waits for another thread. -/
theorem Inv.goAppend_or_waits (h : w.Inv) {byNode : Bool} {s t : Nat} {pc : Pc}
    (hi : w.thread i = .append byNode I s t a pc) (hpc : pc ≠ .unlockNode) :
    (∃ y, w.goAppend i byNode I (I.endOf s t) a pc = some y) ∨ ∃ j, w.Waits i j := by
  cases pc with
  | node =>
      cases hlock : w.nodeLock (I.endOf s t) with
      | none =>
          exact Or.inl ⟨_, Option.map_eq_some_iff.mpr ⟨_, lockNode_eq_some.mpr ⟨hlock, rfl⟩, rfl⟩⟩
      | some j => exact Or.inr ⟨j, by rw [Waits, hi]; exact hlock⟩
  | ends =>
      left
      rw [World.goAppend]
      by_cases hopen : I = .outs ∧ w.tree.headOut (I.endOf s t) = none
      · exact ⟨_, if_pos hopen⟩
      · obtain ⟨c, hc⟩ := Option.ne_none_iff_exists'.mp (h.tail_ne_none hi hopen)
        rw [if_neg hopen, hc]
        exact ⟨_, rfl⟩
  | tail b =>
      cases hlock : w.arcLock b with
      | none =>
          exact Or.inl ⟨_, Option.map_eq_some_iff.mpr ⟨_, lockArc_eq_some.mpr ⟨hlock, rfl⟩, rfl⟩⟩
      | some j => exact Or.inr ⟨j, by rw [Waits, hi]; exact hlock⟩
  | next b =>
      obtain ⟨L, E, hlisted⟩ := h.listed
      rw [World.goAppend, (hlisted.next h.nodes hi).1]
      exact Or.inl ⟨_, rfl⟩
  | last b => exact Or.inl ⟨_, rfl⟩
  | unlockArc b => exact Or.inl ⟨_, rfl⟩
  | first => exact Or.inl ⟨_, rfl⟩
  | second => exact Or.inl ⟨_, rfl⟩
  | unlockNode => exact absurd rfl hpc

/-- A thread that is not done can make a step, or waits for another. -/
theorem Inv.go_or_waits (h : w.Inv) (hi : w.thread i ≠ .idle) :
    (∃ w', w.go i = some w') ∨ ∃ j, w.Waits i j := by
  cases hx : w.thread i with
  | idle => exact absurd hx hi
  | makeNode s a e => exact Or.inl ⟨_, by rw [World.go, hx]⟩
  | setEnds s t a => exact Or.inl ⟨_, by rw [World.go, hx]⟩
  | unlockNew s t a => exact Or.inl ⟨_, by rw [World.go, hx]⟩
  | append byNode I s t a pc =>
      by_cases hpc : pc = .unlockNode
      · subst hpc
        exact Or.inl ⟨_, by rw [World.go, hx]⟩
      · refine (h.goAppend_or_waits hx hpc).imp_left fun hgo => ?_
        obtain ⟨y, hy⟩ := hgo
        exact ⟨_, by rw [go_append hx hpc, hy]; rfl⟩

/-- Some thread can make a step until all are done. -/
theorem Inv.exists_go (h : w.Inv) (hi : w.thread i ≠ .idle) : ∃ j w', w.go j = some w' := by
  obtain ⟨j, hj, hfree⟩ := Locks.exists_not_waiting (W := w.Waits) (fun j => (w.thread j).rank)
    (fun _ _ hw => (h.waits hw).1) (p := fun j => w.thread j ≠ .idle)
    (fun _ _ hw => (h.waits hw).2) i hi
  rcases h.go_or_waits hj with hgo | ⟨k, hk⟩
  · exact ⟨j, hgo⟩
  · exact absurd hk (hfree k)

-- ========================================================= termination

/-- A thread that makes a step has less to do, the others as much. -/
theorem left_go (hgo : w.go i = some w') :
    ∃ x : Thread N, w'.thread = Function.update w.thread i x ∧ x.left < (w.thread i).left := by
  cases hi : w.thread i with
  | idle =>
      rw [World.go, hi] at hgo
      cases hgo
  | makeNode s a e =>
      rw [World.go, hi] at hgo
      obtain rfl := Option.some.inj hgo
      exact ⟨_, rfl, by simp [Thread.left]⟩
  | setEnds s t a =>
      rw [World.go, hi] at hgo
      obtain rfl := Option.some.inj hgo
      exact ⟨_, rfl, by simp [Thread.left]⟩
  | unlockNew s t a =>
      rw [World.go, hi] at hgo
      obtain rfl := Option.some.inj hgo
      exact ⟨_, rfl, by simp [Thread.left, Pc.left]⟩
  | append byNode I s t a pc =>
      by_cases hpc : pc = .unlockNode
      · subst hpc
        rw [World.go, hi] at hgo
        obtain rfl := Option.some.inj hgo
        refine ⟨_, rfl, ?_⟩
        cases I <;> simp [Thread.left, Pc.left]
      · rw [go_append hi hpc] at hgo
        obtain ⟨y, hy, rfl⟩ := Option.map_eq_some_iff.mp hgo
        refine ⟨.append byNode I s t a y.2, ?_, Nat.add_lt_add_right (left_goAppend hy) _⟩
        rw [← (goAppend_content hy).2]
        rfl

/-- How much all threads have left to do. -/
def work [Fintype τ] (w : World τ A N) : Nat := ∑ i, (w.thread i).left

theorem work_go [Fintype τ] (hgo : w.go i = some w') : w'.work < w.work := by
  obtain ⟨x, hx, hlt⟩ := left_go hgo
  refine Finset.sum_lt_sum (fun j _ => ?_) ⟨i, Finset.mem_univ i, ?_⟩
  · rw [hx]
    by_cases hji : j = i
    · subst hji
      rw [Function.update_self]
      exact hlt.le
    · rw [Function.update_of_ne hji]
  · rw [hx, Function.update_self]
    exact hlt

theorem work_goes [Fintype τ] {l : List τ} (hgoes : w.goes l = some w') :
    l.length + w'.work ≤ w.work := by
  induction l generalizing w with
  | nil =>
      obtain rfl := Option.some.inj hgoes
      exact Nat.le_of_eq (Nat.zero_add _)
  | cons i l ih =>
      rw [World.goes, List.foldlM_cons] at hgoes
      obtain ⟨w₁, hgo, hrest⟩ := Option.bind_eq_some_iff.mp hgoes
      have hlt := work_go hgo
      have hle := ih hrest
      rw [List.length_cons]
      omega

/-- Wherever threads have got to, they make no more than `work` steps in
whatever order, and if no thread can make a step all are done. A thread
that cannot, before it is done, waits for a lock that another has. -/
theorem adds_progress [Fintype τ] {g₀ : Tree A N} (hg : Wired g₀) {xs : List (Add A N)}
    (hr : Reached g₀ xs w) :
    (∀ l w', w.goes l = some w' → l.length ≤ w.work)
      ∧ ((∀ i, w.go i = none) → ∀ i, w.thread i = .idle)
      ∧ ∀ i, w.go i = none → w.thread i ≠ .idle → ∃ j, j ≠ i ∧ w.Waits i j := by
  have hinv := hr.inv hg
  refine ⟨fun l w' hgoes => ?_, fun hstuck i => ?_, fun i hstuck hi => ?_⟩
  · have hle := work_goes hgoes
    omega
  · by_contra hi
    obtain ⟨j, w', hgo⟩ := hinv.exists_go hi
    rw [hstuck j] at hgo
    cases hgo
  · rcases hinv.go_or_waits hi with ⟨w', hgo⟩ | ⟨j, hj⟩
    · rw [hstuck] at hgo
      cases hgo
    · refine ⟨j, fun hji => ?_, hj⟩
      have hlt := (hinv.waits hj).1
      rw [hji] at hlt
      exact lt_irrefl _ hlt

theorem adds_progress_bothBegun : ∃ w, bothBegun = some w
    ∧ (∀ l w', w.goes l = some w' → l.length ≤ w.work)
    ∧ ((∀ i, w.go i = none) → ∀ i, w.thread i = .idle)
    ∧ ∀ i, w.go i = none → w.thread i ≠ .idle → ∃ j, j ≠ i ∧ w.Waits i j := by
  obtain ⟨w, hw, hr⟩ := reached_bothBegun
  exact ⟨w, hw, adds_progress wired_new hr⟩

end World

end MctsConnectFour.Digraph.Tree
