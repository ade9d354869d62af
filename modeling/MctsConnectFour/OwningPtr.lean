/-
`llvm::OwningPtr` (owningptr.hpp), which holds the transposition table of
an `Mcts` and the pool of its moves. `OwningArrayPtr` is the same with
`delete [ ]`.

A pointer is null or to an object. `held` are the objects the program has
raw pointers to that no `OwningPtr` answers for: made by `new` and not yet
handed over, or taken back by `take ( )`. `made` and `deleted` are the
books; an object that has been deleted may be made again at its address.

`Allowed` is the contract: what is handed over is `held`, and a variable
is used while it exists. `OwningPtr` has no copies, so this is all that a
program can get wrong.
-/
import Mathlib.Data.List.Nodup
import Mathlib.Logic.Function.Basic
import MctsConnectFour.Lib.Ownership

namespace MctsConnectFour.OwningPtr

open Ownership (Owned Ledger)

variable {ι Obj : Type} [DecidableEq ι] [DecidableEq Obj]

/-- The variables of type `OwningPtr` that exist, with their `Ptr`, and
the books. -/
structure Heap (ι Obj : Type) where
  ptr : ι → Option (Option Obj)
  held : List Obj
  made : List Obj
  deleted : List Obj

namespace Heap

/-- At the start of a program. -/
def empty : Heap ι Obj := ⟨fun _ => none, [], [], []⟩

variable (h : Heap ι Obj)

/-- `Ptr` of variable `i` is assigned, or the variable is gone. -/
def put (i : ι) (P : Option (Option Obj)) : Heap ι Obj :=
  { h with ptr := Function.update h.ptr i P }

/-- `delete P`. -/
def delete (P : Option Obj) : Heap ι Obj := { h with deleted := P.toList ++ h.deleted }

/-- The program has handed over `P`. -/
def handOver (P : Option Obj) : Heap ι Obj := { h with held := h.held.filter fun a => P ≠ some a }

end Heap

/-- What a program does. -/
inductive Op (ι Obj : Type) where
  | new (a : Obj)
  | construct (i : ι) (P : Option Obj)
  | destroy (i : ι)
  | reset (i : ι) (P : Option Obj)
  | take (i : ι)
  | swap (i j : ι)

/-- And what comes of it. -/
def Op.run (h : Heap ι Obj) : Op ι Obj → Heap ι Obj
  | new a =>
      { h with
        held := a :: h.held
        made := a :: h.made }
  | construct i P => (h.handOver P).put i (some P)
  | destroy i =>
      match h.ptr i with
      | some Ptr => (h.delete Ptr).put i none
      | none => h
  | reset i P =>
      match h.ptr i with
      | some Ptr => if P = Ptr then h else ((h.put i (some P)).delete Ptr).handOver P
      | none => h
  | take i =>
      match h.ptr i with
      | some Ptr =>
          { h.put i (some none) with
            held := Ptr.toList ++ h.held }
      | none => h
  | swap i j =>
      match h.ptr i, h.ptr j with
      | some Ptr, some Tmp => (h.put j (some Ptr)).put i (some Tmp)
      | _, _ => h

/-- Who answers for an object: a variable, or the program itself. -/
def Heap.own (h : Heap ι Obj) : Option ι → Obj → Prop
  | some i, a => h.ptr i = some (some a)
  | none, a => a ∈ h.held

/-- The objects somebody answers for. -/
def Heap.out (h : Heap ι Obj) (a : Obj) : Prop := ∃ k, h.own k a

/-- The contract of the class, and of `new`. -/
def Allowed (h : Heap ι Obj) : Op ι Obj → Prop
  | .new a => ¬ h.out a
  | .construct i P => h.ptr i = none ∧ ∀ a, P = some a → a ∈ h.held
  | .destroy i => h.ptr i ≠ none
  | .reset i P => ∃ Ptr, h.ptr i = some Ptr ∧ (P = Ptr ∨ ∀ a, P = some a → a ∈ h.held)
  | .take i => h.ptr i ≠ none
  | .swap i j => h.ptr i ≠ none ∧ h.ptr j ≠ none

/-- The heaps of programs that keep the contract. -/
inductive Reached : Heap ι Obj → Prop
  | start : Reached .empty
  | step {h : Heap ι Obj} {o : Op ι Obj} : Reached h → Allowed h o → Reached (o.run h)

-- =========================================================== invariant

/-- Every object has one owner, and the books are right. -/
structure Inv (h : Heap ι Obj) : Prop where
  owned : Owned h.own h.out
  ledger : Ledger h.made h.deleted h.out
  nodup : h.held.Nodup

variable {h : Heap ι Obj} {i j : ι} {a : Obj} {P Q : Option Obj}

omit [DecidableEq ι] in
theorem mem_handOver : a ∈ (h.handOver P).held ↔ a ∈ h.held ∧ P ≠ some a := by
  simp [Heap.handOver]

omit [DecidableEq Obj] in
theorem own_put (h : Heap ι Obj) (i : ι) (P : Option (Option Obj)) (k : Option ι) (b : Obj) :
    (h.put i P).own k b ↔ if k = some i then P = some (some b) else h.own k b := by
  cases k with
  | none => simp [Heap.own, Heap.put]
  | some j =>
      by_cases hji : j = i
      · subst hji
        simp [Heap.own, Heap.put]
      · simp [Heap.own, Heap.put, hji]

/-- `new` makes an object that is held. -/
theorem Inv.new (hI : Inv h) (ha : ¬ h.out a) : Inv (Op.run h (.new a)) := by
  have hown : ∀ k b, (Op.run h (.new a)).own k b ↔ h.own k b ∨ k = none ∧ b = a := by
    intro k b
    cases k with
    | none => simp [Op.run, Heap.own, or_comm]
    | some i => simp [Op.run, Heap.own]
  constructor
  case owned => exact hI.owned.take ha hown (Ownership.out_take hown)
  case ledger => exact hI.ledger.take ha (Ownership.out_take hown)
  case nodup => exact List.nodup_cons.mpr ⟨fun hmem => ha ⟨none, hmem⟩, hI.nodup⟩

/-- A variable that is gone or null afterwards has deleted its object. -/
theorem Inv.drop (hI : Inv h) (hi : h.ptr i = some Q) {R : Option (Option Obj)}
    (hR : ∀ a, R ≠ some (some a)) : Inv ((h.delete Q).put i R) := by
  have hown : ∀ k b, ((h.delete Q).put i R).own k b ↔ h.own k b ∧ ¬ Q = some b := by
    intro k b
    rw [own_put]
    by_cases hk : k = some i
    · rw [if_pos hk]
      refine iff_of_false (hR b) ?_
      intro hb
      subst hk
      exact hb.2 (Option.some.inj (hi.symm.trans hb.1))
    · rw [if_neg hk]
      constructor
      · intro hb
        refine ⟨hb, fun hQ => hk (hI.owned.unique hb ?_)⟩
        show h.ptr i = some (some b)
        rw [hi, hQ]
      · exact And.left
  constructor
  case owned => exact hI.owned.release _ hown (Ownership.out_release hown)
  case ledger =>
    refine hI.ledger.release (l := Q.toList) (fun b hb => ?_) ?_ (fun b => ?_)
    · rw [Option.mem_toList] at hb
      exact ⟨some i, hi.trans (congrArg some hb)⟩
    · cases Q <;> simp
    · rw [Heap.out, Ownership.out_release hown, Option.mem_toList]
      rfl
  case nodup => exact hI.nodup

/-- A variable without an object takes over one that is held. -/
theorem Inv.fill (hI : Inv h) (hi : ∀ a, h.ptr i ≠ some (some a))
    (hP : ∀ a, P = some a → a ∈ h.held) : Inv ((h.handOver P).put i (some P)) := by
  cases P with
  | none =>
      have hown : ∀ k b, ((h.handOver none).put i (some none)).own k b ↔ h.own k b := by
        intro k b
        rw [own_put]
        by_cases hk : k = some i
        · subst hk
          rw [if_pos rfl]
          exact iff_of_false (by simp) (hi b)
        · rw [if_neg hk]
          cases k with
          | none => simp [Heap.own, Heap.handOver]
          | some j => exact Iff.rfl
      have hout : ∀ b, ((h.handOver none).put i (some none)).out b ↔ h.out b :=
        fun b => exists_congr fun k => hown k b
      exact ⟨hI.owned.congr hown hout, hI.ledger.congr hout, hI.nodup.filter _⟩
  | some a =>
      have ha : h.own none a := hP a rfl
      have hown : ∀ k b, ((h.handOver (some a)).put i (some (some a))).own k b
          ↔ h.own k b ∧ b ≠ a ∨ k = some i ∧ b = a := by
        intro k b
        rw [own_put]
        by_cases hk : k = some i
        · subst hk
          have hnot : ¬ h.own (some i) b := hi b
          simp [hnot, eq_comm]
        · rw [if_neg hk]
          cases k with
          | none =>
              have hcomm : some a ≠ some b ↔ b ≠ a := by rw [Ne, Option.some_inj, ne_comm]
              have hnot : ¬ ((none : Option ι) = some i ∧ b = a) := fun heq => hk heq.1
              rw [or_iff_left hnot, ← hcomm]
              exact mem_handOver
          | some j =>
              have hne : h.own (some j) b → b ≠ a := by
                intro hb heq
                subst heq
                cases hI.owned.unique ha hb
              simp only [hk, false_and, or_false]
              exact ⟨fun hb => ⟨hb, hne hb⟩, And.left⟩
      have hout := Ownership.out_move ha hown
      exact ⟨hI.owned.move ha hown hout, hI.ledger.congr hout, hI.nodup.filter _⟩

/-- `take ( )`. -/
theorem Inv.take (hI : Inv h) (hi : h.ptr i = some Q) :
    Inv { h.put i (some none) with held := Q.toList ++ h.held } := by
  cases Q with
  | none =>
      have hsame :
          { h.put i (some none) with held := (none : Option Obj).toList ++ h.held } = h := by
        simp only [Heap.put, Option.toList_none, List.nil_append]
        rw [← hi, Function.update_eq_self]
      rw [hsame]
      exact hI
  | some a =>
      have ha : h.own (some i) a := hi
      have hfree : a ∉ h.held := by
        intro hmem
        cases hI.owned.unique ha (show h.own none a from hmem)
      have hown : ∀ k b, ({ h.put i (some none) with held := [a] ++ h.held } : Heap ι Obj).own k b
          ↔ h.own k b ∧ b ≠ a ∨ k = none ∧ b = a := by
        intro k b
        cases k with
        | none =>
            have hne : b ∈ h.held → b ≠ a := fun hb heq => hfree (heq ▸ hb)
            simp only [Heap.own, List.singleton_append, List.mem_cons, true_and]
            tauto
        | some j =>
            show (h.put i (some none)).own (some j) b ↔ _
            rw [own_put]
            by_cases hj : j = i
            · subst hj
              simp [Heap.own, hi, eq_comm]
            · have hne : h.own (some j) b → b ≠ a := by
                intro hb heq
                subst heq
                exact hj (Option.some.inj (hI.owned.unique hb ha))
              rw [if_neg (fun heq => hj (Option.some.inj heq))]
              constructor
              · exact fun hb => Or.inl ⟨hb, hne hb⟩
              · intro hb
                rcases hb with hb | ⟨hnone, -⟩
                · exact hb.1
                · cases hnone
      have hout := Ownership.out_move ha hown
      exact ⟨hI.owned.move ha hown hout, hI.ledger.congr hout,
        List.nodup_cons.mpr ⟨hfree, hI.nodup⟩⟩

/-- `swap ( )`, also of a variable with itself. -/
theorem Inv.swap (hI : Inv h) (hi : h.ptr i = some P) (hj : h.ptr j = some Q) :
    Inv ((h.put j (some P)).put i (some Q)) := by
  have hown : ∀ k b, ((h.put j (some P)).put i (some Q)).own k b
      ↔ h.own (Equiv.swap (some i) (some j) k) b := by
    intro k b
    rw [own_put, own_put]
    by_cases hki : k = some i
    · subst hki
      rw [if_pos rfl, Equiv.swap_apply_left]
      simp [Heap.own, hj]
    · by_cases hkj : k = some j
      · subst hkj
        rw [if_neg hki, if_pos rfl, Equiv.swap_apply_right]
        simp [Heap.own, hi]
      · rw [if_neg hki, if_neg hkj, Equiv.swap_apply_of_ne_of_ne hki hkj]
  have hout : ∀ b, ((h.put j (some P)).put i (some Q)).out b ↔ h.out b := by
    intro b
    rw [Heap.out, Heap.out]
    simp only [hown]
    exact ((Equiv.swap (some i) (some j)).surjective.exists (p := fun k => h.own k b)).symm
  exact ⟨hI.owned.permute _ hown hout, hI.ledger.congr hout, hI.nodup⟩

-- ================================================================ runs

/-- Every operation of the contract keeps the invariant. -/
theorem Inv.step (hI : Inv h) {op : Op ι Obj} (hop : Allowed h op) : Inv (op.run h) := by
  cases op with
  | new a => exact hI.new hop
  | construct i P =>
      exact hI.fill (fun a => by rw [hop.1]; exact fun heq => by cases heq) hop.2
  | destroy i =>
      obtain ⟨Ptr, hi⟩ := Option.ne_none_iff_exists'.mp hop
      simp only [Op.run, hi]
      exact hI.drop hi fun a heq => by cases heq
  | reset i P =>
      obtain ⟨Ptr, hi, hP⟩ := hop
      simp only [Op.run, hi]
      by_cases heq : P = Ptr
      · rw [if_pos heq]
        exact hI
      · rw [if_neg heq]
        -- the old object goes, then the new one is taken over
        have hdropped := hI.drop hi (R := some none) fun a heq => by cases heq
        have hnull : ((h.delete Ptr).put i (some none)).ptr i = some none := by simp [Heap.put]
        have hfilled := hdropped.fill (i := i)
          (fun a => by rw [hnull]; exact fun heq => by cases heq) (hP.resolve_left heq)
        have hsame : ((h.put i (some P)).delete Ptr).handOver P
            = ((((h.delete Ptr).put i (some none)).handOver P).put i (some P)) := by
          simp only [Heap.put, Heap.delete, Heap.handOver, Function.update_idem]
        rw [hsame]
        exact hfilled
  | take i =>
      obtain ⟨Ptr, hi⟩ := Option.ne_none_iff_exists'.mp hop
      simp only [Op.run, hi]
      exact hI.take hi
  | swap i j =>
      obtain ⟨P, hi⟩ := Option.ne_none_iff_exists'.mp hop.1
      obtain ⟨Q, hj⟩ := Option.ne_none_iff_exists'.mp hop.2
      simp only [Op.run, hi, hj]
      exact hI.swap hi hj

theorem Reached.inv (hr : Reached h) : Inv h := by
  induction hr with
  | start =>
      have hnone : ∀ (k : Option ι) (a : Obj), ¬ (Heap.empty : Heap ι Obj).own k a := by
        intro k a hk
        cases k with
        | none => cases hk
        | some i => cases hk
      have hout : ∀ a, ¬ (Heap.empty : Heap ι Obj).out a := fun a ha => hnone _ a ha.choose_spec
      exact ⟨⟨fun _ => Iff.rfl, fun hi _ => absurd hi (hnone _ _)⟩, Ownership.ledger_nil hout,
        List.nodup_nil⟩
  | step _ hop ih => exact ih.step hop

/-- A variable is given an object and reset to another. -/
def resetOnce : Heap Unit Nat :=
  [Op.new 1, .construct () (some 1), .new 2, .reset () (some 2)].foldl Op.run .empty

theorem reached_resetOnce : Reached resetOnce := by
  have hfirst : Reached (Op.run .empty (.new 1) : Heap Unit Nat) :=
    .step .start fun hout => by
      obtain ⟨k, hk⟩ := hout
      cases k <;> cases hk
  have hsecond := hfirst.step (o := .construct () (some 1)) ⟨rfl, fun a ha => by simp_all [Op.run]⟩
  have hthird := hsecond.step (o := .new 2) (by
    intro hout
    obtain ⟨k, hk⟩ := hout
    cases k with
    | none => cases hk
    | some i => simp [Heap.own, Op.run, Heap.put, Heap.handOver] at hk)
  exact hthird.step (o := .reset () (some 2)) ⟨some 1, rfl, Or.inr fun a ha => by
    obtain rfl := Option.some.inj ha
    exact List.mem_cons_self ..⟩

end MctsConnectFour.OwningPtr
