/-
A rooted tree kept by references both ways: every node has a list of its
children, and every node but the root a reference to its parent. Nodes
are numbers, and a child is younger than its parent.

# Accounts

Every node has two amounts, `a` for what it takes in and `b` for what it
hands to its parent. `excess` is what a node has taken in beyond what its
children have handed on. A walk from a node to the root that adds to both
amounts of every node it visits, and hands a parent what the child on the
walk takes to hand on, raises the excess of the node it starts from and no
other. `Carried` says so in the middle of the walk, when the node the
walk has come to is still to be credited: `Carried.step` is one turn of
the walk, and nothing else is needed of it.
-/
import Mathlib.Algebra.BigOperators.Group.List.Basic
import Mathlib.Algebra.Group.Basic
import Mathlib.Tactic.Abel
import Mathlib.Tactic.Common

namespace RootedTree

/-- References from children to parents and back, one for each arc. -/
structure Linked (parent : Nat → Option Nat) (children : Nat → List Nat) : Prop where
  mem_iff : ∀ {p c}, c ∈ children p ↔ parent c = some p
  nodup : ∀ p, (children p).Nodup
  lt : ∀ {p c}, parent c = some p → p < c

variable {parent : Nat → Option Nat} {children : Nat → List Nat}

/-- A node that is nobody's child can be given a parent that is older. -/
theorem Linked.addChild (h : Linked parent children) {p c : Nat} (hp : p < c)
    (hc : parent c = none) :
    Linked (Function.update parent c (some p))
      (Function.update children p (children p ++ [c])) where
  mem_iff := by
    intro q d
    by_cases hq : q = p
    · subst hq
      rw [Function.update_self, List.mem_append, List.mem_singleton, h.mem_iff]
      by_cases hd : d = c
      · subst hd
        simp
      · simp [hd]
    · rw [Function.update_of_ne hq, h.mem_iff]
      by_cases hd : d = c
      · subst hd
        simp [hc, Ne.symm hq]
      · rw [Function.update_of_ne hd]
  nodup := by
    intro q
    by_cases hq : q = p
    · subst hq
      have hfresh : c ∉ children q := by
        simp [h.mem_iff, hc]
      rw [Function.update_self]
      refine List.nodup_append.mpr ⟨h.nodup q, by simp, ?_⟩
      intro x hx y hy
      rw [List.mem_singleton.mp hy]
      exact ne_of_mem_of_not_mem hx hfresh
    · rw [Function.update_of_ne hq]
      exact h.nodup q
  lt := by
    intro q d hd
    by_cases hdc : d = c
    · subst hdc
      rw [Function.update_self] at hd
      obtain rfl := Option.some.inj hd
      exact hp
    · rw [Function.update_of_ne hdc] at hd
      exact h.lt hd

-- ============================================================ accounts

section Accounts

variable {A : Type*} [AddCommGroup A]

/-- What a node has taken in beyond what its children have handed on. -/
def excess (children : Nat → List Nat) (a b : Nat → A) (n : Nat) : A :=
  a n - ((children n).map b).sum

/-- Crediting one entry of a list of distinct ones. -/
theorem sum_map_update (b : Nat → A) (c : Nat) (y : A) :
    ∀ {l : List Nat}, l.Nodup →
      (l.map (Function.update b c (b c + y))).sum = (l.map b).sum + if c ∈ l then y else 0 := by
  intro l
  induction l with
  | nil => simp
  | cons x l ih =>
      intro hl
      obtain ⟨hx, hl⟩ := List.nodup_cons.mp hl
      rw [List.map_cons, List.sum_cons, ih hl, List.map_cons, List.sum_cons]
      by_cases hc : c = x
      · subst hc
        simp only [Function.update_self, hx, List.mem_cons_self, if_true, if_false]
        abel
      · rw [Function.update_of_ne (Ne.symm hc)]
        simp only [List.mem_cons, hc, false_or]
        abel

/-- Crediting a node changes its own excess and that of its parent. -/
theorem excess_update (h : Linked parent children) (a b : Nat → A) (c : Nat) (x y : A) (n : Nat) :
    excess children (Function.update a c (a c + x)) (Function.update b c (b c + y)) n
      = excess children a b n + (if c = n then x else 0)
        - (if parent c = some n then y else 0) := by
  have ha : Function.update a c (a c + x) n = a n + if c = n then x else 0 := by
    by_cases hc : c = n
    · subst hc
      simp
    · simp [Function.update_of_ne (Ne.symm hc), hc]
  rw [excess, excess, ha, sum_map_update b c y (h.nodup n), if_congr h.mem_iff rfl rfl]
  abel

/-- A new child without any amounts changes no excess. -/
theorem excess_addChild {a b : Nat → A} {p c : Nat} (hc : b c = 0) (n : Nat) :
    excess (Function.update children p (children p ++ [c])) a b n = excess children a b n := by
  by_cases hn : n = p
  · subst hn
    simp [excess, hc]
  · simp [excess, Function.update_of_ne hn]

/-- The walk started from `origin` with the amounts `a₀` and `b₀`, has come
to `cursor`, and credits a node `n` with `x n`. -/
def Carried (children : Nat → List Nat) (a₀ b₀ : Nat → A) (origin : Nat) (x : Nat → A)
    (a b : Nat → A) (cursor : Option Nat) : Prop :=
  ∀ n, excess children a b n + (if cursor = some n then x n else 0)
    = excess children a₀ b₀ n + if origin = n then x n else 0

variable {a₀ b₀ a b : Nat → A} {origin : Nat} {x : Nat → A} {c : Nat} {y : A}

theorem Carried.start (a₀ b₀ : Nat → A) (origin : Nat) (x : Nat → A) :
    Carried children a₀ b₀ origin x a₀ b₀ (some origin) := by
  intro n
  rw [if_congr Option.some_inj rfl rfl]

/-- One turn of the walk. What the node hands on is what its parent takes
in. -/
theorem Carried.step (h : Linked parent children)
    (hcarried : Carried children a₀ b₀ origin x a b (some c))
    (hy : ∀ p, parent c = some p → y = x p) :
    Carried children a₀ b₀ origin x (Function.update a c (a c + x c))
      (Function.update b c (b c + y)) (parent c) := by
  intro n
  have hxy : (if parent c = some n then y else 0) = if parent c = some n then x n else 0 := by
    by_cases hp : parent c = some n
    · rw [if_pos hp, if_pos hp, hy n hp]
    · rw [if_neg hp, if_neg hp]
  have hxc : (if some c = some n then x n else 0) = if c = n then x c else 0 := by
    by_cases hn : c = n
    · subst hn
      simp
    · simp [hn]
  have hbefore := hcarried n
  rw [hxc] at hbefore
  rw [excess_update h, hxy, ← hbefore]
  abel

/-- When the walk is over only the node it started from has taken in more
than it has been handed. -/
theorem Carried.done (hcarried : Carried children a₀ b₀ origin x a b none) (n : Nat) :
    excess children a b n = excess children a₀ b₀ n + if origin = n then x n else 0 := by
  simpa using hcarried n

end Accounts

end RootedTree
