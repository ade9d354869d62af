/-
The transposition table of mcts.hpp, a `std::unordered_map` from hashes
to nodes: entries with distinct hashes, in some order nothing depends
on.

`mapNodes` is the purge loop of `prune_impl`, which erases or rewrites
every entry in place, and `invert` is `invertTranspositionTable`. When
a table is a bijection between its hashes and the nodes below a bound
(`Bijective`), the inverse is in bounds and is the inverse.
-/
import Mathlib.Data.List.Nodup
import Mathlib.Data.UInt
import Mathlib.Tactic.Common

namespace MctsConnectFour

/-- `TranspositionTable`. -/
structure TranspositionTable where
  entries : List (UInt64 × Nat)
  nodup : (entries.map Prod.fst).Nodup

namespace TranspositionTable

/-- The empty table. -/
def new : TranspositionTable := ⟨[], List.nodup_nil⟩

/-- `find ( hash )`. -/
def find (T : TranspositionTable) (h : UInt64) : Option Nat :=
  (T.entries.find? fun e => e.1 == h).map Prod.snd

/-- `size ( )`. -/
def size (T : TranspositionTable) : Nat := T.entries.length

/-- `emplace ( hash, node )`: an entry that exists stays. -/
def emplace (T : TranspositionTable) (h : UInt64) (n : Nat) : TranspositionTable :=
  if hnew : h ∈ T.entries.map Prod.fst then T
  else ⟨(h, n) :: T.entries, List.nodup_cons.mpr ⟨hnew, T.nodup⟩⟩

/-- Erase the entries `f` drops and rewrite the nodes of the others. -/
def mapNodes (T : TranspositionTable) (f : Nat → Option Nat) : TranspositionTable where
  entries := T.entries.filterMap fun e => (f e.2).map fun n => (e.1, n)
  nodup := by
    refine T.nodup.sublist ?_
    induction T.entries with
    | nil => exact List.Sublist.slnil
    | cons e l ih =>
        cases hf : f e.2 with
        | none =>
            simp only [List.filterMap_cons, hf, Option.map_none, List.map_cons]
            exact ih.cons _
        | some n =>
            simp only [List.filterMap_cons, hf, Option.map_some, List.map_cons]
            exact ih.cons_cons _

/-- `invertTranspositionTable ( )`. -/
def invert (T : TranspositionTable) : List UInt64 :=
  T.entries.foldl (fun itt e => itt.set e.2 e.1) (List.replicate T.size 0)

variable (T : TranspositionTable)

theorem find_eq_some_iff (h : UInt64) (n : Nat) : T.find h = some n ↔ (h, n) ∈ T.entries := by
  unfold find
  rw [Option.map_eq_some_iff]
  constructor
  · intro hyp
    obtain ⟨⟨h', n'⟩, hfind, rfl⟩ := hyp
    have heq := List.find?_some hfind
    rw [beq_iff_eq] at heq
    rw [← heq]
    exact List.mem_of_find?_eq_some hfind
  · intro hmem
    cases hfind : T.entries.find? fun e => e.1 == h with
    | none =>
        have hne := List.find?_eq_none.mp hfind _ hmem
        rw [beq_iff_eq] at hne
        exact absurd rfl hne
    | some e =>
        have heq := List.find?_some hfind
        rw [beq_iff_eq] at heq
        have hinj := List.inj_on_of_nodup_map T.nodup (List.mem_of_find?_eq_some hfind) hmem heq
        exact ⟨e, rfl, congrArg Prod.snd hinj⟩

@[simp] theorem find_new (h : UInt64) : new.find h = none := rfl

theorem find_eq_none_iff (h : UInt64) : T.find h = none ↔ h ∉ T.entries.map Prod.fst := by
  rw [Option.eq_none_iff_forall_ne_some]
  simp only [ne_eq, find_eq_some_iff, List.mem_map, not_exists, not_and]
  exact ⟨fun hno e he heq => hno e.2 (heq ▸ he), fun hno n hmem => hno (h, n) hmem rfl⟩

/-- What is found after an entry was put in. -/
theorem find_emplace (h : UInt64) (n : Nat) (h' : UInt64) :
    (T.emplace h n).find h' = if h' = h ∧ T.find h = none then some n else T.find h' := by
  unfold emplace
  split
  · next hold =>
      rw [if_neg]
      intro hyp
      obtain ⟨-, hnone⟩ := hyp
      exact (T.find_eq_none_iff h).mp hnone hold
  · next hnew =>
      have hnone := (T.find_eq_none_iff h).mpr hnew
      by_cases heq : h' = h
      · subst heq
        rw [if_pos ⟨rfl, hnone⟩]
        simp [find]
      · rw [if_neg fun hand => heq hand.1]
        simp [find, beq_eq_false_iff_ne.mpr (Ne.symm heq)]

/-- What is found after a purge. -/
theorem find_mapNodes (f : Nat → Option Nat) (h : UInt64) :
    (T.mapNodes f).find h = (T.find h).bind f := by
  ext n
  rw [find_eq_some_iff, Option.bind_eq_some_iff]
  simp only [find_eq_some_iff, mapNodes, List.mem_filterMap, Option.map_eq_some_iff, Prod.mk.injEq]
  constructor
  · intro hyp
    obtain ⟨⟨h', n'⟩, hmem, k, hk, rfl, rfl⟩ := hyp
    exact ⟨n', hmem, hk⟩
  · intro hyp
    obtain ⟨k, hmem, hk⟩ := hyp
    exact ⟨(h, k), hmem, n, hk, rfl, rfl⟩

-- ============================================================ bijections

/-- The table matches hashes with the nodes below `num` one to one. -/
structure Bijective (num : Nat) : Prop where
  lt : ∀ h n, T.find h = some n → n < num
  inj : ∀ h h' n, T.find h = some n → T.find h' = some n → h = h'
  surj : ∀ n, n < num → ∃ h, T.find h = some n

section Bijective

variable {T} {num : Nat} (hT : T.Bijective num)

include hT

/-- The nodes of the entries are the nodes below the bound, once
each. -/
theorem Bijective.perm_range : (T.entries.map Prod.snd).Perm (List.range num) := by
  have hnodup : (T.entries.map Prod.snd).Nodup := by
    refine List.Nodup.map_on ?_ (List.Nodup.of_map _ T.nodup)
    intro e he e' he' heq
    have hfind := (T.find_eq_some_iff e.1 e.2).mpr he
    have hfind' := (T.find_eq_some_iff e'.1 e'.2).mpr he'
    rw [← heq] at hfind'
    exact Prod.ext (hT.inj _ _ _ hfind hfind') heq
  refine (List.perm_ext_iff_of_nodup hnodup List.nodup_range).mpr fun n => ?_
  rw [List.mem_range]
  constructor
  · intro hmem
    obtain ⟨e, he, rfl⟩ := List.mem_map.mp hmem
    exact hT.lt e.1 e.2 ((T.find_eq_some_iff _ _).mpr he)
  · intro hn
    obtain ⟨h, hfind⟩ := hT.surj n hn
    exact List.mem_map.mpr ⟨(h, n), (T.find_eq_some_iff _ _).mp hfind, rfl⟩

theorem Bijective.size_eq : T.size = num := by
  have hlen := hT.perm_range.length_eq
  rwa [List.length_map, List.length_range] at hlen

omit hT in
/-- Entries whose nodes do not occur in the list written leave their
slot alone. -/
private theorem getElem?_foldl_set_of_not_mem {n : Nat} :
    ∀ {l : List (UInt64 × Nat)} {itt : List UInt64}, n ∉ l.map Prod.snd →
      (l.foldl (fun itt e => itt.set e.2 e.1) itt)[n]? = itt[n]? := by
  intro l
  induction l with
  | nil => intro itt _; rfl
  | cons e l ih =>
      intro itt hn
      rw [List.map_cons, List.mem_cons, not_or] at hn
      rw [List.foldl_cons, ih hn.2, List.getElem?_set_ne (Ne.symm hn.1)]

omit hT in
/-- Writing entries of distinct nodes into a list long enough leaves
each where it was written. -/
private theorem getElem?_foldl_set {h : UInt64} {n : Nat} :
    ∀ {l : List (UInt64 × Nat)} {itt : List UInt64}, (l.map Prod.snd).Nodup → (h, n) ∈ l →
      n < itt.length → (l.foldl (fun itt e => itt.set e.2 e.1) itt)[n]? = some h := by
  intro l
  induction l with
  | nil => intro itt _ hmem; cases hmem
  | cons e l ih =>
      intro itt hl hmem hn
      rw [List.map_cons, List.nodup_cons] at hl
      rw [List.foldl_cons]
      rcases List.mem_cons.mp hmem with rfl | hmem
      · rw [getElem?_foldl_set_of_not_mem hl.1, List.getElem?_set_self hn]
      · exact ih hl.2 hmem (by rwa [List.length_set])

/-- `invertTranspositionTable` stays in its vector: every node it
indexes with is below the size. -/
theorem Bijective.invert_inBounds (e : UInt64 × Nat) (he : e ∈ T.entries) : e.2 < T.size := by
  rw [hT.size_eq]
  exact hT.lt e.1 e.2 ((T.find_eq_some_iff _ _).mpr he)

/-- And it is the inverse of the table. -/
theorem Bijective.invert_eq (h : UInt64) (n : Nat) :
    T.invert[n]? = some h ↔ T.find h = some n := by
  have hlen : (List.replicate T.size (0 : UInt64)).length = num := by
    rw [List.length_replicate, hT.size_eq]
  have hnodup : (T.entries.map Prod.snd).Nodup := hT.perm_range.nodup_iff.mpr List.nodup_range
  have hat : ∀ {h n}, T.find h = some n → T.invert[n]? = some h := fun {h n} hfind =>
    getElem?_foldl_set hnodup ((T.find_eq_some_iff _ _).mp hfind)
      (by rw [hlen]; exact hT.lt _ _ hfind)
  refine ⟨fun hget => ?_, hat⟩
  have hn : n < num := by
    by_contra hge
    have hmem : n ∉ T.entries.map Prod.snd := by
      rw [hT.perm_range.mem_iff, List.mem_range]
      exact hge
    have hnone : T.invert[n]? = none := by
      unfold invert
      rw [getElem?_foldl_set_of_not_mem hmem, List.getElem?_eq_none (by omega)]
    rw [hnone] at hget
    cases hget
  obtain ⟨h', hfind⟩ := hT.surj n hn
  have heq := hat hfind
  rw [hget] at heq
  rwa [Option.some.inj heq]

/-- A new hash gets the next node. -/
theorem Bijective.emplace {h : UInt64} (hnew : T.find h = none) :
    (T.emplace h num).Bijective (num + 1) := by
  have hfind : ∀ {h' n}, (T.emplace h num).find h' = some n ↔
      h' = h ∧ n = num ∨ h' ≠ h ∧ T.find h' = some n := by
    intro h' n
    rw [T.find_emplace]
    by_cases heq : h' = h
    · rw [if_pos ⟨heq, hnew⟩, Option.some.injEq]
      exact ⟨fun hn => Or.inl ⟨heq, hn.symm⟩, fun hor =>
        hor.elim (fun hand => hand.2.symm) fun hand => absurd heq hand.1⟩
    · rw [if_neg fun hand => heq hand.1]
      exact ⟨fun hn => Or.inr ⟨heq, hn⟩, fun hor =>
        hor.elim (fun hand => absurd hand.1 heq) fun hand => hand.2⟩
  constructor
  case lt =>
    intro h' n hn
    rcases hfind.mp hn with ⟨-, rfl⟩ | ⟨-, hold⟩
    · exact Nat.lt_succ_self n
    · exact Nat.lt_succ_of_lt (hT.lt h' n hold)
  case inj =>
    intro h₁ h₂ n hn hn'
    rcases hfind.mp hn with ⟨rfl, rfl⟩ | ⟨-, hold⟩
    · rcases hfind.mp hn' with ⟨rfl, -⟩ | ⟨-, hold'⟩
      · rfl
      · exact absurd (hT.lt _ _ hold') (lt_irrefl _)
    · rcases hfind.mp hn' with ⟨-, rfl⟩ | ⟨-, hold'⟩
      · exact absurd (hT.lt _ _ hold) (lt_irrefl _)
      · exact hT.inj _ _ _ hold hold'
  case surj =>
    intro n hn
    rcases Nat.lt_succ_iff_lt_or_eq.mp hn with hn | rfl
    · obtain ⟨h', hold⟩ := hT.surj n hn
      refine ⟨h', hfind.mpr (Or.inr ⟨?_, hold⟩)⟩
      intro hyp
      obtain rfl := hyp
      rw [hnew] at hold
      cases hold
    · exact ⟨h, hfind.mpr (Or.inl ⟨rfl, rfl⟩)⟩

end Bijective

end TranspositionTable

end MctsConnectFour
