/-
The move container (moves.hpp): a C array of capacity `S` and a size.
Entries at and behind `size` are leftovers of earlier contents; the
live part is `toList`. The lemmas say what each operation does to the
live part, and nothing later in the development looks at the array
itself.

`remove` is the exception: on an empty container it goes on to the entry
before the first one, so its model also says what is read. It takes one
occurrence out, and stays within the container, exactly when that does
not happen (`removes_iff`).
-/
import Mathlib.Data.List.Perm.Basic
import Mathlib.Data.Vector.Basic
import MctsConnectFour.Globals

namespace MctsConnectFour

/-- `Moves < T, S >`. -/
structure Moves (T : Type) (S : Nat) where
  size : Nat
  moves : Vector T S

namespace Moves

variable {T : Type} {S : Nat}

/-- A default constructed container: no moves, every slot a default
constructed `T`. -/
def new [Inhabited T] : Moves T S := { size := 0, moves := Vector.replicate S default }

/-- `clear`. -/
def clear (m : Moves T S) : Moves T S := { m with size := 0 }

/-- The array read at index `i`. -/
def get [Inhabited T] (m : Moves T S) (i : Nat) : T := m.moves[i]?.getD default

/-- `front`. -/
def front [Inhabited T] (m : Moves T S) : T := m.get 0

/-- `push_back`. -/
def pushBack (m : Moves T S) (x : T) : Moves T S :=
  { size := m.size + 1, moves := m.moves.setIfInBounds m.size x }

/-- `random`. -/
def random [Inhabited T] (m : Moves T S) (ω : Rng) : T × Rng :=
  (m.get (ω.uniform m.size).1, (ω.uniform m.size).2)

/-- `draw`: take out a random entry and close the gap with the last
one; with one entry left there is nothing to draw. -/
def draw [Inhabited T] (m : Moves T S) (ω : Rng) : T × Moves T S × Rng :=
  if m.size = 1 then
    (m.get (m.size - 1), { m with size := m.size - 1 }, ω)
  else
    let (i, ω') := ω.uniform m.size
    (m.get i,
      { size := m.size - 1, moves := m.moves.setIfInBounds i (m.get (m.size - 1)) }, ω')

/-- The live entries, in order. -/
def toList (m : Moves T S) : List T := m.moves.toList.take m.size

@[simp] theorem toList_new [Inhabited T] : (new : Moves T S).toList = [] := rfl

@[simp] theorem toList_clear (m : Moves T S) : m.clear.toList = [] := rfl

@[simp] theorem size_clear (m : Moves T S) : m.clear.size = 0 := rfl

/-- Within the capacity, the live part has `size` entries. -/
theorem length_toList {m : Moves T S} (h : m.size ≤ S) : m.toList.length = m.size := by
  unfold toList
  rw [List.length_take, Vector.length_toList]
  omega

/-- Reading a live index reads the live list. -/
theorem get_eq [Inhabited T] {m : Moves T S} (h : m.size ≤ S) {i : Nat}
    (hi : i < m.toList.length) : m.get i = m.toList[i] := by
  have hi' : i < m.size := by rwa [length_toList h] at hi
  have hiS : i < S := by omega
  have hread : m.toList[i] = m.moves[i] := by
    simp only [toList, List.getElem_take, Vector.getElem_toList]
  rw [hread]
  unfold get
  rw [Vector.getElem?_eq_getElem hiS, Option.getD_some]

/-- Pushing within the capacity appends to the live part. -/
theorem toList_pushBack {m : Moves T S} (h : m.size < S) (x : T) :
    (m.pushBack x).toList = m.toList ++ [x] := by
  unfold pushBack toList
  simp only [Vector.toList_setIfInBounds]
  rw [List.take_add_one, List.take_set, List.getElem?_set_self (by simpa using h),
    List.set_eq_of_length_le (by simp), Option.toList_some]

/-- A container filled by a loop that pushes one entry per element. -/
theorem toList_foldl_pushBack {α : Type} (f : α → T) :
    ∀ (l : List α) {m : Moves T S}, m.size + l.length ≤ S →
      (l.foldl (fun m a => m.pushBack (f a)) m).toList = m.toList ++ l.map f
        ∧ (l.foldl (fun m a => m.pushBack (f a)) m).size = m.size + l.length := by
  intro l
  induction l with
  | nil => intro m _; simp
  | cons a l ih =>
      intro m hcap
      simp only [List.length_cons] at hcap
      obtain ⟨hlist, hsize⟩ := ih (m := m.pushBack (f a)) (by simp only [pushBack]; omega)
      simp only [List.foldl_cons, List.map_cons, List.length_cons]
      refine ⟨?_, ?_⟩
      · rw [hlist, toList_pushBack (by omega), List.append_assoc, List.singleton_append]
      · rw [hsize]
        simp only [pushBack]
        omega

/-- A random entry of a nonempty container is one of its live entries. -/
theorem random_mem [Inhabited T] {m : Moves T S} (h : m.size ≤ S) (hne : 0 < m.size) (ω : Rng) :
    (m.random ω).1 ∈ m.toList := by
  have hi : (ω.uniform m.size).1 < m.toList.length := by
    rw [length_toList h]
    exact ω.uniform_lt hne
  unfold random
  rw [get_eq h hi]
  exact List.getElem_mem hi

/-- Overwriting an entry with the last one and dropping the last one
takes that entry out. -/
private theorem perm_set_last_dropLast {α : Type} (l : List α) {i : Nat} (hi : i < l.length)
    (hlast : l.length - 1 < l.length) :
    (l[i] :: (l.set i l[l.length - 1]).dropLast).Perm l := by
  obtain ⟨init, last, rfl⟩ : ∃ init last, l = init ++ [last] :=
    ⟨l.dropLast, l.getLast (List.ne_nil_of_length_pos (by omega)),
      (List.dropLast_append_getLast _).symm⟩
  rw [List.length_append, List.length_singleton] at hi
  by_cases hend : i = init.length
  · subst hend
    simpa using (List.perm_append_singleton last init).symm
  · have hi' : i < init.length := by omega
    have hset : ((init ++ [last]).set i (init ++ [last])[(init ++ [last]).length - 1]).dropLast
        = init.set i last := by
      rw [List.set_append_left _ _ hi']
      simp
    rw [hset, List.getElem_append_left hi']
    calc (init[i] :: init.set i last).Perm (init[i] :: last :: init.eraseIdx i) :=
          (List.set_perm_cons_eraseIdx hi' last).cons _
      _ |>.Perm (last :: init[i] :: init.eraseIdx i) := List.Perm.swap _ _ _
      _ |>.Perm (last :: init) := (List.getElem_cons_eraseIdx_perm hi').cons _
      _ |>.Perm (init ++ [last]) := (List.perm_append_singleton last init).symm

/-- The last entry left is taken without a draw. -/
theorem draw_one [Inhabited T] {m : Moves T S} (h : m.size = 1) (ω : Rng) :
    m.draw ω = (m.get 0, { m with size := 0 }, ω) := by
  simp [draw, h]

/-- Otherwise the drawn slot is filled with the last entry. -/
theorem draw_many [Inhabited T] {m : Moves T S} (h : m.size ≠ 1) (ω : Rng) :
    m.draw ω = (m.get (ω.uniform m.size).1,
      { size := m.size - 1,
        moves := m.moves.setIfInBounds (ω.uniform m.size).1 (m.get (m.size - 1)) },
      (ω.uniform m.size).2) := by
  simp [draw, h]

/-- A slot filled with the last entry, which is given up, loses its own
entry. -/
theorem closeGap_perm [Inhabited T] {m : Moves T S} (h : m.size ≤ S) {i : Nat} (hi : i < m.size) :
    (m.get i :: toList { size := m.size - 1, moves :=
      m.moves.setIfInBounds i (m.get (m.size - 1)) }).Perm m.toList := by
  have hlen := length_toList h
  have hi' : i < m.toList.length := by omega
  have hend : m.toList.length - 1 < m.toList.length := by omega
  have hlast : m.get (m.size - 1) = m.toList[m.toList.length - 1] := by
    rw [← get_eq h hend, hlen]
  have hlive : toList { size := m.size - 1, moves :=
        m.moves.setIfInBounds i (m.get (m.size - 1)) }
      = (m.toList.set i (m.get (m.size - 1))).dropLast := by
    unfold toList
    rw [Vector.toList_setIfInBounds, ← List.take_set, List.dropLast_eq_take,
      List.length_take, List.length_set, Vector.length_toList, List.take_take]
    congr 1
    show m.size - 1 = min (min m.size S - 1) m.size
    omega
  rw [hlive, get_eq h hi', hlast]
  exact perm_set_last_dropLast m.toList hi' hend

/-- Drawing from a nonempty container takes one live entry out. -/
theorem draw_perm [Inhabited T] {m : Moves T S} (h : m.size ≤ S) (hne : 0 < m.size)
    (ω : Rng) : ((m.draw ω).1 :: (m.draw ω).2.1.toList).Perm m.toList := by
  by_cases hone : m.size = 1
  · rw [draw_one hone]
    obtain ⟨x, hx⟩ := List.length_eq_one_iff.mp ((length_toList h).trans hone)
    have hget : m.get 0 = x := by
      rw [get_eq h (by simp [hx])]
      simp [hx]
    rw [hget, hx]
    rfl
  · rw [draw_many hone]
    exact closeGap_perm h (ω.uniform_lt hne)

/-- Drawing lowers the size by one. -/
theorem size_draw [Inhabited T] (m : Moves T S) (ω : Rng) :
    (m.draw ω).2.1.size = m.size - 1 := by
  by_cases hone : m.size = 1
  · rw [draw_one hone, hone]
  · rw [draw_many hone]

-- ============================================================= removal

/-- What `remove` leaves, and the indices it reads the array at. -/
structure Removed (T : Type) (S : Nat) where
  size : Int
  moves : Vector T S
  reads : List Int
deriving DecidableEq

/-- The live entries afterwards. -/
def Removed.toList (r : Removed T S) : List T := r.moves.toList.take r.size.toNat

/-- The array read at an index that may lie in front of it, where
`stray` is found. -/
def getBefore [Inhabited T] (stray : T) (m : Moves T S) (i : Int) : T :=
  if 0 ≤ i then m.get i.toNat else stray

/-- The loop of `remove`, with `n` rounds to go from index `i` on: where
it finds `x`, and what it reads. -/
def removeLoop [Inhabited T] [DecidableEq T] (m : Moves T S) (x : T) (i : Nat) :
    Nat → Option Nat × List Int
  | 0 => (none, [])
  | n + 1 =>
    if m.get i = x then (some i, [(i : Int)])
    else
      let (hit, reads) := removeLoop m x (i + 1) n
      (hit, (i : Int) :: reads)

/-- `remove`. -/
def remove [Inhabited T] [DecidableEq T] (stray : T) (m : Moves T S) (x : T) : Removed T S :=
  if m.size < 2 ∧ m.front = x then
    { size := 0, moves := m.moves, reads := [0] }
  else
    -- the second half of the condition is looked at only below size two
    let front : List Int := if m.size < 2 then [0] else []
    let last : Int := m.size - 1
    match m.removeLoop x 0 last.toNat with
    | (some i, reads) =>
      { size := m.size - 1
        moves := m.moves.setIfInBounds i (m.getBefore stray last)
        reads := front ++ reads ++ [last] }
    | (none, reads) =>
      { size := if m.getBefore stray last = x then m.size - 1 else m.size
        moves := m.moves
        reads := front ++ reads ++ [last] }

/-- What removing `x` should do: one occurrence gone if there is one, a
size within the capacity, and nothing read behind the live entries (the
first entry excepted). -/
structure Removes [DecidableEq T] (m : Moves T S) (x : T) (r : Removed T S) : Prop where
  live : r.toList.Perm (m.toList.erase x)
  nonneg : 0 ≤ r.size
  le_capacity : r.size ≤ S
  reads : ∀ k ∈ r.reads, 0 ≤ k ∧ k < max 1 m.size

/-- The loop reads its own range, stops at the first hit, and without one
has seen every entry of the range. -/
theorem removeLoop_spec [Inhabited T] [DecidableEq T] (m : Moves T S) (x : T) (n i : Nat) :
    (∀ k ∈ (m.removeLoop x i n).2, (i : Int) ≤ k ∧ k < i + n)
      ∧ (∀ k, (m.removeLoop x i n).1 = some k → k < i + n ∧ m.get k = x)
      ∧ ((m.removeLoop x i n).1 = none → ∀ k, i ≤ k → k < i + n → m.get k ≠ x) := by
  induction n generalizing i with
  | zero =>
      refine ⟨by simp [removeLoop], by simp [removeLoop], ?_⟩
      intro _ k hk hk'
      omega
  | succ n ih =>
      obtain ⟨hreads, hhit, hmiss⟩ := ih (i + 1)
      by_cases hx : m.get i = x
      · simp only [removeLoop, if_pos hx]
        refine ⟨?_, ?_, ?_⟩
        · intro k hk
          rw [List.mem_singleton] at hk
          omega
        · intro k hk
          obtain rfl := Option.some.inj hk
          exact ⟨by omega, hx⟩
        · intro hnone
          exact absurd hnone (by simp)
      · simp only [removeLoop, if_neg hx]
        refine ⟨?_, ?_, ?_⟩
        · intro k hk
          cases hk with
          | head => omega
          | tail _ hk =>
              have := hreads k hk
              omega
        · intro k hk
          obtain ⟨hlt, hget⟩ := hhit k hk
          exact ⟨by omega, hget⟩
        · intro hnone k hk hk'
          by_cases hki : k = i
          · rw [hki]
            exact hx
          · exact hmiss hnone k (by omega) (by omega)

/-- An empty container whose first slot is not `x`: the entry in front of
the array is read. -/
theorem remove_empty [Inhabited T] [DecidableEq T] (stray : T) {m : Moves T S} {x : T}
    (hsize : m.size = 0) (hx : m.front ≠ x) :
    (m.remove stray x).reads = [0, -1] := by
  simp [remove, hsize, hx, removeLoop]

/-- `x` is a live entry exactly when some live index holds it. -/
theorem mem_toList_iff [Inhabited T] {m : Moves T S} (h : m.size ≤ S) {x : T} :
    x ∈ m.toList ↔ ∃ i, i < m.size ∧ m.get i = x := by
  have hlen := length_toList h
  constructor
  · intro hx
    obtain ⟨i, hi, heq⟩ := List.mem_iff_getElem.mp hx
    exact ⟨i, by omega, (get_eq h hi).trans heq⟩
  · intro hx
    obtain ⟨i, hi, rfl⟩ := hx
    rw [get_eq h (by omega)]
    exact List.getElem_mem _

/-- A container of at most one move that holds `x` in its first slot is
emptied. -/
theorem removes_front [Inhabited T] [DecidableEq T] (stray : T) {m : Moves T S} {x : T}
    (h : m.size ≤ S) (hsize : m.size < 2) (hx : m.front = x) :
    m.Removes x (m.remove stray x) := by
  have heq : m.remove stray x = { size := 0, moves := m.moves, reads := [0] } :=
    if_pos ⟨hsize, hx⟩
  rw [heq]
  refine ⟨?_, by simp, by simp, ?_⟩
  · show List.Perm [] (m.toList.erase x)
    have hlen := length_toList h
    cases hlist : m.toList with
    | nil => exact List.Perm.nil
    | cons y l =>
        rw [hlist, List.length_cons] at hlen
        have hl : l = [] := List.length_eq_zero_iff.mp (by omega)
        have hy : m.front = y := by
          unfold front
          rw [get_eq h (by simp [hlist])]
          simp [hlist]
        rw [hl, ← hy, hx, List.erase_cons_head]
  · intro k hk
    rw [List.mem_singleton] at hk
    omega

/-- A container that is not empty loses one occurrence, by the entry that
takes its place or by the size. -/
theorem removes_of_pos [Inhabited T] [DecidableEq T] (stray : T) {m : Moves T S} (x : T)
    (h : m.size ≤ S) (hne : 0 < m.size) : m.Removes x (m.remove stray x) := by
  by_cases hfront : m.size < 2 ∧ m.front = x
  · exact removes_front stray h hfront.1 hfront.2
  have hlast : ((m.size : Int) - 1).toNat = m.size - 1 := by omega
  have hget : m.getBefore stray ((m.size : Int) - 1) = m.get (m.size - 1) := by
    unfold getBefore
    rw [if_pos (by omega), hlast]
  obtain ⟨hreads, hhit, hmiss⟩ := removeLoop_spec m x (m.size - 1) 0
  -- every read is of a live entry
  have hlive : ∀ k ∈ (if m.size < 2 then [(0 : Int)] else [])
      ++ (m.removeLoop x 0 (m.size - 1)).2 ++ [(m.size : Int) - 1],
      0 ≤ k ∧ k < max 1 m.size := by
    intro k hk
    rw [List.mem_append, List.mem_append, List.mem_singleton] at hk
    rcases hk with (hk | hk) | hk
    · split at hk
      · rw [List.mem_singleton] at hk
        omega
      · exact absurd hk List.not_mem_nil
    · have := hreads k hk
      omega
    · omega
  cases hloop : m.removeLoop x 0 (m.size - 1) with
  | mk hit reads =>
      rw [hloop] at hhit hmiss hlive
      cases hit with
      | some i =>
          obtain ⟨hi, hxi⟩ := hhit i rfl
          have heq : m.remove stray x = Removed.mk ((m.size : Int) - 1)
              (m.moves.setIfInBounds i (m.get (m.size - 1)))
              ((if m.size < 2 then [0] else []) ++ reads ++ [(m.size : Int) - 1]) := by
            simp only [remove, if_neg hfront, hlast, hloop, hget]
          rw [heq]
          refine ⟨?_, by show (0 : Int) ≤ m.size - 1; omega,
            by show (m.size : Int) - 1 ≤ S; omega, hlive⟩
          -- the last entry has taken the place of the hit
          have hperm := closeGap_perm h (i := i) (by omega)
          rw [hxi] at hperm
          have herase := hperm.erase x
          rw [List.erase_cons_head] at herase
          show (List.take ((m.size : Int) - 1).toNat _).Perm _
          rw [hlast]
          exact herase
      | none =>
          have heq : m.remove stray x = Removed.mk
              (if m.get (m.size - 1) = x then (m.size : Int) - 1 else m.size) m.moves
              ((if m.size < 2 then [0] else []) ++ reads ++ [(m.size : Int) - 1]) := by
            simp only [remove, if_neg hfront, hlast, hloop, hget]
          rw [heq]
          by_cases hx : m.get (m.size - 1) = x
          · simp only [if_pos hx]
            refine ⟨?_, by show (0 : Int) ≤ m.size - 1; omega,
              by show (m.size : Int) - 1 ≤ S; omega, hlive⟩
            -- only the last entry is `x`, and it is given up
            have hperm := closeGap_perm h (i := m.size - 1) (by omega)
            rw [hx] at hperm
            have herase := hperm.erase x
            rw [List.erase_cons_head] at herase
            have hsame : (m.moves.setIfInBounds (m.size - 1) x).toList.take (m.size - 1)
                = m.moves.toList.take (m.size - 1) := by
              rw [Vector.toList_setIfInBounds, List.take_set_of_le (Nat.le_refl _)]
            show (List.take ((m.size : Int) - 1).toNat _).Perm _
            rw [hlast, ← hsame]
            exact herase
          · simp only [if_neg hx]
            refine ⟨?_, by show (0 : Int) ≤ m.size; omega,
              by show (m.size : Int) ≤ S; omega, hlive⟩
            have hnot : x ∉ m.toList := by
              intro hmem
              obtain ⟨i, hi, hxi⟩ := (mem_toList_iff h).mp hmem
              by_cases hend : i = m.size - 1
              · exact hx (hend ▸ hxi)
              · exact hmiss rfl i (by omega) (by omega) hxi
            rw [List.erase_of_not_mem hnot]
            exact List.Perm.refl _

/-- `remove` takes one occurrence out, and stays within the container,
unless there is nothing to take out of an empty container. -/
theorem removes_iff [Inhabited T] [DecidableEq T] (stray : T) {m : Moves T S} (h : m.size ≤ S)
    (x : T) : m.Removes x (m.remove stray x) ↔ m.size ≠ 0 ∨ m.front = x := by
  constructor
  · intro hrem
    by_contra hno
    rw [not_or, not_not] at hno
    obtain ⟨hsize, hx⟩ := hno
    have := hrem.reads (-1) (by rw [remove_empty stray hsize hx]; simp)
    omega
  · intro hor
    by_cases hsize : m.size = 0
    · obtain hx := hor.resolve_left (not_not.mpr hsize)
      exact removes_front stray h (by omega) hx
    · exact removes_of_pos stray x h (by omega)

/-- Three moves, of which one is removed. -/
theorem removes_iff_three :
    (Moves.mk 3 #v[(5 : Nat), 6, 7]).Removes 5 ((Moves.mk 3 #v[(5 : Nat), 6, 7]).remove 0 5)
      ↔ (Moves.mk 3 #v[(5 : Nat), 6, 7]).size ≠ 0
        ∨ (Moves.mk 3 #v[(5 : Nat), 6, 7]).front = 5 :=
  removes_iff 0 (by decide) 5

/-- Removing from a new container reads in front of the array, and may
leave a negative size. -/
theorem remove_new_reads_before :
    ¬ (new : Moves Nat 2).Removes 5 ((new : Moves Nat 2).remove 5 5)
      ∧ ((new : Moves Nat 2).remove 5 5).reads = [0, -1]
      ∧ ((new : Moves Nat 2).remove 5 5).size = -1 := by
  refine ⟨?_, by decide, by decide⟩
  intro hrem
  have := hrem.nonneg
  revert this
  decide

end Moves

end MctsConnectFour
