/-
The multi-dimensional arrays (multi_array.hpp): contiguous storage
addressed through a displaced pointer. The accessors below keep the
source's address arithmetic; `at` is a keyword here, so the source's
`at ( ... )` reads `at'` and its assignments `setAt`, and the reversed
accessor `at_r` is `atR` and `setAtR`.

An offset outside the storage, which the source only asserts against,
reads a default value and writes nothing. The development shows where
it matters that this never happens.

The boards all have base zero and are row major, so the lemmas are
about base zero: a matrix is read and written like a function of its
in-range index pairs, the reversed accessor is the accessor at the
reflected pair, and a matrix is determined by its cells.
-/
import Mathlib.Data.Vector.Basic
import Mathlib.Tactic.Linarith
import Mathlib.Tactic.Ring

namespace MctsConnectFour

-- ============================================================= storage

section Storage

variable {T : Type} {n : Nat}

/-- `m_data [ o ]`. -/
def readAt [Inhabited T] (d : Vector T n) (o : Int) : T :=
  if 0 ≤ o then d[o.toNat]?.getD default else default

/-- `m_data [ o ] = v`. -/
def writeAt (d : Vector T n) (o : Int) (v : T) : Vector T n :=
  if 0 ≤ o then d.setIfInBounds o.toNat v else d

theorem readAt_eq [Inhabited T] (d : Vector T n) {k : Nat} (hk : k < n) :
    readAt d (k : Int) = d[k] := by
  simp [readAt, hk]

/-- A write in bounds changes what is read at its own offset only. -/
theorem readAt_writeAt [Inhabited T] (d : Vector T n) {o o' : Int} (v : T)
    (ho : 0 ≤ o) (hon : o < n) (ho' : 0 ≤ o') (hon' : o' < n) :
    readAt (writeAt d o v) o' = if o' = o then v else readAt d o' := by
  obtain ⟨a, rfl⟩ := Int.eq_ofNat_of_zero_le ho
  obtain ⟨b, rfl⟩ := Int.eq_ofNat_of_zero_le ho'
  have ha : a < n := by omega
  have hb : b < n := by omega
  have hw : writeAt d (a : Int) v = d.setIfInBounds a v := by simp [writeAt]
  rw [hw, readAt_eq _ hb, readAt_eq _ hb, Vector.getElem_setIfInBounds hb]
  by_cases h : a = b
  · subst h
    simp
  · rw [if_neg h, if_neg (by omega)]

/-- A function that keeps the default value commutes with reading. -/
theorem readAt_map {U : Type} [Inhabited T] [Inhabited U] {f : T → U} (hf : f default = default)
    (d : Vector T n) (o : Int) : readAt (d.map f) o = f (readAt d o) := by
  unfold readAt
  split
  · rw [Vector.getElem?_map]
    cases d[o.toNat]? with
    | none => exact hf.symm
    | some v => rfl
  · exact hf.symm

theorem writeAt_map {U : Type} (f : T → U) (d : Vector T n) (o : Int) (v : T) :
    (writeAt d o v).map f = writeAt (d.map f) o (f v) := by
  unfold writeAt
  split
  · ext k hk
    rw [Vector.getElem_map, Vector.getElem_setIfInBounds hk, Vector.getElem_setIfInBounds hk,
      Vector.getElem_map, apply_ite f]
  · rfl

end Storage

-- ============================================================== vector

/-- `ma::Vector < T, I, BaseI >`. -/
structure MaVector (T : Type) (I : Nat) (BaseI : Int := 0) where
  data : Vector T I

namespace MaVector

variable {T : Type} {I : Nat} {BaseI : Int}

/-- `at ( i )`. -/
def at' [Inhabited T] (m : MaVector T I BaseI) (i : Int) : T :=
  readAt m.data (-BaseI + i)

/-- `at ( i ) = v`. -/
def setAt (m : MaVector T I BaseI) (i : Int) (v : T) : MaVector T I BaseI :=
  { data := writeAt m.data (-BaseI + i) v }

/-- `at_r ( i )`. -/
def atR [Inhabited T] (m : MaVector T I BaseI) (i : Int) : T :=
  readAt m.data ((I - 1 + BaseI) + -i)

/-- The reversed accessor reads at the reflected index. -/
theorem atR_eq [Inhabited T] (m : MaVector T I) (i : Int) : m.atR i = m.at' (I - 1 - i) := by
  unfold atR at'
  congr 1
  ring

theorem at'_setAt [Inhabited T] (m : MaVector T I) {i k : Int} (v : T) (hi : 0 ≤ i)
    (hi' : i < I) (hk : 0 ≤ k) (hk' : k < I) :
    (m.setAt i v).at' k = if k = i then v else m.at' k := by
  unfold at' setAt
  rw [readAt_writeAt _ _ (by omega) (by omega) (by omega) (by omega)]
  simp

end MaVector

-- ============================================================== matrix

/-- `ma::Matrix < T, I, J, BaseI, BaseJ >`. -/
structure MaMatrix (T : Type) (I J : Nat) (BaseI BaseJ : Int := 0) where
  data : Vector T (I * J)
deriving DecidableEq

namespace MaMatrix

variable {T : Type} {I J : Nat} {BaseI BaseJ : Int}

/-- The offset `at` addresses. -/
def offset (J : Nat) (BaseI BaseJ i j : Int) : Int := (-BaseJ - BaseI * J) + (j + i * J)

/-- The offset `at_r` addresses. -/
def offsetR (I J : Nat) (BaseI BaseJ i j : Int) : Int :=
  (I * J - 1 + BaseJ + BaseI * J) + (-j - i * J)

/-- A matrix with the same value everywhere. -/
def fill (v : T) : MaMatrix T I J BaseI BaseJ := { data := Vector.replicate (I * J) v }

/-- `at ( i, j )`. -/
def at' [Inhabited T] (m : MaMatrix T I J BaseI BaseJ) (i j : Int) : T :=
  readAt m.data (offset J BaseI BaseJ i j)

/-- `at ( i, j ) = v`. -/
def setAt (m : MaMatrix T I J BaseI BaseJ) (i j : Int) (v : T) : MaMatrix T I J BaseI BaseJ :=
  { data := writeAt m.data (offset J BaseI BaseJ i j) v }

/-- `at_r ( i, j )`. -/
def atR [Inhabited T] (m : MaMatrix T I J BaseI BaseJ) (i j : Int) : T :=
  readAt m.data (offsetR I J BaseI BaseJ i j)

/-- `at_r ( i, j ) = v`. -/
def setAtR (m : MaMatrix T I J BaseI BaseJ) (i j : Int) (v : T) : MaMatrix T I J BaseI BaseJ :=
  { data := writeAt m.data (offsetR I J BaseI BaseJ i j) v }

/-- The index pairs the accessors' assertions allow, base zero. -/
def InRange (I J : Nat) (i j : Int) : Prop := 0 ≤ i ∧ i < I ∧ 0 ≤ j ∧ j < J

instance (I J : Nat) (i j : Int) : Decidable (InRange I J i j) :=
  inferInstanceAs (Decidable (_ ∧ _))

theorem InRange.offset_nonneg {i j : Int} (h : InRange I J i j) : 0 ≤ offset J 0 0 i j := by
  obtain ⟨hi, -, hj, -⟩ := h
  have : 0 ≤ i * (J : Int) := mul_nonneg hi (by omega)
  unfold offset
  omega

theorem InRange.offset_lt {i j : Int} (h : InRange I J i j) :
    offset J 0 0 i j < ((I * J : Nat) : Int) := by
  obtain ⟨hi, hi', hj, hj'⟩ := h
  have hrow : (i + 1) * (J : Int) ≤ I * J :=
    mul_le_mul_of_nonneg_right (by omega) (by omega)
  have hexp : (i + 1) * (J : Int) = i * J + J := by ring
  unfold offset
  push_cast
  omega

/-- Two in-range pairs share an offset only when they are the same. -/
theorem InRange.offset_inj {i j k l : Int} (h : InRange I J i j) (h' : InRange I J k l)
    (heq : offset J 0 0 i j = offset J 0 0 k l) : i = k ∧ j = l := by
  obtain ⟨-, -, hj, hj'⟩ := h
  obtain ⟨-, -, hl, hl'⟩ := h'
  have hoff : j + i * (J : Int) = l + k * J := by
    unfold offset at heq
    omega
  have hdiv : (j + i * (J : Int)) / J = (l + k * J) / J := by rw [hoff]
  rw [Int.add_mul_ediv_right _ _ (by omega), Int.add_mul_ediv_right _ _ (by omega),
    Int.ediv_eq_zero_of_lt hj hj', Int.ediv_eq_zero_of_lt hl hl'] at hdiv
  have hik : i = k := by omega
  subst hik
  exact ⟨rfl, by omega⟩

/-- The reflection of an index pair in the middle of the matrix. -/
theorem InRange.reflect {i j : Int} (h : InRange I J i j) :
    InRange I J (I - 1 - i) (J - 1 - j) := by
  unfold InRange at h ⊢
  omega

/-- A write changes the written cell and no other. -/
theorem at'_setAt [Inhabited T] (m : MaMatrix T I J) {i j k l : Int} (v : T)
    (h : InRange I J i j) (h' : InRange I J k l) :
    (m.setAt i j v).at' k l = if k = i ∧ l = j then v else m.at' k l := by
  unfold at' setAt
  rw [readAt_writeAt _ _ h.offset_nonneg h.offset_lt h'.offset_nonneg h'.offset_lt]
  by_cases heq : k = i ∧ l = j
  · obtain ⟨rfl, rfl⟩ := heq
    simp
  · rw [if_neg heq, if_neg]
    exact fun ho => heq (h'.offset_inj h ho)

/-- A loop that gives the cells of a list values of their own. -/
theorem at'_foldl_setAt [Inhabited T] (f : Int → Int → T) {i j : Int} (h : InRange I J i j) :
    ∀ {l : List (Int × Int)} (m : MaMatrix T I J), (∀ x ∈ l, InRange I J x.1 x.2) →
      (l.foldl (fun m x => m.setAt x.1 x.2 (f x.1 x.2)) m).at' i j
        = if (i, j) ∈ l then f i j else m.at' i j := by
  intro l
  induction l with
  | nil => exact fun m _ => (if_neg List.not_mem_nil).symm
  | cons x l ih =>
      intro m hl
      rw [List.foldl_cons, ih _ fun y hy => hl y (List.mem_cons_of_mem _ hy),
        at'_setAt m _ (hl x (List.mem_cons_self ..)) h]
      by_cases hmem : (i, j) ∈ l
      · rw [if_pos hmem, if_pos (List.mem_cons_of_mem _ hmem)]
      · rw [if_neg hmem]
        by_cases heq : i = x.1 ∧ j = x.2
        · rw [if_pos heq, if_pos (by rw [heq.1, heq.2]; exact List.mem_cons_self ..), ← heq.1,
            ← heq.2]
        · rw [if_neg heq, if_neg]
          intro hin
          rcases List.mem_cons.mp hin with hx | hin
          · exact heq ⟨congrArg Prod.fst hx, congrArg Prod.snd hx⟩
          · exact hmem hin

/-- The reversed accessor reads the reflected cell. -/
theorem atR_eq [Inhabited T] (m : MaMatrix T I J) (i j : Int) :
    m.atR i j = m.at' (I - 1 - i) (J - 1 - j) := by
  unfold atR at' offset offsetR
  congr 1
  ring

/-- The reversed accessor writes the reflected cell. -/
theorem setAtR_eq (m : MaMatrix T I J) (i j : Int) (v : T) :
    m.setAtR i j v = m.setAt (I - 1 - i) (J - 1 - j) v := by
  unfold setAtR setAt offset offsetR
  congr 2
  ring

theorem at'_fill [Inhabited T] (v : T) {i j : Int} (h : InRange I J i j) :
    (fill v : MaMatrix T I J).at' i j = v := by
  obtain ⟨k, hk⟩ := Int.eq_ofNat_of_zero_le h.offset_nonneg
  have hlt := h.offset_lt
  unfold at'
  rw [hk] at hlt ⊢
  rw [readAt_eq _ (by omega)]
  simp [fill]

/-- Every offset is the offset of an in-range pair. -/
private theorem exists_inRange {k : Nat} (hk : k < I * J) :
    ∃ i j : Int, InRange I J i j ∧ offset J 0 0 i j = k := by
  have hJ : 0 < J := Nat.pos_of_ne_zero fun h => by simp [h] at hk
  refine ⟨(k / J : Nat), (k % J : Nat),
    ⟨Int.natCast_nonneg _, ?_, Int.natCast_nonneg _, ?_⟩, ?_⟩
  · exact_mod_cast Nat.div_lt_of_lt_mul (by rwa [Nat.mul_comm] at hk)
  · exact_mod_cast Nat.mod_lt k hJ
  · unfold offset
    have hmod := Nat.mod_add_div k J
    have hcomm : (k / J : Nat) * J = J * (k / J) := Nat.mul_comm ..
    push_cast
    zify at hmod hcomm
    omega

/-- A matrix is determined by its cells. -/
theorem ext_at' [Inhabited T] {m m' : MaMatrix T I J}
    (h : ∀ i j, InRange I J i j → m.at' i j = m'.at' i j) : m = m' := by
  have hdata : m.data = m'.data := by
    ext k hk
    obtain ⟨i, j, hr, ho⟩ := exists_inRange hk
    have hcell := h i j hr
    unfold at' at hcell
    rwa [ho, readAt_eq _ hk, readAt_eq _ hk] at hcell
  cases m
  cases m'
  simpa using hdata

/-- Every cell replaced by a function of it. -/
def map {U : Type} (f : T → U) (m : MaMatrix T I J BaseI BaseJ) : MaMatrix U I J BaseI BaseJ :=
  ⟨m.data.map f⟩

theorem at'_map {U : Type} [Inhabited T] [Inhabited U] {f : T → U} (hf : f default = default)
    (m : MaMatrix T I J) (i j : Int) : (m.map f).at' i j = f (m.at' i j) :=
  readAt_map hf m.data _

theorem map_setAt {U : Type} (f : T → U) (m : MaMatrix T I J) (i j : Int) (v : T) :
    (m.setAt i j v).map f = (m.map f).setAt i j (f v) :=
  congrArg mk (writeAt_map f m.data _ v)

theorem map_setAtR {U : Type} (f : T → U) (m : MaMatrix T I J) (i j : Int) (v : T) :
    (m.setAtR i j v).map f = (m.map f).setAtR i j (f v) :=
  congrArg mk (writeAt_map f m.data _ v)

/-- The number of cells whose content passes a test. -/
def count (p : T → Bool) (m : MaMatrix T I J) : Nat := m.data.toList.countP p

/-- A write to a failing cell counts one more if it passes. -/
private theorem count_setAt_toNat [Inhabited T] {p : T → Bool} (m : MaMatrix T I J) {i j : Int}
    {v : T} (h : InRange I J i j) (hold : p (m.at' i j) = false) :
    (m.setAt i j v).count p = m.count p + (p v).toNat := by
  obtain ⟨k, hk⟩ := Int.eq_ofNat_of_zero_le h.offset_nonneg
  have hlt : k < I * J := by
    have := h.offset_lt
    omega
  have hcell : p m.data[k] = false := by
    unfold at' at hold
    rwa [hk, readAt_eq _ hlt] at hold
  have hdata : (m.setAt i j v).data.toList = m.data.toList.set k v := by
    simp [setAt, hk, writeAt]
  unfold count
  rw [hdata, List.countP_set (by simpa using hlt)]
  cases p v <;> simp [hcell]

/-- A write that turns a failing cell into a passing one counts one
more. -/
theorem count_setAt [Inhabited T] {p : T → Bool} (m : MaMatrix T I J) {i j : Int} {v : T}
    (h : InRange I J i j) (hold : p (m.at' i j) = false) (hnew : p v = true) :
    (m.setAt i j v).count p = m.count p + 1 := by
  rw [count_setAt_toNat m h hold, hnew]
  rfl

/-- A write from a failing cell to a failing one counts as many. -/
theorem count_setAt_of_not [Inhabited T] {p : T → Bool} (m : MaMatrix T I J) {i j : Int} {v : T}
    (h : InRange I J i j) (hold : p (m.at' i j) = false) (hnew : p v = false) :
    (m.setAt i j v).count p = m.count p := by
  rw [count_setAt_toNat m h hold, hnew]
  rfl

/-- The count reaches the size exactly when every cell passes. -/
theorem count_eq_size_iff [Inhabited T] {p : T → Bool} (m : MaMatrix T I J) :
    m.count p = I * J ↔ ∀ i j, InRange I J i j → p (m.at' i j) = true := by
  have hlen : m.data.toList.length = I * J := Vector.length_toList
  unfold count
  constructor
  · intro h i j hr
    have hall := List.countP_eq_length.mp (h.trans hlen.symm)
    obtain ⟨k, hk⟩ := Int.eq_ofNat_of_zero_le hr.offset_nonneg
    have hlt : k < I * J := by
      have := hr.offset_lt
      omega
    unfold at'
    rw [hk, readAt_eq _ hlt]
    exact hall _ (by simp)
  · intro h
    refine (List.countP_eq_length.mpr ?_).trans hlen
    intro a ha
    obtain ⟨k, hk, rfl⟩ := List.mem_iff_getElem.mp ha
    rw [hlen] at hk
    obtain ⟨i, j, hr, ho⟩ := exists_inRange hk
    have hcell := h i j hr
    unfold at' at hcell
    rw [ho, readAt_eq _ hk] at hcell
    simpa using hcell

/-- No cell of a filled matrix passes a test its content fails. -/
theorem count_fill {p : T → Bool} {v : T} (h : p v = false) :
    (fill v : MaMatrix T I J).count p = 0 := by
  unfold count fill
  rw [List.countP_eq_zero]
  intro a ha
  rw [Vector.toList_replicate] at ha
  rw [List.eq_of_mem_replicate ha]
  simp [h]

/-- A count never exceeds the number of cells. -/
theorem count_le (p : T → Bool) (m : MaMatrix T I J) : m.count p ≤ I * J :=
  List.countP_le_length.trans_eq Vector.length_toList

end MaMatrix

-- ================================================================ cube

/-- `ma::Cube < T, I, J, K, BaseI, BaseJ, BaseK >`. -/
structure MaCube (T : Type) (I J K : Nat) (BaseI BaseJ BaseK : Int := 0) where
  data : Vector T (I * J * K)

namespace MaCube

variable {T : Type} {I J K : Nat} {BaseI BaseJ BaseK : Int}

/-- The offset `at` addresses. -/
def offset (J K : Nat) (BaseI BaseJ BaseK i j k : Int) : Int :=
  (K * (-BaseJ - BaseI * J) - BaseK) + (K * (j + i * J) + k)

/-- `at ( i, j, k )`. -/
def at' [Inhabited T] (m : MaCube T I J K BaseI BaseJ BaseK) (i j k : Int) : T :=
  readAt m.data (offset J K BaseI BaseJ BaseK i j k)

/-- `at ( i, j, k ) = v`. -/
def setAt (m : MaCube T I J K BaseI BaseJ BaseK) (i j k : Int) (v : T) :
    MaCube T I J K BaseI BaseJ BaseK :=
  { data := writeAt m.data (offset J K BaseI BaseJ BaseK i j k) v }

end MaCube

end MctsConnectFour
