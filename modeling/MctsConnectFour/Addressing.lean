/-
The addressing of the multi-dimensional arrays, for every base: the
index tuples that the accessors' assertions allow are numbered in row
major order, one by one and without a gap, and the reversed accessor
counts from the other end. Each offset is a row-major numbering with the
bases folded into a displacement; the rest is the library's.

The program itself uses base zero only, and there no hypercube at all.
-/
import MctsConnectFour.Lib.RowMajor
import MctsConnectFour.MultiArray

namespace MctsConnectFour

open RowMajor (range offsets mem_range)

variable {T : Type} [Inhabited T] {I J K L : Nat} {BaseI BaseJ BaseK BaseL : Int}

-- ================================================ the reflected index

/-- The index as far from the end of its range as `i` is from the
beginning. -/
def reflect (n : Nat) (b i : Int) : Int := n - 1 + b + b - i

/-- Reflection maps the range of a dimension onto itself. -/
theorem bijOn_reflect (n : Nat) (b : Int) :
    Set.BijOn (reflect n b) (range b n) (range b n) := by
  have hself : ∀ i, reflect n b (reflect n b i) = i := by
    intro i
    unfold reflect
    omega
  have hmaps : Set.MapsTo (reflect n b) (range b n) (range b n) := by
    intro i hi
    rw [mem_range] at hi ⊢
    unfold reflect
    omega
  refine Set.BijOn.mk hmaps ?_ ?_
  · intro i _ j _ heq
    rw [← hself i, heq, hself j]
  · intro i hi
    exact ⟨reflect n b i, hmaps hi, hself i⟩

-- ============================================================== vector

namespace MaVector

/-- The offset `at` addresses. -/
def offset (BaseI i : Int) : Int := -BaseI + i

/-- The offset `at_r` addresses. -/
def offsetR (I : Nat) (BaseI i : Int) : Int := (I - 1 + BaseI) + -i

theorem at'_offset (m : MaVector T I BaseI) (i : Int) :
    m.at' i = readAt m.data (offset BaseI i) := rfl

theorem atR_offsetR (m : MaVector T I BaseI) (i : Int) :
    m.atR i = readAt m.data (offsetR I BaseI i) := rfl

theorem bijOn_offset (I : Nat) (BaseI : Int) :
    Set.BijOn (offset BaseI) (range BaseI I) (offsets I) := by
  refine (RowMajor.bijOn_displace BaseI I).congr ?_
  intro i _
  unfold offset
  ring

theorem offsetR_eq (I : Nat) (BaseI i : Int) :
    offsetR I BaseI i = (I : Nat) - 1 - offset BaseI i := by
  unfold offsetR offset
  ring

theorem atR_reflect (m : MaVector T I BaseI) (i : Int) : m.atR i = m.at' (reflect I BaseI i) := by
  rw [atR_offsetR, at'_offset]
  congr 1
  unfold offsetR offset reflect
  ring

end MaVector

-- ============================================================== matrix

namespace MaMatrix

theorem bijOn_offset (I J : Nat) (BaseI BaseJ : Int) :
    Set.BijOn (fun p : Int × Int => offset J BaseI BaseJ p.1 p.2)
      (range BaseI I ×ˢ range BaseJ J) (offsets (I * J)) := by
  refine (RowMajor.bijOn_addDim (MaVector.bijOn_offset J BaseJ) BaseI I).congr ?_
  intro p _
  simp only [offset, MaVector.offset]
  ring

theorem offsetR_eq (I J : Nat) (BaseI BaseJ i j : Int) :
    offsetR I J BaseI BaseJ i j = (I * J : Nat) - 1 - offset J BaseI BaseJ i j := by
  unfold offsetR offset
  push_cast
  ring

theorem atR_reflect (m : MaMatrix T I J BaseI BaseJ) (i j : Int) :
    m.atR i j = m.at' (reflect I BaseI i) (reflect J BaseJ j) := by
  unfold atR at'
  congr 1
  unfold offsetR offset reflect
  ring

end MaMatrix

-- ================================================================ cube

namespace MaCube

/-- The offset `at_r` addresses. -/
def offsetR (I J K : Nat) (BaseI BaseJ BaseK i j k : Int) : Int :=
  (I * J * K - 1 + BaseJ * K + BaseI * J * K + BaseK) + (K * (-j - i * J) - k)

/-- `at_r ( i, j, k )`. -/
def atR (m : MaCube T I J K BaseI BaseJ BaseK) (i j k : Int) : T :=
  readAt m.data (offsetR I J K BaseI BaseJ BaseK i j k)

theorem bijOn_offset (I J K : Nat) (BaseI BaseJ BaseK : Int) :
    Set.BijOn (fun p : Int × Int × Int => offset J K BaseI BaseJ BaseK p.1 p.2.1 p.2.2)
      (range BaseI I ×ˢ range BaseJ J ×ˢ range BaseK K) (offsets (I * J * K)) := by
  rw [Nat.mul_assoc]
  refine (RowMajor.bijOn_addDim (MaMatrix.bijOn_offset J K BaseJ BaseK) BaseI I).congr ?_
  intro p _
  simp only [offset, MaMatrix.offset]
  push_cast
  ring

theorem offsetR_eq (I J K : Nat) (BaseI BaseJ BaseK i j k : Int) :
    offsetR I J K BaseI BaseJ BaseK i j k
      = (I * J * K : Nat) - 1 - offset J K BaseI BaseJ BaseK i j k := by
  unfold offsetR offset
  push_cast
  ring

theorem atR_reflect (m : MaCube T I J K BaseI BaseJ BaseK) (i j k : Int) :
    m.atR i j k = m.at' (reflect I BaseI i) (reflect J BaseJ j) (reflect K BaseK k) := by
  unfold atR at'
  congr 1
  unfold offsetR offset reflect
  ring

end MaCube

-- =========================================================== hypercube

/-- `ma::HyperCube < T, I, J, K, L, BaseI, BaseJ, BaseK, BaseL >`. -/
structure MaHyperCube (T : Type) (I J K L : Nat) (BaseI BaseJ BaseK BaseL : Int := 0) where
  data : Vector T (I * J * K * L)

namespace MaHyperCube

/-- The offset `at` addresses. -/
def offset (J K L : Nat) (BaseI BaseJ BaseK BaseL i j k l : Int) : Int :=
  (L * (K * (-BaseJ - BaseI * J) - BaseK) - BaseL) + (L * (K * (j + i * J) + k) + l)

/-- `at ( i, j, k, l )`. -/
def at' (m : MaHyperCube T I J K L BaseI BaseJ BaseK BaseL) (i j k l : Int) : T :=
  readAt m.data (offset J K L BaseI BaseJ BaseK BaseL i j k l)

theorem bijOn_offset (I J K L : Nat) (BaseI BaseJ BaseK BaseL : Int) :
    Set.BijOn (fun p : Int × Int × Int × Int =>
        offset J K L BaseI BaseJ BaseK BaseL p.1 p.2.1 p.2.2.1 p.2.2.2)
      (range BaseI I ×ˢ range BaseJ J ×ˢ range BaseK K ×ˢ range BaseL L)
      (offsets (I * J * K * L)) := by
  rw [Nat.mul_assoc I J K, Nat.mul_assoc I]
  refine (RowMajor.bijOn_addDim (MaCube.bijOn_offset J K L BaseJ BaseK BaseL) BaseI I).congr ?_
  intro p _
  simp only [offset, MaCube.offset]
  push_cast
  ring

end MaHyperCube

-- ========================================================== the result

/-- Whatever the bases, the accessors number the elements of the storage
one to one, and the reversed accessors number them from the other end. -/
theorem addressing (T : Type) [Inhabited T] (I J K L : Nat) (BaseI BaseJ BaseK BaseL : Int) :
    -- `at` numbers the index tuples its assertions allow
    (Set.BijOn (MaVector.offset BaseI) (range BaseI I) (offsets I)
      ∧ Set.BijOn (fun p : Int × Int => MaMatrix.offset J BaseI BaseJ p.1 p.2)
        (range BaseI I ×ˢ range BaseJ J) (offsets (I * J))
      ∧ Set.BijOn (fun p : Int × Int × Int => MaCube.offset J K BaseI BaseJ BaseK p.1 p.2.1 p.2.2)
        (range BaseI I ×ˢ range BaseJ J ×ˢ range BaseK K) (offsets (I * J * K))
      ∧ Set.BijOn (fun p : Int × Int × Int × Int =>
          MaHyperCube.offset J K L BaseI BaseJ BaseK BaseL p.1 p.2.1 p.2.2.1 p.2.2.2)
        (range BaseI I ×ˢ range BaseJ J ×ˢ range BaseK K ×ˢ range BaseL L)
        (offsets (I * J * K * L)))
    -- `at_r` counts the offsets from the other end
    ∧ ((∀ i, MaVector.offsetR I BaseI i = (I : Nat) - 1 - MaVector.offset BaseI i)
      ∧ (∀ i j, MaMatrix.offsetR I J BaseI BaseJ i j
          = (I * J : Nat) - 1 - MaMatrix.offset J BaseI BaseJ i j)
      ∧ ∀ i j k, MaCube.offsetR I J K BaseI BaseJ BaseK i j k
          = (I * J * K : Nat) - 1 - MaCube.offset J K BaseI BaseJ BaseK i j k)
    -- and so reads the element at the reflected index, again an allowed one
    ∧ (Set.BijOn (reflect I BaseI) (range BaseI I) (range BaseI I)
      ∧ Set.BijOn (reflect J BaseJ) (range BaseJ J) (range BaseJ J)
      ∧ Set.BijOn (reflect K BaseK) (range BaseK K) (range BaseK K)
      ∧ (∀ (m : MaVector T I BaseI) i, m.atR i = m.at' (reflect I BaseI i))
      ∧ (∀ (m : MaMatrix T I J BaseI BaseJ) i j,
          m.atR i j = m.at' (reflect I BaseI i) (reflect J BaseJ j))
      ∧ ∀ (m : MaCube T I J K BaseI BaseJ BaseK) i j k,
          m.atR i j k = m.at' (reflect I BaseI i) (reflect J BaseJ j) (reflect K BaseK k)) := by
  refine ⟨⟨?_, ?_, ?_, ?_⟩, ⟨?_, ?_, ?_⟩, ?_, ?_, ?_, ?_, ?_, ?_⟩
  · exact MaVector.bijOn_offset I BaseI
  · exact MaMatrix.bijOn_offset I J BaseI BaseJ
  · exact MaCube.bijOn_offset I J K BaseI BaseJ BaseK
  · exact MaHyperCube.bijOn_offset I J K L BaseI BaseJ BaseK BaseL
  · exact MaVector.offsetR_eq I BaseI
  · exact MaMatrix.offsetR_eq I J BaseI BaseJ
  · exact MaCube.offsetR_eq I J K BaseI BaseJ BaseK
  · exact bijOn_reflect I BaseI
  · exact bijOn_reflect J BaseJ
  · exact bijOn_reflect K BaseK
  · exact MaVector.atR_reflect
  · exact MaMatrix.atR_reflect
  · exact MaCube.atR_reflect

end MctsConnectFour
