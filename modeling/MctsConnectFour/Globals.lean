/-
The global generator and the integer conversions of the program
(globals.hpp, Typedefs.hpp).

`g_rng` is modelled by what it still has to say: a stream of naturals,
one per draw. A distribution reduces the next entry to its own range.
Every finite sequence of outcomes is produced by some stream, so a
statement about all streams is a statement about all outcomes of the
random choices.

Signed indices (`index_t`) are integers; where the source compares one
with an unsigned template argument, both sides go through `sizeT`.
-/
import Mathlib.Tactic.Common

namespace MctsConnectFour

/-- The outcomes the generator still has to give. -/
abbrev Rng := Nat → Nat

/-- The generator after one draw. -/
def Rng.tail (ω : Rng) : Rng := fun k => ω (k + 1)

/-- `std::uniform_int_distribution ( 0, n - 1 ) ( g_rng )`. -/
def Rng.uniform (ω : Rng) (n : Nat) : Nat × Rng := (ω 0 % n, ω.tail)

/-- A draw from `n` outcomes is one of them. -/
theorem Rng.uniform_lt (ω : Rng) {n : Nat} (hn : 0 < n) : (ω.uniform n).1 < n :=
  Nat.mod_lt _ hn

/-- `bernoulli ( )`: a fair coin. -/
def bernoulli (ω : Rng) : Bool × Rng := (ω 0 % 2 == 1, ω.tail)

/-- The conversion of an `index_t` to `std::size_t`: reduction modulo
`2 ^ 64`. -/
def sizeT (x : Int) : Int := x % 18446744073709551616

end MctsConnectFour
