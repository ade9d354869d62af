/-
`splitmix64` and `splitmix32` (splitmix.hpp), and the generator of the
program (globals.cpp).

A `std::uint64_t` is a word of 64 bits. The helpers are templates over an
unsigned type that is not promoted, a word of any width here; each turn of
their loops shortens a word, so its width is fuel enough
(`fastExp_eq`, `popCount_eq`, SplitMix/Mixing.lean). `pop_count` is the
loop of the compilers the project is built with, not the intrinsic of the
others.

The constructor sets the lowest bit of `gamma_`, which no member takes
back: a `Splitmix` carries it.
-/
import MctsConnectFour.Lib.While
import MctsConnectFour.Lib.Words

namespace MctsConnectFour.SplitMix

open Loops (whileLoop)
open Words (IsOdd isOdd_iff xorShift)

-- ============================================================= helpers

section Helpers

variable {w : Nat}

/-- The body of the loop of `fast_exp ( )`: its variables are the result,
the multiplier and the power. -/
def fastExpStep (s : BitVec w × BitVec w × BitVec w) : BitVec w × BitVec w × BitVec w :=
  let thismult := if s.2.2 &&& 1 != 0 then s.2.1 else 1
  (s.1 * thismult, s.2.1 * s.2.1, s.2.2 >>> 1)

/-- `fast_exp ( )`. -/
def fastExp (x power : BitVec w) : Option (BitVec w) :=
  (whileLoop (fun s => s.2.2 != 0) (fun s => some (fastExpStep s)) w (1, x, power)).map Prod.fst

/-- `modular_inverse ( )`. -/
def modularInverse (x : BitVec w) : Option (BitVec w) := fastExp x (-1)

/-- `pop_count ( )`. -/
def popCount (x : BitVec w) : Option Nat :=
  (whileLoop (fun s => s.2 != 0) (fun s => some (s.1 + 1, s.2 &&& (s.2 - 1))) w (0, x)).map Prod.fst

end Helpers

-- =========================================================== the class

/-- The arguments of the template `splitmix64_base`. -/
structure Parameters where
  m1 : BitVec 64
  m2 : BitVec 64
  p : Nat
  q : Nat
  r : Nat
  m3 : BitVec 64
  m4 : BitVec 64
  s : Nat
  t : Nat
  u : Nat

/-- `mix_gamma ( )`. -/
def mixGamma (P : Parameters) (x : BitVec 64) : Option (BitVec 64) :=
  let x := xorShift P.p x * P.m1
  let x := xorShift P.q x * P.m2
  let x := xorShift P.r x ||| 1
  (popCount (xorShift 1 x)).map fun n => if n < 24 then x ^^^ 0xaaaaaaaaaaaaaaaa else x

/-- `mix64 ( )`. -/
def mix64 (P : Parameters) (x : BitVec 64) : BitVec 64 :=
  let x := xorShift P.s x * P.m3
  let x := xorShift P.t x * P.m4
  xorShift P.u x

/-- `splitmix64_base`. -/
structure Splitmix (P : Parameters) where
  seed : BitVec 64
  gamma : BitVec 64
  odd : IsOdd gamma

theorem isOdd_or_one (x : BitVec 64) : IsOdd (x ||| 1) := by
  have hone : (1 : BitVec 64).getLsbD 0 = true := rfl
  rw [isOdd_iff, BitVec.getLsbD_or, hone, Bool.or_true]

namespace Splitmix

variable {P : Parameters}

/-- The constructor. -/
def new (seed gamma : BitVec 64) : Splitmix P where
  seed := seed
  gamma := gamma ||| 1
  odd := isOdd_or_one gamma

/-- Its default arguments. -/
def defaultSeed : BitVec 64 := 0xbad0ff1ced15ea5e
def defaultGamma : BitVec 64 := 0x9e3779b97f4a7c15

variable (g : Splitmix P)

/-- `advance ( )`. -/
def advance : Splitmix P := { g with seed := g.seed + g.gamma }

/-- `next_seed ( )`. -/
def nextSeed : BitVec 64 × Splitmix P := (g.seed, g.advance)

/-- `operator ( )`. -/
def next : BitVec 64 × Splitmix P := (mix64 P g.nextSeed.1, g.nextSeed.2)

/-- `generate ( it, end )` for a range of the given length. -/
def generate : Nat → Splitmix P → List (BitVec 64) × Splitmix P
  | 0, g => ([], g)
  | count + 1, g =>
      let rest := generate count g.nextSeed.2
      (mix64 P g.nextSeed.1 :: rest.1, rest.2)

/-- `seed ( s_ )`. -/
def setSeed (s : BitVec 64) : Splitmix P := { g with seed := s }

/-- `advance ( delta )`. -/
def advanceBy (delta : BitVec 64) : Splitmix P := { g with seed := g.seed + delta * g.gamma }

/-- `backstep ( delta )`. -/
def backstep (delta : BitVec 64) : Splitmix P := g.advanceBy (-delta)

/-- `wrapped ( )`. -/
def wrapped : Bool := g.seed == 0

/-- `operator - ( other )`. -/
def sub (other : Splitmix P) : Option (BitVec 64) :=
  (modularInverse other.gamma).map fun inv => (g.seed - other.seed) * inv

/-- `split ( )`: the new generator, and what is left of the old. -/
def split : Option (Splitmix P × Splitmix P) :=
  (mixGamma P g.next.2.nextSeed.1).map fun newGamma =>
    (new g.next.1 newGamma, g.next.2.nextSeed.2)

/-- `operator == ( rhs )`. -/
def beq (rhs : Splitmix P) : Bool := g.seed == rhs.seed && g.gamma == rhs.gamma

end Splitmix

/-- The arguments of the template `splitmix32_base`. -/
structure Parameters32 where
  m5 : BitVec 64
  m6 : BitVec 64
  v : Nat
  w : Nat

/-- The body of `splitmix32_base :: operator ( )`. -/
def mix32 (Q : Parameters32) (seed : BitVec 64) : BitVec 32 :=
  let seed := xorShift Q.v seed * Q.m5
  let seed := xorShift Q.w seed * Q.m6
  (seed >>> 32).setWidth 32

/-- `splitmix32_base :: operator ( )`. -/
def Splitmix.next32 {P : Parameters} (Q : Parameters32) (g : Splitmix P) :
    BitVec 32 × Splitmix P := (mix32 Q g.nextSeed.1, g.nextSeed.2)

/-- `splitmix64`. -/
def splitmix64 : Parameters where
  m1 := 0xff51afd7ed558ccd
  m2 := 0xc4ceb9fe1a85ec53
  p := 33
  q := 33
  r := 33
  m3 := 0xbf58476d1ce4e5b9
  m4 := 0x94d049bb133111eb
  s := 30
  t := 27
  u := 31

/-- `splitmix32`. -/
def splitmix32 : Parameters32 where
  m5 := 0x62a9d9ed799705f5
  m6 := 0xcb24d0a5c88c35b3
  v := 33
  w := 28

-- =========================================================== the global

/-- `g_seed` and `g_rng`. -/
structure Globals where
  seed : BitVec 64
  rng : Splitmix splitmix64

/-- At the start of the program. -/
def Globals.start : Globals where
  seed := 0
  rng := .new 1234567890 Splitmix.defaultGamma

/-- `next_seed ( )`. -/
def Globals.nextSeed (G : Globals) : BitVec 64 × Globals :=
  (G.seed + 1, ⟨G.seed + 1, G.rng.setSeed (G.seed + 1)⟩)

/-- `seed ( seed_ )`. -/
def Globals.setSeed (G : Globals) (s : BitVec 64) : Globals := { G with rng := G.rng.setSeed s }

end MctsConnectFour.SplitMix
