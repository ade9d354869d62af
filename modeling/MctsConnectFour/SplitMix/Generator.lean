/-
Runs of a generator: where it is after any calls, and what it has given.

A call that draws takes the seed one step on; `advance ( )` and
`backstep ( )` take many, also backwards. As `gamma_` is odd, the steps of
a round come to every seed once, so the outputs of `splitmix64` are all
words in some order, and `operator - ( )` finds out how many steps lie
between two seeds.
-/
import Mathlib.Data.Set.Card
import MctsConnectFour.SplitMix.Mixing

namespace MctsConnectFour.SplitMix

open Words

namespace Splitmix

variable {P : Parameters}

@[ext] theorem ext {g g' : Splitmix P} (hseed : g.seed = g'.seed) (hgamma : g.gamma = g'.gamma) :
    g = g' := by
  cases g
  cases g'
  cases hseed
  cases hgamma
  rfl

theorem beq_iff {g g' : Splitmix P} : g.beq g' = true ↔ g = g' := by
  rw [beq, Bool.and_eq_true, beq_iff_eq, beq_iff_eq]
  exact ⟨fun h => ext h.1 h.2, fun h => ⟨congrArg seed h, congrArg gamma h⟩⟩

-- =============================================================== steps

variable (g : Splitmix P)

@[simp] theorem gamma_advanceBy (n : BitVec 64) : (g.advanceBy n).gamma = g.gamma := rfl

theorem seed_advanceBy (n : BitVec 64) : (g.advanceBy n).seed = g.seed + n * g.gamma := rfl

theorem advanceBy_zero : g.advanceBy 0 = g := ext (by rw [seed_advanceBy, zero_mul, add_zero]) rfl

theorem advanceBy_add (m n : BitVec 64) : (g.advanceBy m).advanceBy n = g.advanceBy (m + n) := by
  apply ext
  · rw [seed_advanceBy, seed_advanceBy, seed_advanceBy, gamma_advanceBy, add_mul, add_assoc]
  · rfl

/-- `advance ( )` is a step. -/
theorem advance_eq : g.advance = g.advanceBy 1 := ext (by rw [seed_advanceBy, one_mul]; rfl) rfl

theorem backstep_eq (n : BitVec 64) : g.backstep n = g.advanceBy (-n) := rfl

/-- What `generate ( )` writes, and where it leaves the generator. -/
theorem generate_eq : ∀ (count : Nat) (g : Splitmix P), g.generate count
    = ((List.range count).map fun i => mix64 P (g.advanceBy (BitVec.ofNat 64 i)).seed,
      g.advanceBy (BitVec.ofNat 64 count)) := by
  intro count
  induction count with
  | zero => exact fun g => Prod.ext rfl g.advanceBy_zero.symm
  | succ count ih =>
      intro g
      have hstep : ∀ i, g.advance.advanceBy (BitVec.ofNat 64 i)
          = g.advanceBy (BitVec.ofNat 64 (i + 1)) := by
        intro i
        rw [advance_eq, advanceBy_add, add_comm i 1, BitVec.ofNat_add]
        rfl
      rw [generate, nextSeed, ih, List.range_succ_eq_map, List.map_cons, List.map_map, hstep]
      congr 2
      · rw [show BitVec.ofNat 64 0 = 0 from rfl, advanceBy_zero]
      · apply List.map_congr_left
        intro i _
        rw [Function.comp_apply, hstep]

/-- The outputs, one after the other. -/
def output (n : Nat) : BitVec 64 := mix64 P (g.advanceBy (BitVec.ofNat 64 n)).seed

theorem ofNat_add_round (n : Nat) : BitVec.ofNat 64 (n + 2 ^ 64) = BitVec.ofNat 64 n := by
  apply BitVec.eq_of_toNat_eq
  rw [BitVec.toNat_ofNat, BitVec.toNat_ofNat, Nat.add_mod_right]

end Splitmix

-- =============================================================== calls

section Calls

variable {P : Parameters}

/-- The calls that leave `gamma_` alone and do not seed anew. -/
inductive Call where
  | advance
  | next
  | generate (count : Nat)
  | advanceBy (delta : BitVec 64)
  | backstep (delta : BitVec 64)
deriving DecidableEq

/-- What a call leaves of the generator. -/
def Call.run (g : Splitmix P) : Call → Splitmix P
  | advance => g.advance
  | next => g.next.2
  | generate count => (g.generate count).2
  | advanceBy delta => g.advanceBy delta
  | backstep delta => g.backstep delta

/-- The steps it takes. -/
def Call.steps : Call → BitVec 64
  | advance => 1
  | next => 1
  | generate count => BitVec.ofNat 64 count
  | advanceBy delta => delta
  | backstep delta => -delta

theorem Call.run_eq (g : Splitmix P) (c : Call) : c.run g = g.advanceBy c.steps := by
  cases c with
  | advance => exact g.advance_eq
  | next => exact g.advance_eq
  | generate count => exact congrArg Prod.snd (Splitmix.generate_eq count g)
  | advanceBy delta => rfl
  | backstep delta => rfl

/-- Calls one after the other. -/
def runCalls (g : Splitmix P) (cs : List Call) : Splitmix P := cs.foldl Call.run g

def stepsOf (cs : List Call) : BitVec 64 := (cs.map Call.steps).sum

theorem runCalls_eq (cs : List Call) : ∀ g : Splitmix P,
    runCalls g cs = g.advanceBy (stepsOf cs) := by
  induction cs with
  | nil => exact fun g => g.advanceBy_zero.symm
  | cons c cs ih =>
      intro g
      rw [runCalls, List.foldl_cons, ← runCalls, ih, c.run_eq, Splitmix.advanceBy_add]
      rfl

/-- `operator - ( )` finds the one number of steps that takes the seed of
the other generator to its own. -/
theorem sub_spec (g other : Splitmix P) :
    ∃ d, g.sub other = some d ∧ ∀ n, (other.advanceBy n).seed = g.seed ↔ n = d := by
  have hinv : other.gamma * other.gamma ^ (2 ^ 64 - 1) = 1 := by
    rw [mul_comm, other.odd.pow_mul_self]
  refine ⟨(g.seed - other.seed) * other.gamma ^ (2 ^ 64 - 1), ?_, fun n => ?_⟩
  · rw [Splitmix.sub, modularInverse_eq, Option.map_some]
  rw [Splitmix.seed_advanceBy]
  constructor
  · intro h
    rw [← h, add_sub_cancel_left, mul_assoc, hinv, mul_one]
  · intro h
    rw [h, mul_assoc, mul_comm _ other.gamma, hinv, mul_one, add_sub_cancel]

/-- After any calls that do not seed anew `operator - ( )` tells how many
steps they were, and that many steps back the generator is what it was. -/
theorem sub_runCalls (g : Splitmix P) (cs : List Call) :
    (runCalls g cs).sub g = some (stepsOf cs)
      ∧ (runCalls g cs).backstep (stepsOf cs) = g
      ∧ ((runCalls g cs).beq g = true ↔ stepsOf cs = 0) := by
  rw [runCalls_eq]
  obtain ⟨d, hd, hiff⟩ := sub_spec (g.advanceBy (stepsOf cs)) g
  have hsteps : stepsOf cs = d := (hiff (stepsOf cs)).mp rfl
  refine ⟨by rw [hd, hsteps], ?_, ?_⟩
  · rw [Splitmix.backstep_eq, Splitmix.advanceBy_add, add_neg_cancel, Splitmix.advanceBy_zero]
  · rw [Splitmix.beq_iff]
    constructor
    · intro h
      have hseed : (g.advanceBy 0).seed = (g.advanceBy (stepsOf cs)).seed := by
        rw [h, Splitmix.advanceBy_zero]
      rw [hsteps]
      exact ((hiff 0).mp hseed).symm
    · intro h
      rw [h, Splitmix.advanceBy_zero]

end Calls

-- ============================================================== rounds

section Rounds

variable {P : Parameters}

/-- The states of a round come to every seed once. -/
theorem existsUnique_seed (g : Splitmix P) (s : BitVec 64) :
    ∃! n, n < 2 ^ 64 ∧ (g.advanceBy (BitVec.ofNat 64 n)).seed = s :=
  existsUnique_step g.odd g.seed s

/-- In a round of 2 ^ 64 draws `splitmix64` gives every word once, and
then the same again, from any seed and with any `gamma_`; and `wrapped ( )`
holds of one state of the round. -/
theorem output_round (hP : P.Mixes) (g : Splitmix P) :
    (∀ v, ∃! n, n < 2 ^ 64 ∧ g.output n = v)
      ∧ (∀ n, g.output (n + 2 ^ 64) = g.output n)
      ∧ ∃! n, n < 2 ^ 64 ∧ (g.advanceBy (BitVec.ofNat 64 n)).wrapped = true := by
  refine ⟨fun v => ?_, fun n => by rw [Splitmix.output, Splitmix.ofNat_add_round]; rfl, ?_⟩
  · obtain ⟨s, rfl⟩ := hP.bijective.surjective v
    simp only [Splitmix.output, hP.injective.eq_iff]
    exact existsUnique_seed g s
  · simp only [Splitmix.wrapped, beq_iff_eq]
    exact existsUnique_seed g 0

theorem output_round_default :
    let g : Splitmix splitmix64 := .new Splitmix.defaultSeed Splitmix.defaultGamma
    (∀ v, ∃! n, n < 2 ^ 64 ∧ g.output n = v)
      ∧ (∀ n, g.output (n + 2 ^ 64) = g.output n)
      ∧ ∃! n, n < 2 ^ 64 ∧ (g.advanceBy (BitVec.ofNat 64 n)).wrapped = true :=
  output_round splitmix64_mixes _

/-- The arguments of `splitmix32_base` that lose nothing before the last
shift. -/
structure Parameters32.Mixes (Q : Parameters32) : Prop where
  m5 : IsOdd Q.m5
  m6 : IsOdd Q.m6
  shifts : 1 ≤ Q.v ∧ 1 ≤ Q.w

theorem splitmix32_mixes : splitmix32.Mixes := ⟨by decide, by decide, by decide⟩

/-- `mix32 ( )` before the last shift. -/
def scramble (Q : Parameters32) (seed : BitVec 64) : BitVec 64 :=
  xorShift Q.w (xorShift Q.v seed * Q.m5) * Q.m6

theorem mix32_eq (Q : Parameters32) (seed : BitVec 64) :
    mix32 Q seed = (scramble Q seed >>> 32).setWidth 32 := rfl

theorem Parameters32.Mixes.bijective {Q : Parameters32} (h : Q.Mixes) :
    Function.Bijective (scramble Q) := by
  apply Finite.injective_iff_bijective.mp
  intro x y hxy
  apply xorShift_injective h.shifts.1
  apply mul_injective h.m5
  apply xorShift_injective h.shifts.2
  exact mul_injective h.m6 hxy

/-- In a round `splitmix32` gives every half word equally often. -/
theorem output32_round {Q : Parameters32} (hQ : Q.Mixes) (g : Splitmix P) (v : BitVec 32) :
    {n | n < 2 ^ 64 ∧ ((g.advanceBy (BitVec.ofNat 64 n)).next32 Q).1 = v}.ncard = 2 ^ 32 := by
  -- what the last shift has taken away tells these outputs apart
  let lower : {n | n < 2 ^ 64 ∧ ((g.advanceBy (BitVec.ofNat 64 n)).next32 Q).1 = v} → BitVec 32 :=
    fun n => (scramble Q (g.advanceBy (BitVec.ofNat 64 n)).seed).setWidth 32
  have hbijective : Function.Bijective lower := by
    constructor
    · intro a b hab
      obtain ⟨a, ha, hva⟩ := a
      obtain ⟨b, hb, hvb⟩ := b
      have hseed := hQ.bijective.injective
        (eq_of_parts (m := 32) (n := 32) (hva.trans hvb.symm) hab)
      exact Subtype.ext ((existsUnique_seed g _).unique ⟨ha, hseed⟩ ⟨hb, rfl⟩)
    · intro u
      obtain ⟨x, hupper, hlower⟩ := exists_parts v u
      obtain ⟨s, hs⟩ := hQ.bijective.surjective x
      obtain ⟨n, ⟨hn, hseed⟩, -⟩ := existsUnique_seed g s
      refine ⟨⟨n, hn, ?_⟩, ?_⟩
      · show mix32 Q (g.advanceBy (BitVec.ofNat 64 n)).seed = v
        rw [mix32_eq, hseed, hs]
        exact hupper
      · show (scramble Q (g.advanceBy (BitVec.ofNat 64 n)).seed).setWidth 32 = u
        rw [hseed, hs]
        exact hlower
  rw [← Nat.card_coe_set_eq, Nat.card_congr (Equiv.ofBijective lower hbijective), card_word]

theorem output32_round_default :
    {n | n < 2 ^ 64 ∧ (((Splitmix.new Splitmix.defaultSeed Splitmix.defaultGamma
      : Splitmix splitmix64).advanceBy (BitVec.ofNat 64 n)).next32 splitmix32).1 = 7}.ncard
        = 2 ^ 32 :=
  output32_round splitmix32_mixes _ _

end Rounds

-- =============================================================== splits

section Splits

variable {P : Parameters}

theorem or_one_of_isOdd {x : BitVec 64} (hx : IsOdd x) : x ||| 1 = x := by
  rw [isOdd_iff] at hx
  apply BitVec.eq_of_getLsbD_eq
  intro i _
  rw [BitVec.getLsbD_or]
  cases i with
  | zero => rw [hx]; rfl
  | succ i =>
      have hone : (1 : BitVec 64).getLsbD (i + 1) = false := by
        rw [← BitVec.testBit_toNat]
        exact (Nat.testBit_succ 1 i).trans (Nat.zero_testBit i)
      rw [hone, Bool.or_false]

/-- `split ( )` returns. It takes two steps of the generator, seeds the new
one with the first output, and finds it a `gamma_` in which 24 bits differ
from the next. -/
theorem split_eq (g : Splitmix P) : ∃ child, g.split = some (child, g.advanceBy 2)
    ∧ child.seed = g.output 0 ∧ 24 ≤ weight (xorShift 1 child.gamma) := by
  obtain ⟨gamma, hgamma, hodd, hweight⟩ := mixGamma_spec P g.advance.seed
  have hrest : g.advance.advance = g.advanceBy 2 := by
    rw [Splitmix.advance_eq, Splitmix.advance_eq, Splitmix.advanceBy_add]
    rfl
  have hfirst : g.advanceBy (BitVec.ofNat 64 0) = g := g.advanceBy_zero
  refine ⟨.new (mix64 P g.seed) gamma, ?_, ?_, ?_⟩
  · show (mixGamma P g.advance.seed).map _ = _
    rw [hgamma, Option.map_some, ← hrest]
    rfl
  · rw [Splitmix.output, hfirst]
    rfl
  · show 24 ≤ weight (xorShift 1 (gamma ||| 1))
    rwa [or_one_of_isOdd hodd]

/-- `split ( )` again and again on what it leaves: the children. -/
def splits : Nat → Splitmix P → Option (List (Splitmix P))
  | 0, _ => some []
  | count + 1, g =>
      g.split.bind fun x => (splits count x.2).map fun children => x.1 :: children

theorem splits_spec : ∀ (count : Nat) (g : Splitmix P), ∃ children, splits count g = some children
    ∧ children.map Splitmix.seed = (List.range count).map (fun i => g.output (2 * i))
    ∧ ∀ child ∈ children, 24 ≤ weight (xorShift 1 child.gamma) := by
  intro count
  induction count with
  | zero => exact fun g => ⟨[], rfl, rfl, fun child h => by cases h⟩
  | succ count ih =>
      intro g
      obtain ⟨child, hsplit, hseed, hweight⟩ := split_eq g
      obtain ⟨children, hrest, hseeds, hweights⟩ := ih (g.advanceBy 2)
      refine ⟨child :: children, ?_, ?_, List.forall_mem_cons.mpr ⟨hweight, hweights⟩⟩
      · rw [splits, hsplit, Option.bind_some, hrest]
        rfl
      · have hshift : ∀ i, (g.advanceBy 2).output (2 * i) = g.output (2 * (i + 1)) := by
          intro i
          rw [Splitmix.output, Splitmix.advanceBy_add, Splitmix.output, Nat.mul_add,
            add_comm (2 * i), BitVec.ofNat_add]
          rfl
        rw [List.map_cons, hseed, hseeds, List.range_succ_eq_map, List.map_cons, List.map_map]
        congr 1
        exact List.map_congr_left fun i _ => hshift i

/-- The children of a generator, as many as half a round has room for,
start from different seeds, and every one has a `gamma_` whose bits change
often. -/
theorem splits_distinct (hP : P.Mixes) (g : Splitmix P) {count : Nat} (hcount : count ≤ 2 ^ 63) :
    ∃ children, splits count g = some children ∧ children.length = count
      ∧ (children.map Splitmix.seed).Nodup
      ∧ ∀ child ∈ children, IsOdd child.gamma ∧ 24 ≤ weight (xorShift 1 child.gamma) := by
  obtain ⟨children, hsplits, hseeds, hweights⟩ := splits_spec count g
  refine ⟨children, hsplits, ?_, ?_, fun child h => ⟨child.odd, hweights child h⟩⟩
  · have hlen := congrArg List.length hseeds
    simpa using hlen
  · rw [hseeds]
    apply List.Nodup.map_on _ List.nodup_range
    intro i hi j hj hij
    rw [List.mem_range] at hi hj
    have hseed := hP.injective hij
    have hindex := (existsUnique_seed g _).unique ⟨(by omega : 2 * i < 2 ^ 64), hseed⟩
      ⟨(by omega : 2 * j < 2 ^ 64), rfl⟩
    omega

theorem splits_distinct_default :
    let g : Splitmix splitmix64 := .new Splitmix.defaultSeed Splitmix.defaultGamma
    ∃ children, splits 1000 g = some children ∧ children.length = 1000
      ∧ (children.map Splitmix.seed).Nodup
      ∧ ∀ child ∈ children, IsOdd child.gamma ∧ 24 ≤ weight (xorShift 1 child.gamma) :=
  splits_distinct splitmix64_mixes _ (by decide)

end Splits

-- =========================================================== the global

/-- The calls on the generator of the program. -/
inductive GlobalCall where
  | nextSeed
  | seed (s : BitVec 64)
  | draw (c : Call)
deriving DecidableEq

def GlobalCall.run (G : Globals) : GlobalCall → Globals
  | nextSeed => G.nextSeed.2
  | seed s => G.setSeed s
  | draw c => { G with rng := c.run G.rng }

/-- The program, from its start. -/
def runGlobal (cs : List GlobalCall) : Globals := cs.foldl GlobalCall.run .start

theorem runGlobal_spec (cs : List GlobalCall) :
    (runGlobal cs).seed = BitVec.ofNat 64 (cs.count .nextSeed)
      ∧ (runGlobal cs).rng.gamma = Globals.start.rng.gamma := by
  induction cs using List.reverseRecOn with
  | nil => exact ⟨rfl, rfl⟩
  | append_singleton cs c ih =>
      obtain ⟨hseed, hgamma⟩ := ih
      rw [runGlobal, List.foldl_append, ← runGlobal, List.foldl_cons, List.foldl_nil]
      cases c with
      | nextSeed =>
          refine ⟨?_, hgamma⟩
          rw [List.count_append, List.count_singleton_self, BitVec.ofNat_add, ← hseed]
          rfl
      | seed s => exact ⟨by rw [List.count_append]; exact hseed, hgamma⟩
      | draw c =>
          refine ⟨by rw [List.count_append]; exact hseed, ?_⟩
          show (c.run (runGlobal cs).rng).gamma = _
          rw [c.run_eq]
          exact hgamma

end MctsConnectFour.SplitMix
