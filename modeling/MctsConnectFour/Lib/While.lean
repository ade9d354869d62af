/-
`while (cond) body` with explicit fuel, and the four rules every such
loop of the development is proved with: an invariant rule, a termination
rule, a counting rule, and fuel monotonicity. A loop over a list has an invariant rule of
its own (`foldl_inv`), and one that looks for a maximum finds the first
(`foldl_firstMax`). Nothing here knows what is being looped over.

A loop that runs out of fuel returns `none`, and so does one whose body
fails (`none` is also how a body reports a step the source leaves
undefined). The two are told apart by `whileLoop_total`: under an
invariant that makes the body succeed and a measure that drops, every
fuel above the measure returns a value.
-/
import Mathlib.Data.Option.Basic
import Mathlib.Order.Lattice
import Mathlib.Tactic.Common

namespace Loops

variable {σ : Type*}

/-- `while (cond) body`, with at most `fuel` executions of the body. -/
def whileLoop (cond : σ → Bool) (body : σ → Option σ) : Nat → σ → Option σ
  | 0, s => if cond s then none else some s
  | fuel + 1, s =>
      if cond s then (body s).bind (whileLoop cond body fuel) else some s

variable {cond : σ → Bool} {body : σ → Option σ}

/-- A loop whose guard is down returns at once, whatever the fuel. -/
theorem whileLoop_done {s : σ} (h : cond s = false) (fuel : Nat) :
    whileLoop cond body fuel s = some s := by
  cases fuel <;> simp [whileLoop, h]

/-- One turn of a loop whose guard is up. -/
theorem whileLoop_step {s : σ} (h : cond s = true) (fuel : Nat) :
    whileLoop cond body (fuel + 1) s
      = (body s).bind (whileLoop cond body fuel) := by
  simp [whileLoop, h]

/-- The states in which a loop entered in `s` evaluates its guard. -/
inductive Met (cond : σ → Bool) (body : σ → Option σ) (s : σ) : σ → Prop
  | start : Met cond body s s
  | turn {x y : σ} : Met cond body s x → cond x = true → body x = some y → Met cond body s y

/-- What holds at entry and survives every turn holds whenever the guard
is evaluated. -/
theorem Met.inv {I : σ → Prop}
    (hstep : ∀ s s', I s → cond s = true → body s = some s' → I s') {s x : σ}
    (h : Met cond body s x) (hs : I s) : I x := by
  induction h with
  | start => exact hs
  | turn _ hc hbody ih => exact hstep _ _ ih hc hbody

/-- A loop returns a state in which its guard is down. -/
theorem whileLoop_met {s : σ} : ∀ {fuel : Nat} {x s' : σ}, Met cond body s x →
    whileLoop cond body fuel x = some s' → Met cond body s s' ∧ cond s' = false := by
  intro fuel
  induction fuel with
  | zero =>
      intro x s' hmet hrun
      cases hc : cond x with
      | true => simp [whileLoop, hc] at hrun
      | false =>
          rw [whileLoop_done hc] at hrun
          cases hrun
          exact ⟨hmet, hc⟩
  | succ fuel ih =>
      intro x s' hmet hrun
      cases hc : cond x with
      | true =>
          rw [whileLoop_step hc] at hrun
          obtain ⟨y, hbody, hrest⟩ := Option.bind_eq_some_iff.mp hrun
          exact ih (hmet.turn hc hbody) hrest
      | false =>
          rw [whileLoop_done hc] at hrun
          cases hrun
          exact ⟨hmet, hc⟩

/-- The invariant rule: what holds at entry and survives every turn
holds at exit, where the guard is down. -/
theorem whileLoop_inv {I : σ → Prop}
    (hstep : ∀ s s', I s → cond s = true → body s = some s' → I s')
    {fuel : Nat} {s s' : σ} (hs : I s) (hrun : whileLoop cond body fuel s = some s') :
    I s' ∧ cond s' = false := by
  obtain ⟨hmet, hdone⟩ := whileLoop_met .start hrun
  exact ⟨hmet.inv hstep hs, hdone⟩

/-- The termination rule: under an invariant that makes every turn
succeed and a measure every turn lowers, fuel above the measure is
enough. -/
theorem whileLoop_total {I : σ → Prop} (μ : σ → Nat)
    (hstep : ∀ s, I s → cond s = true →
      ∃ s', body s = some s' ∧ I s' ∧ μ s' < μ s) :
    ∀ {fuel : Nat} {s : σ}, I s → μ s ≤ fuel →
      ∃ s', whileLoop cond body fuel s = some s' := by
  intro fuel
  induction fuel with
  | zero =>
      intro s hI hμ
      cases hc : cond s with
      | true =>
          obtain ⟨s', -, -, hlt⟩ := hstep s hI hc
          omega
      | false => exact ⟨s, whileLoop_done hc 0⟩
  | succ fuel ih =>
      intro s hI hμ
      cases hc : cond s with
      | true =>
          obtain ⟨s₁, hbody, hI₁, hlt⟩ := hstep s hI hc
          obtain ⟨s', hrest⟩ := ih hI₁ (by omega)
          refine ⟨s', ?_⟩
          rw [whileLoop_step hc, hbody]
          exact hrest
      | false => exact ⟨s, whileLoop_done hc _⟩

/-- Both in one, for loops whose turns are known to succeed. -/
theorem whileLoop_spec {c : σ → Bool} {b : σ → Option σ} {I : σ → Prop} (μ : σ → Nat)
    (hstep : ∀ s, I s → c s = true → ∃ s', b s = some s' ∧ I s' ∧ μ s' < μ s)
    {fuel : Nat} {s : σ} (hI : I s) (hμ : μ s ≤ fuel) :
    ∃ s', whileLoop c b fuel s = some s' ∧ I s' ∧ c s' = false := by
  obtain ⟨s', hrun⟩ := whileLoop_total μ hstep hI hμ
  refine ⟨s', hrun, whileLoop_inv (fun x x' hx hc hbody => ?_) hI hrun⟩
  obtain ⟨x'', hbody', hx', -⟩ := hstep x hx hc
  obtain rfl := Option.some.inj (hbody.symm.trans hbody')
  exact hx'

/-- The counting rule: where the guard is up as long as the measure is not
zero, and every turn lowers it by one, it is the number of turns. -/
theorem whileLoop_count {I : σ → Prop} (μ : σ → Nat) (hcond : ∀ s, I s → (cond s = true ↔ 0 < μ s))
    (hstep : ∀ s, I s → cond s = true → ∃ s', body s = some s' ∧ I s' ∧ μ s' + 1 = μ s) :
    ∀ {fuel : Nat} {s : σ}, I s →
      ((∃ s', whileLoop cond body fuel s = some s') ↔ μ s ≤ fuel) := by
  intro fuel
  induction fuel with
  | zero =>
      intro s hI
      cases hc : cond s with
      | true =>
          have hpos := (hcond s hI).mp hc
          refine iff_of_false ?_ (by omega)
          intro hrun
          obtain ⟨s', hs'⟩ := hrun
          simp [whileLoop, hc] at hs'
      | false =>
          have hzero := mt (hcond s hI).mpr (by rw [hc]; decide)
          exact iff_of_true ⟨s, whileLoop_done hc 0⟩ (by omega)
  | succ fuel ih =>
      intro s hI
      cases hc : cond s with
      | true =>
          obtain ⟨s₁, hbody, hI₁, hμ⟩ := hstep s hI hc
          rw [whileLoop_step hc, hbody, Option.bind_some, ih hI₁]
          omega
      | false =>
          have hzero := mt (hcond s hI).mpr (by rw [hc]; decide)
          exact iff_of_true ⟨s, whileLoop_done hc _⟩ (by omega)

/-- More fuel never changes a result. -/
theorem whileLoop_mono {fuel fuel' : Nat} {s s' : σ} (hle : fuel ≤ fuel')
    (hrun : whileLoop cond body fuel s = some s') :
    whileLoop cond body fuel' s = some s' := by
  induction fuel generalizing fuel' s with
  | zero =>
      cases hc : cond s with
      | true => simp [whileLoop, hc] at hrun
      | false =>
          rw [whileLoop_done hc] at hrun ⊢
          exact hrun
  | succ fuel ih =>
      cases hc : cond s with
      | true =>
          obtain ⟨k, rfl⟩ : ∃ k, fuel' = k + 1 := ⟨fuel' - 1, by omega⟩
          rw [whileLoop_step hc] at hrun ⊢
          obtain ⟨s₁, hbody, hrest⟩ := Option.bind_eq_some_iff.mp hrun
          rw [hbody]
          exact ih (by omega) hrest
      | false =>
          rw [whileLoop_done hc] at hrun ⊢
          exact hrun

/-- The invariant rule of a loop over a list: the invariant speaks of
the elements already visited, and a turn may use which come after. -/
theorem foldl_inv {α β : Type*} {f : β → α → β} {l : List α} {I : List α → β → Prop} {b : β}
    (hstart : I [] b)
    (hstep : ∀ (seen : List α) (a : α) (rest : List α) (b : β),
      l = seen ++ a :: rest → I seen b → I (seen ++ [a]) (f b a)) :
    I l (l.foldl f b) := by
  have hgo : ∀ (rest seen : List α) (b : β), l = seen ++ rest → I seen b →
      I l (rest.foldl f b) := by
    intro rest
    induction rest with
    | nil =>
        intro seen b hl hI
        rwa [hl, List.append_nil]
    | cons a rest ih =>
        intro seen b hl hI
        exact ih (seen ++ [a]) (f b a) (by simpa using hl) (hstep seen a rest b hl hI)
  exact hgo l [] b rfl hstart

/-- The same for a loop whose turns can fail, and do not. -/
theorem foldlM_inv {α β : Type*} {f : β → α → Option β} {l : List α} {I : List α → β → Prop}
    {b : β} (hstart : I [] b)
    (hstep : ∀ (seen : List α) (a : α) (rest : List α) (b : β),
      l = seen ++ a :: rest → I seen b → ∃ b', f b a = some b' ∧ I (seen ++ [a]) b') :
    ∃ b', l.foldlM f b = some b' ∧ I l b' := by
  have hgo : ∀ (rest seen : List α) (b : β), l = seen ++ rest → I seen b →
      ∃ b', rest.foldlM f b = some b' ∧ I l b' := by
    intro rest
    induction rest with
    | nil =>
        intro seen b hl hI
        rw [List.append_nil] at hl
        exact ⟨b, rfl, hl ▸ hI⟩
    | cons a rest ih =>
        intro seen b hl hI
        obtain ⟨b', hturn, hI'⟩ := hstep seen a rest b hl hI
        obtain ⟨b'', hrest, hI''⟩ := ih (seen ++ [a]) b' (by simp [hl]) hI'
        exact ⟨b'', by rw [List.foldlM_cons, hturn]; exact hrest, hI''⟩
  exact hgo l [] b rfl hstart

-- ============================================================= maxima

section FirstMax

variable {α β γ : Type*} [LinearOrder β]

/-- `a` is the first element of the list with the greatest value. -/
def FirstMax (f : α → β) (l : List α) (a : α) : Prop :=
  ∃ pre post, l = pre ++ a :: post ∧ (∀ b ∈ pre, f b < f a) ∧ ∀ b ∈ post, f b ≤ f a

variable {f : α → β} {l : List α} {a x : α}

theorem FirstMax.mem (h : FirstMax f l a) : a ∈ l := by
  obtain ⟨pre, post, rfl, -, -⟩ := h
  exact List.mem_append_right _ (List.mem_cons_self ..)

theorem FirstMax.le (h : FirstMax f l a) {b : α} (hb : b ∈ l) : f b ≤ f a := by
  obtain ⟨pre, post, rfl, hpre, hpost⟩ := h
  rcases List.mem_append.mp hb with hb | hb
  · exact le_of_lt (hpre b hb)
  · rcases List.mem_cons.mp hb with rfl | hb
    · exact le_rfl
    · exact hpost b hb

/-- An element that is not greater is passed over. -/
theorem FirstMax.skip (h : FirstMax f l a) (hx : f x ≤ f a) : FirstMax f (l ++ [x]) a := by
  obtain ⟨pre, post, rfl, hpre, hpost⟩ := h
  refine ⟨pre, post ++ [x], by simp, hpre, List.forall_mem_append.mpr ⟨hpost, ?_⟩⟩
  intro b hb
  rwa [List.mem_singleton.mp hb]

/-- An element that is greater than all before is taken. -/
theorem FirstMax.take (h : ∀ b ∈ l, f b < f x) : FirstMax f (l ++ [x]) x :=
  ⟨l, [], rfl, h, fun _ hb => absurd hb List.not_mem_nil⟩

/-- A loop that keeps the greatest value so far, with what belongs to it,
ends with the first maximum when it starts below all values. -/
theorem foldl_firstMax (g : α → γ) {start : β × γ} (hstart : ∀ x ∈ l, start.1 < f x)
    (hne : l ≠ []) :
    ∃ a, FirstMax f l a ∧
      l.foldl (fun best x => if f x > best.1 then (f x, g x) else best) start = (f a, g a) := by
  have hloop := foldl_inv (l := l) (b := start)
    (f := fun best x => if f x > best.1 then (f x, g x) else best)
    (I := fun seen best => seen = [] ∧ best = start
      ∨ ∃ a, FirstMax f seen a ∧ best = (f a, g a))
    (Or.inl ⟨rfl, rfl⟩) (by
      intro seen x rest best hl hI
      have hx : x ∈ l := hl ▸ List.mem_append_right _ (List.mem_cons_self ..)
      rcases hI with ⟨rfl, rfl⟩ | ⟨a, hmax, rfl⟩
      · refine Or.inr ⟨x, .take fun _ hb => absurd hb List.not_mem_nil, ?_⟩
        rw [if_pos (hstart x hx)]
      · by_cases hgt : f x > f a
        · exact Or.inr ⟨x, .take fun b hb => lt_of_le_of_lt (hmax.le hb) hgt, if_pos hgt⟩
        · exact Or.inr ⟨a, hmax.skip (not_lt.mp hgt), if_neg hgt⟩)
  rcases hloop with ⟨hnil, -⟩ | hmax
  · exact absurd hnil hne
  · exact hmax

end FirstMax

end Loops
