/-
Which counters a move takes: the loop of `SandwichedCounters ( )`, and the
rule of the game.

The rule is `Sandwiched`: along a direction from the square come `n`
counters of the opponent and then one of the player. The loop finds the
first place that is not the opponent's, which is the only one that can be
the player's; the searches over adjacent directions leave out only
directions in which nothing is sandwiched.
-/
import Mathlib.Tactic.Linarith
import Mathlib.Tactic.Ring
import MctsConnectFour.Uct.Othello.Basic

namespace MctsConnectFour.Uct.Othello

open Loops

-- =============================================================== places

/-- The place `k` steps from `c`. -/
def along (c : Square) (d : Int × Int) (k : Nat) : Square := (c.1 + k * d.1, c.2 + k * d.2)

theorem step_along (c : Square) (d : Int × Int) (k : Nat) :
    step (along c d k) d = along c d (k + 1) := by
  apply Prod.ext
  · show c.1 + k * d.1 + d.1 = c.1 + ((k + 1 : Nat) : Int) * d.1
    push_cast
    ring
  · show c.2 + k * d.2 + d.2 = c.2 + ((k + 1 : Nat) : Int) * d.2
    push_cast
    ring

theorem step_eq_along (c : Square) (d : Int × Int) : step c d = along c d 1 := by
  rw [← step_along]
  simp [along]

/-- A direction changes each coordinate by one or not at all, and one of
them. -/
theorem direction_cases {d : Int × Int} (hd : d ∈ directions) :
    (d.1 = -1 ∨ d.1 = 0 ∨ d.1 = 1) ∧ (d.2 = -1 ∨ d.2 = 0 ∨ d.2 = 1) ∧ (d.1 ≠ 0 ∨ d.2 ≠ 0) := by
  revert d
  decide

/-- A coordinate of a place that is reached tells the one of the
direction. -/
theorem sign_mul {k : Nat} (hk : 1 ≤ k) {e : Int} (he : e = -1 ∨ e = 0 ∨ e = 1) :
    ((k : Int) * e).sign = e := by
  rw [Int.sign_mul, Int.sign_natCast_of_ne_zero (by omega), one_mul]
  rcases he with rfl | rfl | rfl <;> rfl

/-- No place is reached in two ways. -/
theorem along_inj {c : Square} {d d' : Int × Int} (hd : d ∈ directions) (hd' : d' ∈ directions)
    {k k' : Nat} (hk : 1 ≤ k) (hk' : 1 ≤ k') (h : along c d k = along c d' k') :
    d = d' ∧ k = k' := by
  obtain ⟨h₁, h₂, hne⟩ := direction_cases hd
  obtain ⟨h₁', h₂', -⟩ := direction_cases hd'
  obtain ⟨hx, hy⟩ := Prod.mk.inj h
  have hx : (k : Int) * d.1 = k' * d'.1 := by linarith
  have hy : (k : Int) * d.2 = k' * d'.2 := by linarith
  have hdd : d = d' := by
    apply Prod.ext
    · rw [← sign_mul hk h₁, hx, sign_mul hk' h₁']
    · rw [← sign_mul hk h₂, hy, sign_mul hk' h₂']
  subst hdd
  refine ⟨rfl, ?_⟩
  rcases hne with hne | hne
  · exact_mod_cast mul_right_cancel₀ hne hx
  · exact_mod_cast mul_right_cancel₀ hne hy

namespace OthelloState

variable {s : OthelloState} {c c' : Square} {d : Int × Int} {n n' : Nat}

theorem isOnBoard_iff : s.isOnBoard c = true ↔ 0 ≤ c.1 ∧ c.1 < s.size ∧ 0 ≤ c.2 ∧ c.2 < s.size := by
  simp [isOnBoard, and_assoc]

theorem mem_squares : c ∈ s.squares ↔ s.isOnBoard c = true := by
  rw [isOnBoard_iff, squares, List.mem_flatMap]
  constructor
  · intro h
    obtain ⟨x, hx, hc⟩ := h
    obtain ⟨y, hy, rfl⟩ := List.mem_map.mp hc
    rw [List.mem_range] at hx hy
    simp only
    omega
  · intro h
    refine ⟨c.1.toNat, List.mem_range.mpr (by omega),
      List.mem_map.mpr ⟨c.2.toNat, List.mem_range.mpr (by omega), ?_⟩⟩
    apply Prod.ext
    · exact Int.toNat_of_nonneg h.1
    · exact Int.toNat_of_nonneg h.2.2.1

theorem squares_nodup (s : OthelloState) : s.squares.Nodup := by
  rw [squares, List.nodup_flatMap]
  constructor
  · intro x _
    apply List.Nodup.map _ List.nodup_range
    intro y y' hy
    exact Int.ofNat.inj (Prod.mk.inj hy).2
  · apply List.Pairwise.imp_of_mem _ List.nodup_range
    intro x x' _ _ hne c hc hc'
    obtain ⟨y, -, rfl⟩ := List.mem_map.mp hc
    obtain ⟨y', -, heq⟩ := List.mem_map.mp hc'
    exact hne (Int.ofNat.inj (Prod.mk.inj heq).1).symm

theorem isOnBoard_of_isEnemy (h : s.isEnemy c = true) : s.isOnBoard c = true :=
  (Bool.and_eq_true_iff.mp h).1

-- ============================================================ the rule

/-- Along `d` come `n` counters of the opponent, and then one's own. -/
structure Sandwiched (s : OthelloState) (c : Square) (d : Int × Int) (n : Nat) : Prop where
  enemies : ∀ k, 1 ≤ k → k ≤ n → s.isEnemy (along c d k) = true
  own : s.isOwn (along c d (n + 1)) = true

/-- A counter that a move to `c` takes. -/
def Captured (s : OthelloState) (c c' : Square) : Prop :=
  ∃ d ∈ directions, ∃ n, s.Sandwiched c d n ∧ ∃ k, 1 ≤ k ∧ k ≤ n ∧ c' = along c d k

/-- A counter has one owner. -/
theorem not_isEnemy_of_isOwn (h : s.isOwn c = true) : s.isEnemy c = false := by
  obtain ⟨-, hown⟩ := Bool.and_eq_true_iff.mp h
  rw [isEnemy, eq_of_beq hown]
  have hne : 3 - s.playerJustMoved ≠ s.playerJustMoved := by omega
  simp [hne]

-- ============================================================ the loop

/-- How far it is to the edge. -/
def room (s : OthelloState) (d : Int × Int) (c : Square) : Nat :=
  if d.1 = 1 then (s.size - c.1).toNat
  else if d.1 = -1 then (c.1 + 1).toNat
  else if d.2 = 1 then (s.size - c.2).toNat
  else (c.2 + 1).toNat

theorem room_step (hd : d ∈ directions) (hc : s.isOnBoard c = true) :
    s.room d (step c d) < s.room d c ∧ s.room d (step c d) ≤ s.size := by
  obtain ⟨h₁, h₂, hne⟩ := direction_cases hd
  have hon := isOnBoard_iff.mp hc
  unfold room step
  simp only
  split_ifs <;> omega

/-- The places the loop passes in `n` steps. -/
def passed (c : Square) (d : Int × Int) (n : Nat) : List Square :=
  (List.range n).map fun k => along c d (k + 1)

theorem mem_passed : c' ∈ passed c d n ↔ ∃ k, 1 ≤ k ∧ k ≤ n ∧ c' = along c d k := by
  rw [passed, List.mem_map]
  constructor
  · intro h
    obtain ⟨k, hk, rfl⟩ := h
    exact ⟨k + 1, by omega, by have := List.mem_range.mp hk; omega, rfl⟩
  · intro h
    obtain ⟨k, hk, hkn, rfl⟩ := h
    exact ⟨k - 1, List.mem_range.mpr (by omega), by rw [Nat.sub_add_cancel hk]⟩

/-- The loop comes to the first place that is not the opponent's. -/
theorem walk_spec (hd : d ∈ directions) (hc : s.isOnBoard c = true) :
    ∃ n, s.walk c d = some (along c d (n + 1), passed c d n)
      ∧ (∀ k, 1 ≤ k → k ≤ n → s.isEnemy (along c d k) = true)
      ∧ s.isEnemy (along c d (n + 1)) = false := by
  have hroom := room_step hd hc
  have hloop : ∃ x, s.walk c d = some x
      ∧ (∃ n, x = (along c d (n + 1), passed c d n)
        ∧ ∀ k, 1 ≤ k → k ≤ n → s.isEnemy (along c d k) = true)
      ∧ s.isEnemy x.1 = false := by
    apply whileLoop_spec (I := fun x : Square × List Square => ∃ n,
      x = (along c d (n + 1), passed c d n)
        ∧ ∀ k, 1 ≤ k → k ≤ n → s.isEnemy (along c d k) = true) (fun x => s.room d x.1)
    · intro x hx henemy
      obtain ⟨n, rfl, henemies⟩ := hx
      refine ⟨(step (along c d (n + 1)) d, passed c d n ++ [along c d (n + 1)]), rfl,
        ⟨n + 1, ?_, ?_⟩, (room_step hd (isOnBoard_of_isEnemy henemy)).1⟩
      · rw [step_along, passed, passed, List.range_succ, List.map_append]
        rfl
      · intro k hk hkn
        rcases Nat.lt_or_ge n k with hlt | hge
        · obtain rfl : k = n + 1 := by omega
          exact henemy
        · exact henemies k hk hge
    · exact ⟨0, by rw [step_eq_along]; rfl, fun k hk hk0 => absurd hk (by omega)⟩
    · exact hroom.2
  obtain ⟨x, hx, ⟨n, hn, henemies⟩, hdone⟩ := hloop
  rw [hn] at hx hdone
  exact ⟨n, hx, henemies, hdone⟩

/-- What is sandwiched along a direction, if anything is. -/
theorem sandwichedCounters_spec (hd : d ∈ directions) (hc : s.isOnBoard c = true) :
    (∃ n, s.Sandwiched c d n ∧ s.sandwichedCounters c d = passed c d n)
      ∨ (∀ n, ¬ s.Sandwiched c d n) ∧ s.sandwichedCounters c d = [] := by
  obtain ⟨n, hwalk, henemies, hdone⟩ := walk_spec hd hc
  by_cases hown : s.isOwn (along c d (n + 1)) = true
  · exact Or.inl ⟨n, ⟨henemies, hown⟩, by rw [sandwichedCounters, hwalk]; exact if_pos hown⟩
  · refine Or.inr ⟨fun n' hn' => ?_, by rw [sandwichedCounters, hwalk]; exact if_neg hown⟩
    -- the place after the counters is the first that is not the opponent's
    rcases Nat.lt_trichotomy n n' with hlt | rfl | hgt
    · rw [hn'.enemies (n + 1) (by omega) hlt] at hdone
      cases hdone
    · exact hown hn'.own
    · have henemy := henemies (n' + 1) (by omega) hgt
      rw [not_isEnemy_of_isOwn hn'.own] at henemy
      cases henemy

theorem mem_sandwichedCounters (hd : d ∈ directions) (hc : s.isOnBoard c = true) :
    c' ∈ s.sandwichedCounters c d
      ↔ ∃ n, s.Sandwiched c d n ∧ ∃ k, 1 ≤ k ∧ k ≤ n ∧ c' = along c d k := by
  rcases sandwichedCounters_spec hd hc with ⟨n, hn, heq⟩ | ⟨hnone, heq⟩
  · rw [heq, mem_passed]
    constructor
    · exact fun hk => ⟨n, hn, hk⟩
    · intro h
      obtain ⟨n', hn', k, hk, hkn, rfl⟩ := h
      refine ⟨k, hk, ?_, rfl⟩
      -- the run of counters ends at one place
      by_contra hlt
      have henemy := hn'.enemies (n + 1) (by omega) (by omega)
      rw [not_isEnemy_of_isOwn hn.own] at henemy
      cases henemy
  · rw [heq]
    refine iff_of_false List.not_mem_nil ?_
    intro h
    obtain ⟨n, hn, -⟩ := h
    exact hnone n hn

-- ======================================================= the directions

/-- Nothing is sandwiched in a direction that does not begin with a
counter of the opponent. -/
theorem mem_adjacentEnemyDirections :
    d ∈ s.adjacentEnemyDirections c ↔ d ∈ directions ∧ s.isEnemy (step c d) = true :=
  List.mem_filter

theorem mem_getAllSandwichedCounters (hc : s.isOnBoard c = true) :
    c' ∈ s.getAllSandwichedCounters c ↔ s.Captured c c' := by
  rw [getAllSandwichedCounters, List.mem_flatMap]
  constructor
  · intro h
    obtain ⟨d, hd, hmem⟩ := h
    have hd := (mem_adjacentEnemyDirections.mp hd).1
    exact ⟨d, hd, (mem_sandwichedCounters hd hc).mp hmem⟩
  · intro h
    obtain ⟨d, hd, n, hn, k, hk, hkn, heq⟩ := h
    have hfirst : s.isEnemy (step c d) = true := by
      rw [step_eq_along]
      exact hn.enemies 1 le_rfl (hk.trans hkn)
    exact ⟨d, mem_adjacentEnemyDirections.mpr ⟨hd, hfirst⟩,
      (mem_sandwichedCounters hd hc).mpr ⟨n, hn, k, hk, hkn, heq⟩⟩

/-- `ExistsSandwichedCounter ( )` stops at the first direction, and
agrees. -/
theorem existsSandwichedCounter_iff :
    s.existsSandwichedCounter c = true ↔ s.getAllSandwichedCounters c ≠ [] := by
  rw [existsSandwichedCounter, List.any_eq_true, getAllSandwichedCounters, Ne,
    List.flatMap_eq_nil_iff]
  constructor
  · intro h hnil
    obtain ⟨d, hd, hlen⟩ := h
    rw [hnil d hd] at hlen
    cases hlen
  · intro h
    obtain ⟨d, hd⟩ := not_forall.mp h
    obtain ⟨hd, hne⟩ := Classical.not_imp.mp hd
    exact ⟨d, hd, by simpa using List.length_pos_iff.mpr hne⟩

/-- No counter is listed twice, in one direction or in two. -/
theorem getAllSandwichedCounters_nodup (hc : s.isOnBoard c = true) :
    (s.getAllSandwichedCounters c).Nodup := by
  have hdirections : directions.Nodup := by decide
  have hmem : ∀ {d}, d ∈ s.adjacentEnemyDirections c → d ∈ directions :=
    fun hd => (mem_adjacentEnemyDirections.mp hd).1
  rw [getAllSandwichedCounters, List.nodup_flatMap]
  constructor
  · intro d hd
    rcases sandwichedCounters_spec (hmem hd) hc with ⟨n, -, heq⟩ | ⟨-, heq⟩
    · rw [heq]
      apply List.Nodup.map_on _ List.nodup_range
      intro i _ j _ hij
      have := (along_inj (hmem hd) (hmem hd) (by omega) (by omega) hij).2
      omega
    · rw [heq]
      exact List.nodup_nil
  · apply List.Pairwise.imp_of_mem _ (hdirections.filter _)
    intro d d' hd hd' hne c' h h'
    obtain ⟨n, -, k, hk, -, heq⟩ := (mem_sandwichedCounters (hmem hd) hc).mp h
    obtain ⟨n', -, k', hk', -, heq'⟩ := (mem_sandwichedCounters (hmem hd') hc).mp h'
    exact hne (along_inj (hmem hd) (hmem hd') hk hk' (heq.symm.trans heq')).1

/-- The move generator is the rule: listed are the empty squares from
which a counter is sandwiched in some direction, and the counters taken by
a move are those, each once. -/
theorem getMoves_spec (s : OthelloState) (c : Square) :
    (c ∈ s.getMoves ↔ s.isOnBoard c = true ∧ s.cell c = 0 ∧ ∃ c', s.Captured c c')
      ∧ (s.isOnBoard c = true → (s.getAllSandwichedCounters c).Nodup
        ∧ ∀ c', c' ∈ s.getAllSandwichedCounters c ↔ s.Captured c c') := by
  constructor
  · rw [getMoves, List.mem_filter, mem_squares, Bool.and_eq_true, beq_iff_eq]
    apply and_congr_right
    intro hc
    apply and_congr_right
    intro _
    rw [existsSandwichedCounter_iff, Ne, List.eq_nil_iff_forall_not_mem, not_forall]
    exact exists_congr fun c' => not_not.trans (mem_getAllSandwichedCounters hc)
  · exact fun hc => ⟨getAllSandwichedCounters_nodup hc, fun c' => mem_getAllSandwichedCounters hc⟩

end OthelloState

end MctsConnectFour.Uct.Othello
