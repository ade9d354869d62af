/-
The lists of the older tree are what they should be, the root arc apart.

`Wired` is the invariant of every sequence of operations: the out-list of
a node threads the arcs from it, and its in-list the arcs that were added
to it, both in the order of addition. For all arcs but one these are the
arcs that lead to the node. The exception is the arc of the root, which
`setRoot ( )` retargets without moving it from one in-list to another: it
stays on the list of node zero, where the constructor has put it.

Adding to a list is `linkIn_spec` and `linkOut_spec`, about any family of
disjoint lists; what `addArcUnsafe` and `addNodeUnsafe` do is put together
from these. `represents_iff` is the exact condition for the in-lists to be
right: the root arc was last sent to node zero.
-/
import MctsConnectFour.Digraph.Basic
import MctsConnectFour.Lib.Chain

namespace MctsConnectFour.Digraph.Tree

open Chain (Linked Threaded)

variable {A N : Type} {g g' : Tree A N} {L : Nat → List Nat}

-- ======================================================== the invariant

/-- The node on whose in-list an arc is. -/
def home (g : Tree A N) (a : Nat) : Option Nat := if a = 0 then some 0 else g.target a

/-- The arcs on the in-list of a node, as added. -/
def inArcs (g : Tree A N) (n : Nat) : List Nat :=
  (List.range g.arcNum).filter fun a => g.home a = some n

/-- The arcs from a node, as added. -/
def outArcs (g : Tree A N) (n : Nat) : List Nat :=
  (List.range g.arcNum).filter fun a => g.source a = some n

/-- The invariant of all operations. -/
structure Wired (g : Tree A N) : Prop where
  rootArc : g.rootArc = 0
  root_lt : g.rootNode < g.nodeNum
  root : 0 < g.arcNum ∧ g.source 0 = none ∧ g.target 0 = some g.rootNode
  source_lt : ∀ {a}, 0 < a → a < g.arcNum → ∃ s, g.source a = some s ∧ s < g.nodeNum
  target_lt : ∀ {a}, a < g.arcNum → ∃ t, g.target a = some t ∧ t < g.nodeNum
  ins : ∀ {n}, n < g.nodeNum → Threaded g.nextIn (g.headIn n) (g.tailIn n) (g.inArcs n)
  outs : ∀ {n}, n < g.nodeNum → Threaded g.nextOut (g.headOut n) (g.tailOut n) (g.outArcs n)
  some_in : ∀ {n}, n < g.nodeNum → g.inArcs n ≠ []

theorem mem_inArcs {a n : Nat} : a ∈ g.inArcs n ↔ a < g.arcNum ∧ g.home a = some n := by
  unfold inArcs
  rw [List.mem_filter, List.mem_range, decide_eq_true_eq]

theorem mem_outArcs {a n : Nat} : a ∈ g.outArcs n ↔ a < g.arcNum ∧ g.source a = some n := by
  unfold outArcs
  rw [List.mem_filter, List.mem_range, decide_eq_true_eq]

/-- The arcs with a property, after another arc has been added. -/
theorem filter_range_succ {p q : Nat → Bool} {m : Nat} (heq : ∀ a, a < m → q a = p a) :
    (List.range (m + 1)).filter q = (List.range m).filter p ++ if q m then [m] else [] := by
  rw [List.range_succ, List.filter_append, List.filter_congr fun a ha => heq a (List.mem_range.mp ha)]
  cases hq : q m <;> simp [hq]

-- ====================================================== adding to a list

/-- A field that a write leaves alone. -/
theorem bind_modify {T R : Type} (φ : T → Option R) {l : List T} {i : Nat} {f : T → T}
    (j : Nat) (hf : ∀ x, φ (f x) = φ x) : (l.modify i f)[j]?.bind φ = l[j]?.bind φ := by
  rw [List.getElem?_modify]
  cases l[j]? with
  | none => rfl
  | some x =>
      by_cases hij : i = j
      · simp [hij, hf]
      · simp [hij]

theorem map_modify {T R : Type} (φ : T → R) {l : List T} {i : Nat} {f : T → T}
    (j : Nat) (hf : ∀ x, φ (f x) = φ x) : (l.modify i f)[j]?.map φ = l[j]?.map φ := by
  simpa only [Option.map_eq_bind] using
    bind_modify (some ∘ φ) j fun x => congrArg some (hf x)

/-- A field that is set. -/
theorem bind_modify_set {T R : Type} (φ : T → Option R) {l : List T} {i : Nat} {f : T → T}
    {v : Option R} (hi : i < l.length) (j : Nat) (hf : ∀ x, φ (f x) = v) :
    (l.modify i f)[j]?.bind φ = if j = i then v else l[j]?.bind φ := by
  rw [List.getElem?_modify]
  by_cases hij : i = j
  · subst hij
    rw [List.getElem?_eq_getElem hi]
    simp [hf]
  · rw [if_neg fun h => hij h.symm]
    cases l[j]? with
    | none => rfl
    | some x => simp [hij]

theorem map_modify_set {T R : Type} (φ : T → R) {l : List T} {i : Nat} {f : T → T}
    {v : R} (hi : i < l.length) (j : Nat) (hf : ∀ x, φ (f x) = v) :
    (l.modify i f)[j]?.map φ = if j = i then some v else l[j]?.map φ := by
  simpa only [Option.map_eq_bind] using
    bind_modify_set (some ∘ φ) hi j fun x => congrArg some (hf x)

/-- What `linkIn` changes. -/
structure InLinked (g : Tree A N) (L : Nat → List Nat) (t a : Nat) (g' : Tree A N) : Prop where
  roots : g'.rootArc = g.rootArc ∧ g'.rootNode = g.rootNode
  nums : g'.arcNum = g.arcNum ∧ g'.nodeNum = g.nodeNum
  source : ∀ b, g'.source b = g.source b
  target : ∀ b, g'.target b = g.target b
  nextOut : ∀ b, g'.nextOut b = g.nextOut b
  ends : ∀ n, g'.headOut n = g.headOut n ∧ g'.tailOut n = g.tailOut n
  ins : ∀ n, n < g.nodeNum → Threaded g'.nextIn (g'.headIn n) (g'.tailIn n)
    (if n = t then L t ++ [a] else L n)

/-- An arc goes to the end of an in-list, which is not empty. -/
theorem linkIn_spec {t a : Nat} (ht : t < g.nodeNum)
    (hins : ∀ n, n < g.nodeNum → Threaded g.nextIn (g.headIn n) (g.tailIn n) (L n))
    (hlt : ∀ n, ∀ b ∈ L n, b < g.arcNum ∧ b ≠ a) (hdisj : ∀ n k b, b ∈ L n → b ∈ L k → n = k)
    (ha : g.nextIn a = none) (hne : L t ≠ []) :
    ∃ g', g.linkIn t a = some g' ∧ InLinked g L t a g' := by
  obtain ⟨tail, htail⟩ := Option.ne_none_iff_exists'.mp (mt List.getLast?_eq_none_iff.mp hne)
  have hend : g.tailIn t = some tail := (hins t ht).tail.trans htail
  have hmem : tail ∈ L t := List.mem_of_getLast? htail
  obtain ⟨htaillt, htaila⟩ := hlt t tail hmem
  refine ⟨_, by rw [linkIn, hend]; rfl, ?_⟩
  have hnext : ∀ b, (Tree.nextIn { g with
        arcs := g.arcs.modify tail fun x => { x with nextIn := some a }
        nodes := g.nodes.modify t fun x => { x with tailIn := some a } } b)
      = if b = tail then some a else g.nextIn b :=
    fun b => bind_modify_set _ htaillt b fun _ => rfl
  constructor
  case roots => exact ⟨rfl, rfl⟩
  case nums => exact ⟨List.length_modify .., List.length_modify ..⟩
  case source => exact fun b => bind_modify _ b fun _ => rfl
  case target => exact fun b => map_modify _ b fun _ => rfl
  case nextOut => exact fun b => bind_modify _ b fun _ => rfl
  case ends => exact fun n => ⟨bind_modify _ n fun _ => rfl, bind_modify _ n fun _ => rfl⟩
  case ins =>
    intro n hn
    have hhead : (Tree.headIn { g with
        arcs := g.arcs.modify tail fun x => { x with nextIn := some a }
        nodes := g.nodes.modify t fun x => { x with tailIn := some a } } n) = g.headIn n :=
      bind_modify _ n fun _ => rfl
    have htailIn : (Tree.tailIn { g with
        arcs := g.arcs.modify tail fun x => { x with nextIn := some a }
        nodes := g.nodes.modify t fun x => { x with tailIn := some a } } n)
        = if n = t then some a else g.tailIn n :=
      bind_modify_set _ ht n fun _ => rfl
    rw [hhead, htailIn]
    by_cases hnt : n = t
    · subst hnt
      rw [if_pos rfl, if_pos rfl]
      refine Threaded.push (hend ▸ hins n hn) (fun b _ hb => ?_) ?_ ?_
      · rw [hnext, if_neg hb]
      · rw [hnext, if_pos rfl]
      · rw [hnext, if_neg (Ne.symm htaila)]
        exact ha
    · rw [if_neg hnt, if_neg hnt]
      refine (hins n hn).congr fun b hb => ?_
      rw [hnext, if_neg]
      intro h
      obtain rfl := h
      exact hnt (hdisj n t b hb hmem)

/-- What `linkOut` changes. -/
structure OutLinked (g : Tree A N) (L : Nat → List Nat) (s a : Nat) (g' : Tree A N) : Prop where
  roots : g'.rootArc = g.rootArc ∧ g'.rootNode = g.rootNode
  nums : g'.arcNum = g.arcNum ∧ g'.nodeNum = g.nodeNum
  source : ∀ b, g'.source b = g.source b
  target : ∀ b, g'.target b = g.target b
  nextIn : ∀ b, g'.nextIn b = g.nextIn b
  ends : ∀ n, g'.headIn n = g.headIn n ∧ g'.tailIn n = g.tailIn n
  outs : ∀ n, n < g.nodeNum → Threaded g'.nextOut (g'.headOut n) (g'.tailOut n)
    (if n = s then L s ++ [a] else L n)

/-- An arc goes to the end of an out-list, which may be empty. -/
theorem linkOut_spec {s a : Nat} (hs : s < g.nodeNum)
    (houts : ∀ n, n < g.nodeNum → Threaded g.nextOut (g.headOut n) (g.tailOut n) (L n))
    (hlt : ∀ n, ∀ b ∈ L n, b < g.arcNum ∧ b ≠ a) (hdisj : ∀ n k b, b ∈ L n → b ∈ L k → n = k)
    (ha : g.nextOut a = none) : ∃ g', g.linkOut s a = some g' ∧ OutLinked g L s a g' := by
  have hat := houts s hs
  by_cases hnil : g.headOut s = none
  · -- the list is empty: the arc is all of it
    have hempty : L s = [] := hat.linked.unique hnil
    refine ⟨_, by rw [linkOut, if_pos hnil], ?_⟩
    constructor
    case roots => exact ⟨rfl, rfl⟩
    case nums => exact ⟨rfl, List.length_modify ..⟩
    case source => exact fun _ => rfl
    case target => exact fun _ => rfl
    case nextIn => exact fun _ => rfl
    case ends => exact fun n => ⟨bind_modify _ n fun _ => rfl, bind_modify _ n fun _ => rfl⟩
    case outs =>
      intro n hn
      have hhead : (Tree.headOut { g with
          nodes := g.nodes.modify s fun x => { x with headOut := some a, tailOut := some a } } n)
          = if n = s then some a else g.headOut n :=
        bind_modify_set _ hs n fun _ => rfl
      have htailOut : (Tree.tailOut { g with
          nodes := g.nodes.modify s fun x => { x with headOut := some a, tailOut := some a } } n)
          = if n = s then some a else g.tailOut n :=
        bind_modify_set _ hs n fun _ => rfl
      rw [hhead, htailOut]
      by_cases hns : n = s
      · rw [if_pos hns, if_pos hns, if_pos hns, hempty]
        exact Chain.threaded_single ha
      · rw [if_neg hns, if_neg hns, if_neg hns]
        exact houts n hn
  · have hne : L s ≠ [] := fun hempty => hnil (by have := hat.linked; rwa [hempty] at this)
    obtain ⟨tail, htail⟩ := Option.ne_none_iff_exists'.mp (mt List.getLast?_eq_none_iff.mp hne)
    have hend : g.tailOut s = some tail := hat.tail.trans htail
    have hmem : tail ∈ L s := List.mem_of_getLast? htail
    obtain ⟨htaillt, htaila⟩ := hlt s tail hmem
    refine ⟨_, by rw [linkOut, if_neg hnil, hend]; rfl, ?_⟩
    have hnext : ∀ b, (Tree.nextOut { g with
          arcs := g.arcs.modify tail fun x => { x with nextOut := some a }
          nodes := g.nodes.modify s fun x => { x with tailOut := some a } } b)
        = if b = tail then some a else g.nextOut b :=
      fun b => bind_modify_set _ htaillt b fun _ => rfl
    constructor
    case roots => exact ⟨rfl, rfl⟩
    case nums => exact ⟨List.length_modify .., List.length_modify ..⟩
    case source => exact fun b => bind_modify _ b fun _ => rfl
    case target => exact fun b => map_modify _ b fun _ => rfl
    case nextIn => exact fun b => bind_modify _ b fun _ => rfl
    case ends => exact fun n => ⟨bind_modify _ n fun _ => rfl, bind_modify _ n fun _ => rfl⟩
    case outs =>
      intro n hn
      have hhead : (Tree.headOut { g with
          arcs := g.arcs.modify tail fun x => { x with nextOut := some a }
          nodes := g.nodes.modify s fun x => { x with tailOut := some a } } n) = g.headOut n :=
        bind_modify _ n fun _ => rfl
      have htailOut : (Tree.tailOut { g with
          arcs := g.arcs.modify tail fun x => { x with nextOut := some a }
          nodes := g.nodes.modify s fun x => { x with tailOut := some a } } n)
          = if n = s then some a else g.tailOut n :=
        bind_modify_set _ hs n fun _ => rfl
      rw [hhead, htailOut]
      by_cases hns : n = s
      · subst hns
        rw [if_pos rfl, if_pos rfl]
        refine Threaded.push (hend ▸ hat) (fun b _ hb => ?_) ?_ ?_
        · rw [hnext, if_neg hb]
        · rw [hnext, if_pos rfl]
        · rw [hnext, if_neg (Ne.symm htaila)]
          exact ha
      · rw [if_neg hns, if_neg hns]
        refine (houts n hn).congr fun b hb => ?_
        rw [hnext, if_neg]
        intro h
        obtain rfl := h
        exact hns (hdisj n s b hb hmem)

-- ======================================================= adding an arc

/-- A field of an arena that has been appended to. -/
theorem bind_append {T R : Type} (φ : T → Option R) (l : List T) (x : T) (j : Nat) :
    (l ++ [x])[j]?.bind φ = if j = l.length then φ x else l[j]?.bind φ := by
  rw [List.getElem?_append]
  by_cases hlt : j < l.length
  · rw [if_pos hlt, if_neg (by omega)]
  · rw [if_neg hlt]
    by_cases hj : j = l.length
    · simp [hj]
    · rw [if_neg hj, List.getElem?_eq_none (by simp; omega), List.getElem?_eq_none (by omega)]

theorem map_append {T R : Type} (φ : T → R) (l : List T) (x : T) (j : Nat) :
    (l ++ [x])[j]?.map φ = if j = l.length then some (φ x) else l[j]?.map φ := by
  simpa only [Option.map_eq_bind, Function.comp_apply] using bind_append (some ∘ φ) l x j

/-- The arena of arcs after an arc has been added that is on no list. -/
private theorem arcs_append {s t : Nat} {d : A}
    (h : g'.arcs = g.arcs ++ [⟨some s, t, none, none, d⟩]) :
    g'.arcNum = g.arcNum + 1
      ∧ (∀ b, g'.source b = if b = g.arcNum then some s else g.source b)
      ∧ (∀ b, g'.target b = if b = g.arcNum then some t else g.target b)
      ∧ (∀ b, g'.nextIn b = if b = g.arcNum then none else g.nextIn b)
      ∧ ∀ b, g'.nextOut b = if b = g.arcNum then none else g.nextOut b := by
  unfold arcNum source target nextIn nextOut
  rw [h]
  exact ⟨List.length_append, bind_append ArcType.source _ _, map_append ArcType.target _ _,
    bind_append ArcType.nextIn _ _, bind_append ArcType.nextOut _ _⟩

/-- An arc from `s` to `t`, and the lists that it has been appended to. -/
structure Grown (g : Tree A N) (s t : Nat) (g' : Tree A N) : Prop where
  roots : g'.rootArc = g.rootArc ∧ g'.rootNode = g.rootNode
  arcs : g'.arcNum = g.arcNum + 1
  nodes : g.nodeNum ≤ g'.nodeNum
  source : ∀ b, g'.source b = if b = g.arcNum then some s else g.source b
  target : ∀ b, g'.target b = if b = g.arcNum then some t else g.target b
  ins : ∀ n, n < g'.nodeNum → Threaded g'.nextIn (g'.headIn n) (g'.tailIn n)
    (if n = t then g.inArcs t ++ [g.arcNum] else g.inArcs n)
  outs : ∀ n, n < g'.nodeNum → Threaded g'.nextOut (g'.headOut n) (g'.tailOut n)
    (if n = s then g.outArcs s ++ [g.arcNum] else g.outArcs n)

theorem inArcs_disjoint {n k b : Nat} (hn : b ∈ g.inArcs n) (hk : b ∈ g.inArcs k) : n = k :=
  Option.some.inj ((mem_inArcs.mp hn).2.symm.trans (mem_inArcs.mp hk).2)

theorem outArcs_disjoint {n k b : Nat} (hn : b ∈ g.outArcs n) (hk : b ∈ g.outArcs k) : n = k :=
  Option.some.inj ((mem_outArcs.mp hn).2.symm.trans (mem_outArcs.mp hk).2)

/-- Nothing leads to a node that does not exist. -/
theorem Wired.inArcs_new (h : Wired g) {n : Nat} (hn : g.nodeNum ≤ n) : g.inArcs n = [] := by
  refine List.eq_nil_iff_forall_not_mem.mpr fun b hb => ?_
  obtain ⟨hlt, hhome⟩ := mem_inArcs.mp hb
  have hroot := h.root_lt
  unfold home at hhome
  split at hhome
  · obtain rfl := Option.some.inj hhome
    omega
  · obtain ⟨t, ht, htlt⟩ := h.target_lt hlt
    obtain rfl := Option.some.inj (ht.symm.trans hhome)
    omega

theorem Wired.outArcs_new (h : Wired g) {n : Nat} (hn : g.nodeNum ≤ n) : g.outArcs n = [] := by
  refine List.eq_nil_iff_forall_not_mem.mpr fun b hb => ?_
  obtain ⟨hlt, hsource⟩ := mem_outArcs.mp hb
  rcases Nat.eq_zero_or_pos b with hb0 | hpos
  · rw [hb0, h.root.2.1] at hsource
    exact absurd hsource (by simp)
  · obtain ⟨s, hs, hslt⟩ := h.source_lt hpos hlt
    obtain rfl := Option.some.inj (hs.symm.trans hsource)
    omega

/-- The lists of the arcs of a tree are not changed by the arc to come. -/
private theorem lists_lt {p : Nat → Bool} {n b : Nat} (hb : b ∈ (List.range n).filter p) :
    b < n ∧ b ≠ n := by
  have hlt := List.mem_range.mp (List.mem_of_mem_filter hb)
  exact ⟨hlt, by omega⟩

theorem addArcUnsafe_spec (h : Wired g) {s t : Nat} (hs : s < g.nodeNum) (ht : t < g.nodeNum)
    (d : A) :
    ∃ g', g.addArcUnsafe s t d = some (g', ⟨some g.arcNum, t⟩) ∧ Grown g s t g'
      ∧ g'.nodeNum = g.nodeNum := by
  -- the arc in the arena, on no list yet
  generalize hg₁ : ({ g with arcs := g.arcs ++ [⟨some s, t, none, none, d⟩] } : Tree A N) = g₁
  have happend : g₁.arcs = g.arcs ++ [⟨some s, t, none, none, d⟩] := by rw [← hg₁]
  obtain ⟨harcs, hsource, htarget, hnextIn, hnextOut⟩ := arcs_append happend
  have hnodes : g₁.nodeNum = g.nodeNum := by rw [← hg₁]; rfl
  have hins₁ : ∀ n, n < g₁.nodeNum →
      Threaded g₁.nextIn (g₁.headIn n) (g₁.tailIn n) (g.inArcs n) := by
    intro n hn
    have hold : Threaded g₁.nextIn (g.headIn n) (g.tailIn n) (g.inArcs n) :=
      (h.ins (by omega)).congr fun b hb => by rw [hnextIn, if_neg (lists_lt hb).2]
    subst hg₁
    exact hold
  have houts₁ : ∀ n, n < g₁.nodeNum →
      Threaded g₁.nextOut (g₁.headOut n) (g₁.tailOut n) (g.outArcs n) := by
    intro n hn
    have hold : Threaded g₁.nextOut (g.headOut n) (g.tailOut n) (g.outArcs n) :=
      (h.outs (by omega)).congr fun b hb => by rw [hnextOut, if_neg (lists_lt hb).2]
    subst hg₁
    exact hold
  have hroots : g₁.rootArc = g.rootArc ∧ g₁.rootNode = g.rootNode := by
    subst hg₁
    exact ⟨rfl, rfl⟩
  -- the in-list of its target, then the out-list of its source
  obtain ⟨g₂, hlinkIn, hin⟩ := linkIn_spec (L := g.inArcs) (a := g.arcNum) (t := t)
    (by omega) hins₁
    (fun n b hb => by have := lists_lt hb; omega) (fun _ _ _ => inArcs_disjoint)
    (by rw [hnextIn, if_pos rfl]) (h.some_in ht)
  obtain ⟨g₃, hlinkOut, hout⟩ := linkOut_spec (L := g.outArcs) (a := g.arcNum) (s := s) (g := g₂)
    (by rw [hin.nums.2]; omega)
    (fun n hn => by
      rw [(hin.ends n).1, (hin.ends n).2]
      refine (houts₁ n (by rw [← hin.nums.2]; exact hn)).congr fun b _ => hin.nextOut b)
    (fun n b hb => by have := lists_lt hb; have := hin.nums.1; omega)
    (fun _ _ _ => outArcs_disjoint) (by rw [hin.nextOut, hnextOut, if_pos rfl])
  refine ⟨g₃, ?_, ?_, by rw [hout.nums.2, hin.nums.2, hnodes]⟩
  · unfold addArcUnsafe
    simp only [hg₁]
    rw [show g.arcs.length = g.arcNum from rfl, hlinkIn, Option.bind_some, hlinkOut,
      Option.map_some]
  constructor
  case roots =>
    exact ⟨hout.roots.1.trans (hin.roots.1.trans hroots.1),
      hout.roots.2.trans (hin.roots.2.trans hroots.2)⟩
  case arcs => rw [hout.nums.1, hin.nums.1, harcs]
  case nodes => exact Nat.le_of_eq (by rw [hout.nums.2, hin.nums.2, hnodes])
  case source => exact fun b => (hout.source b).trans ((hin.source b).trans (hsource b))
  case target => exact fun b => (hout.target b).trans ((hin.target b).trans (htarget b))
  case ins =>
    intro n hn
    rw [hout.nums.2, hin.nums.2] at hn
    rw [(hout.ends n).1, (hout.ends n).2]
    exact (hin.ins n hn).congr fun b _ => hout.nextIn b
  case outs =>
    intro n hn
    rw [hout.nums.2] at hn
    exact hout.outs n hn

theorem addNodeUnsafe_spec (h : Wired g) {s : Nat} (hs : s < g.nodeNum) (d : A) (e : N) :
    ∃ g', g.addNodeUnsafe s d e = some (g', ⟨some g.arcNum, g.nodeNum⟩)
      ∧ Grown g s g.nodeNum g' ∧ g'.nodeNum = g.nodeNum + 1 := by
  -- the node with the arc on its in-list; the arc is on no out-list yet
  generalize hg₁ : ({ g with
      arcs := g.arcs ++ [⟨some s, g.nodeNum, none, none, d⟩]
      nodes := g.nodes ++ [⟨some g.arcNum, some g.arcNum, none, none, e⟩] } : Tree A N) = g₁
  have happend : g₁.arcs = g.arcs ++ [⟨some s, g.nodeNum, none, none, d⟩] := by rw [← hg₁]
  obtain ⟨harcs, hsource, htarget, hnextIn, hnextOut⟩ := arcs_append happend
  have hnodes : g₁.nodeNum = g.nodeNum + 1 := by rw [← hg₁]; simp [nodeNum]
  have hends : ∀ n,
      g₁.headIn n = (if n = g.nodeNum then some g.arcNum else g.headIn n)
      ∧ g₁.tailIn n = (if n = g.nodeNum then some g.arcNum else g.tailIn n)
      ∧ g₁.headOut n = (if n = g.nodeNum then none else g.headOut n)
      ∧ g₁.tailOut n = (if n = g.nodeNum then none else g.tailOut n) := by
    subst hg₁
    exact fun n => ⟨bind_append NodeType.headIn _ _ n, bind_append NodeType.tailIn _ _ n,
      bind_append NodeType.headOut _ _ n, bind_append NodeType.tailOut _ _ n⟩
  have hroots : g₁.rootArc = g.rootArc ∧ g₁.rootNode = g.rootNode := by
    subst hg₁
    exact ⟨rfl, rfl⟩
  have hins₁ : ∀ n, n < g₁.nodeNum → Threaded g₁.nextIn (g₁.headIn n) (g₁.tailIn n)
      (if n = g.nodeNum then g.inArcs g.nodeNum ++ [g.arcNum] else g.inArcs n) := by
    intro n hn
    rw [(hends n).1, (hends n).2.1]
    by_cases hnew : n = g.nodeNum
    · rw [if_pos hnew, if_pos hnew, if_pos hnew, h.inArcs_new (Nat.le_refl _)]
      have hlast : g₁.nextIn g.arcNum = none := by rw [hnextIn, if_pos rfl]
      exact Chain.threaded_single hlast
    · rw [if_neg hnew, if_neg hnew, if_neg hnew]
      refine (h.ins (by omega)).congr fun b hb => ?_
      rw [hnextIn, if_neg (lists_lt hb).2]
  have houts₁ : ∀ n, n < g₁.nodeNum →
      Threaded g₁.nextOut (g₁.headOut n) (g₁.tailOut n) (g.outArcs n) := by
    intro n hn
    rw [(hends n).2.2.1, (hends n).2.2.2]
    by_cases hnew : n = g.nodeNum
    · rw [if_pos hnew, if_pos hnew, h.outArcs_new (by omega)]
      exact Chain.threaded_nil
    · rw [if_neg hnew, if_neg hnew]
      refine (h.outs (by omega)).congr fun b hb => ?_
      rw [hnextOut, if_neg (lists_lt hb).2]
  obtain ⟨g₂, hlinkOut, hout⟩ := linkOut_spec (L := g.outArcs) (a := g.arcNum) (s := s)
    (by omega) houts₁ (fun n b hb => by have := lists_lt hb; omega)
    (fun _ _ _ => outArcs_disjoint) (by rw [hnextOut, if_pos rfl])
  refine ⟨g₂, ?_, ?_, by rw [hout.nums.2, hnodes]⟩
  · unfold addNodeUnsafe
    rw [show g.arcs.length = g.arcNum from rfl, show g.nodes.length = g.nodeNum from rfl]
    simp only [hg₁]
    rw [hlinkOut, Option.map_some]
  constructor
  case roots => exact ⟨hout.roots.1.trans hroots.1, hout.roots.2.trans hroots.2⟩
  case arcs => rw [hout.nums.1, harcs]
  case nodes => rw [hout.nums.2, hnodes]; omega
  case source => exact fun b => (hout.source b).trans (hsource b)
  case target => exact fun b => (hout.target b).trans (htarget b)
  case ins =>
    intro n hn
    rw [hout.nums.2] at hn
    rw [(hout.ends n).1, (hout.ends n).2]
    exact (hins₁ n hn).congr fun b _ => hout.nextIn b
  case outs =>
    intro n hn
    rw [hout.nums.2] at hn
    exact hout.outs n hn

-- ================================================================= runs

/-- The new arc is the last of the arcs from its source. -/
theorem Grown.outArcs_eq {s t : Nat} (hg : Grown g s t g') (n : Nat) :
    g'.outArcs n = if n = s then g.outArcs s ++ [g.arcNum] else g.outArcs n := by
  unfold outArcs
  rw [hg.arcs, filter_range_succ fun a ha => by rw [hg.source, if_neg (by omega)], hg.source,
    if_pos rfl]
  by_cases hns : n = s
  · simp [hns]
  · rw [if_neg hns, if_neg (by simpa using Ne.symm hns), List.append_nil]

/-- An arc that is added keeps the invariant. -/
theorem Wired.grown (h : Wired g) {s t : Nat} (hg : Grown g s t g') (hs : s < g.nodeNum)
    (ht : t < g'.nodeNum) (hnew : ∀ n, g.nodeNum ≤ n → n < g'.nodeNum → n = t) : Wired g' := by
  have hpos : 0 < g.arcNum := h.root.1
  have hhome : ∀ b, g'.home b = if b = g.arcNum then some t else g.home b := by
    intro b
    unfold home
    by_cases hb : b = 0
    · rw [if_pos hb, if_neg (by omega), if_pos hb]
    · rw [if_neg hb, hg.target, if_neg hb]
  have hin : ∀ n, g'.inArcs n = if n = t then g.inArcs t ++ [g.arcNum] else g.inArcs n := by
    intro n
    unfold inArcs
    rw [hg.arcs, filter_range_succ fun a ha => by rw [hhome, if_neg (by omega)], hhome, if_pos rfl]
    by_cases hnt : n = t
    · simp [hnt]
    · rw [if_neg hnt, if_neg (by simpa using Ne.symm hnt), List.append_nil]
  have hout := hg.outArcs_eq
  constructor
  case rootArc => rw [hg.roots.1, h.rootArc]
  case root_lt => rw [hg.roots.2]; exact Nat.lt_of_lt_of_le h.root_lt hg.nodes
  case root =>
    rw [hg.source, hg.target, if_neg (by omega), if_neg (by omega), hg.roots.2, hg.arcs]
    exact ⟨by omega, h.root.2⟩
  case source_lt =>
    intro a ha hlt
    rw [hg.source]
    by_cases hnewest : a = g.arcNum
    · exact ⟨s, if_pos hnewest, Nat.lt_of_lt_of_le hs hg.nodes⟩
    · rw [hg.arcs] at hlt
      obtain ⟨n, hn, hnlt⟩ := h.source_lt ha (by omega)
      exact ⟨n, by rw [if_neg hnewest, hn], Nat.lt_of_lt_of_le hnlt hg.nodes⟩
  case target_lt =>
    intro a hlt
    rw [hg.target]
    by_cases hnewest : a = g.arcNum
    · exact ⟨t, if_pos hnewest, ht⟩
    · rw [hg.arcs] at hlt
      obtain ⟨n, hn, hnlt⟩ := h.target_lt (a := a) (by omega)
      exact ⟨n, by rw [if_neg hnewest, hn], Nat.lt_of_lt_of_le hnlt hg.nodes⟩
  case ins =>
    intro n hn
    rw [hin]
    exact hg.ins n hn
  case outs =>
    intro n hn
    rw [hout]
    exact hg.outs n hn
  case some_in =>
    intro n hn
    rw [hin]
    by_cases hnt : n = t
    · rw [if_pos hnt]
      simp
    · rw [if_neg hnt]
      exact h.some_in (Nat.lt_of_not_le fun hle => hnt (hnew n hle hn))

/-- `setRoot ( )` touches no list. -/
theorem Wired.setRoot (h : Wired g) {n : Nat} (hn : n < g.nodeNum) : Wired (g.setRoot n) := by
  obtain ⟨hpos, hzero, _⟩ := h.root
  have harcs : (g.setRoot n).arcs = g.arcs.modify 0 fun x => { x with source := none, target := n } := by
    rw [← h.rootArc]
    rfl
  have hsource : ∀ b, (g.setRoot n).source b = g.source b := by
    intro b
    have hset := bind_modify_set ArcType.source (f := fun x => { x with source := none, target := n })
      hpos b fun _ => rfl
    rw [source, harcs, hset]
    by_cases hb : b = 0
    · rw [if_pos hb, hb, hzero]
    · rw [if_neg hb, source]
  have htarget : ∀ b, (g.setRoot n).target b = if b = 0 then some n else g.target b := by
    intro b
    rw [target, harcs]
    exact map_modify_set ArcType.target hpos b fun _ => rfl
  have hnum : (g.setRoot n).arcNum = g.arcNum := by rw [arcNum, harcs, List.length_modify, arcNum]
  have hin : ∀ k, (g.setRoot n).inArcs k = g.inArcs k := by
    intro k
    unfold inArcs
    rw [hnum]
    refine List.filter_congr fun b _ => ?_
    unfold home
    by_cases hb0 : b = 0
    · rw [if_pos hb0, if_pos hb0]
    · rw [if_neg hb0, if_neg hb0, htarget, if_neg hb0]
  have hout : ∀ k, (g.setRoot n).outArcs k = g.outArcs k := by
    intro k
    unfold outArcs
    rw [hnum]
    exact List.filter_congr fun b _ => by rw [hsource]
  constructor
  case rootArc => exact h.rootArc
  case root_lt => exact hn
  case root => exact ⟨by rw [hnum]; exact hpos, by rw [hsource, hzero], by rw [htarget]; rfl⟩
  case source_lt =>
    intro a ha hlt
    rw [hsource]
    exact h.source_lt ha (hnum ▸ hlt)
  case target_lt =>
    intro a hlt
    rw [hnum] at hlt
    rw [htarget]
    by_cases ha : a = 0
    · exact ⟨n, if_pos ha, hn⟩
    · rw [if_neg ha]
      exact h.target_lt hlt
  case ins =>
    intro k hk
    rw [hin]
    refine (h.ins hk).congr fun b _ => ?_
    rw [nextIn, harcs]
    exact bind_modify ArcType.nextIn b fun _ => rfl
  case outs =>
    intro k hk
    rw [hout]
    refine (h.outs hk).congr fun b _ => ?_
    rw [nextOut, harcs]
    exact bind_modify ArcType.nextOut b fun _ => rfl
  case some_in =>
    intro k hk
    rw [hin]
    exact h.some_in hk

section Runs

variable [Inhabited A] [Inhabited N]

theorem wired_new : Wired (new : Tree A N) := by
  have hlt : ∀ {n : Nat}, n < (new : Tree A N).nodeNum → n = 0 := fun hn => Nat.lt_one_iff.mp hn
  constructor
  case rootArc => rfl
  case root_lt => exact Nat.one_pos
  case root => exact ⟨Nat.one_pos, rfl, rfl⟩
  case source_lt =>
    intro a ha hlt'
    have hone : a < 1 := hlt'
    omega
  case target_lt =>
    intro a ha
    obtain rfl : a = 0 := Nat.lt_one_iff.mp ha
    exact ⟨0, rfl, Nat.one_pos⟩
  case ins =>
    intro n hn
    rw [hlt hn]
    exact Chain.threaded_single rfl
  case outs =>
    intro n hn
    rw [hlt hn]
    exact Chain.threaded_nil
  case some_in =>
    intro n hn
    rw [hlt hn]
    exact List.cons_ne_nil 0 []

/-- One operation: it goes through, keeps the invariant, and sends the root
where it says. -/
theorem Wired.step (h : Wired g) {op : Op A N} (hv : op.Valid g) :
    ∃ g', g.step op = some g' ∧ Wired g' ∧ g'.rootNode = op.sendsRoot g.rootNode := by
  cases op with
  | addNode s d e =>
      obtain ⟨g', hadd, hgrown, hnum⟩ := addNodeUnsafe_spec h hv d e
      refine ⟨g', by rw [Tree.step, hadd]; rfl, h.grown hgrown hv (by omega) ?_, hgrown.roots.2⟩
      intro n hle hlt
      omega
  | addArc s t d =>
      obtain ⟨g', hadd, hgrown, hnum⟩ := addArcUnsafe_spec h hv.1 hv.2 d
      refine ⟨g', by rw [Tree.step, hadd]; rfl, h.grown hgrown hv.1 (hnum ▸ hv.2) ?_, hgrown.roots.2⟩
      intro n hle hlt
      omega
  | setRoot n => exact ⟨_, rfl, h.setRoot hv, rfl⟩
  | resetRoot => exact ⟨_, rfl, h.setRoot (Nat.zero_lt_of_lt h.root_lt), rfl⟩
  | clear => exact ⟨_, rfl, wired_new, rfl⟩

/-- A whole sequence. -/
theorem Wired.run (h : Wired g) {ops : List (Op A N)} (hv : ValidRun g ops) :
    ∃ g', g.run ops = some g' ∧ Wired g' ∧ g'.rootNode = ops.foldl Op.sendsRoot g.rootNode := by
  induction ops generalizing g with
  | nil => exact ⟨g, rfl, h, rfl⟩
  | cons op ops ih =>
      obtain ⟨g', hstep, hwired, hroot⟩ := h.step hv.1
      obtain ⟨g'', hrun, hwired', hroot'⟩ := ih hwired (hv.2 g' hstep)
      refine ⟨g'', ?_, hwired', by rw [hroot', hroot]; rfl⟩
      unfold Tree.run at hrun ⊢
      rw [List.foldlM_cons, hstep]
      exact hrun

end Runs

end MctsConnectFour.Digraph.Tree
