/-
A slice is what can be reached, where the root has not been moved.

The copying is a worklist walk (Lib/Worklist.lean) that builds the new
tree as it goes. Which end the work list is popped from plays no part in
it: all that is asked of `pop` is `Pops`. Either slice of a tree whose
root is node zero is then a copy of what can be reached (`slice_spec`),
and two copies of the same are isomorphic (`IsSlice.isomorphic`). In any
other tree the first assignment is to a node that the new tree does not
have (`slice_moved`).
-/
import MctsConnectFour.Digraph.Slice

namespace MctsConnectFour.Digraph.Older

open Numbering (first_iff first_seen numbered_first)
open Worklist (Reachable Frontier Scanned IsSearch part_pop part_done)
open Digraph.Tree (Wired)

variable {A N : Type} [Inhabited A] [Inhabited N] {g : Tree A N} {r p q a : Nat} {x : Slice A N}
  {pop : List Nat → Option (Nat × List Nat)}

-- ============================================================ one turn

/-- What `pop` does: it takes a node off the list, when there is one. -/
def Pops (pop : List Nat → Option (Nat × List Nat)) : Prop :=
  ∀ work, work ≠ [] → ∃ p rest, pop work = some (p, rest) ∧ work.Perm (p :: rest)

theorem pops_popBack : Pops popBack := by
  intro work hne
  refine ⟨work.getLast hne, work.dropLast, ?_, ?_⟩
  · rw [popBack, List.getLast?_eq_getLast_of_ne_nil hne]
    rfl
  · have hsplit := List.dropLast_append_getLast hne
    exact (List.perm_append_singleton _ _).symm.trans (List.Perm.of_eq hsplit) |>.symm

theorem pops_popFront : Pops popFront := by
  intro work hne
  cases work with
  | nil => exact absurd rfl hne
  | cons p rest => exact ⟨p, rest, rfl, List.Perm.refl _⟩

/-- The copying between two turns. -/
structure TurnInv (g : Tree A N) (r : Nat) (x : Slice A N) : Prop where
  copied : CopyInv g r (fun n => if n ∈ x.work then [] else g.edges n) x
  frontier : Frontier (targets g) r (fun n => x.visited n ≠ none) x.work

/-- Within a turn, when the out-arcs `l` of `p` have been copied. -/
structure ArcsInv (g : Tree A N) (r p q : Nat) (rest : List Nat) (seen : Nat → Prop)
    (l : List Nat) (y : Slice A N) : Prop where
  copied : CopyInv g r (fun n => if n = p then l.map (fun a => (g.arcData a, g.target a))
    else if n ∈ y.work then [] else g.edges n) y
  parent : y.visited p = some q
  scanned : Scanned seen rest (l.filterMap g.target) (fun n => y.visited n ≠ none) y.work

/-- One arc more. -/
theorem ArcsInv.copyArc {rest : List Nat} {seen : Nat → Prop} {l : List Nat} {y : Slice A N}
    (hw : Wired g) (h : ArcsInv g r p q rest seen l y) (hrest : ∀ c ∈ rest, seen c)
    (ha : a < g.arcNum) :
    ∃ y', copyArc g p y a = some y' ∧ ArcsInv g r p q rest seen (l ++ [a]) y' := by
  obtain ⟨c, hc, hcg⟩ := hw.target_lt ha
  have hmap : (l ++ [a]).map (fun a => (g.arcData a, g.target a))
      = l.map (fun a => (g.arcData a, g.target a)) ++ [(g.arcData a, some c)] := by
    rw [List.map_append, List.map_singleton, hc]
  have htargets : (l ++ [a]).filterMap g.target = l.filterMap g.target ++ [c] := by
    rw [List.filterMap_append]
    simp [hc]
  cases hv : y.visited c with
  | some k =>
      have hother : ∀ n, y.visited n ≠ none → n ≠ p →
          (if n = p then (l ++ [a]).map (fun a => (g.arcData a, g.target a))
              else if n ∈ y.work then [] else g.edges n)
            = if n = p then l.map (fun a => (g.arcData a, g.target a))
              else if n ∈ y.work then [] else g.edges n := by
        intro n _ hnp
        rw [if_neg hnp, if_neg hnp]
      obtain ⟨y', hstep, hcopy, hvisited, hwork⟩ := h.copied.copyArc_of_visited
        h.parent ha hc (by rw [if_pos rfl, if_pos rfl, hmap]) hother hv
      refine ⟨y', hstep, hwork ▸ hcopy, hvisited ▸ h.parent, ?_⟩
      rw [htargets, hvisited, hwork]
      exact h.scanned.skip (by rw [hv]; exact Option.some_ne_none k)
  | none =>
      have hcp : c ≠ p := fun heq => by
        rw [heq, h.parent] at hv
        cases hv
      have hother : ∀ n, y.visited n ≠ none → n ≠ p →
          (if n = p then (l ++ [a]).map (fun a => (g.arcData a, g.target a))
              else if n ∈ y.work ++ [c] then [] else g.edges n)
            = if n = p then l.map (fun a => (g.arcData a, g.target a))
              else if n ∈ y.work then [] else g.edges n := by
        intro n hn hnp
        have hnc : n ≠ c := fun heq => hn (heq ▸ hv)
        simp [hnp, hnc]
      obtain ⟨y', hstep, hcopy, hvisited, hwork⟩ := h.copied.copyArc_of_not_visited
        h.parent ha hc (by rw [if_pos rfl, if_pos rfl, hmap]) hother hcg hv
        (by rw [if_neg hcp, if_pos (List.mem_append_right _ (List.mem_singleton.mpr rfl))])
      refine ⟨y', hstep, ?_, ?_, ?_⟩
      · rw [hwork]
        exact hcopy
      · rw [hvisited]
        exact (if_neg (Ne.symm hcp)).trans h.parent
      · rw [htargets]
        refine h.scanned.push hrest (not_not_intro hv) (fun n => ?_)
          (hwork ▸ List.perm_append_singleton c y.work)
        rw [hvisited]
        by_cases hn : n = c
        · simp [hn]
        · simp [hn]

/-- A turn: all out-arcs of the node that is popped. -/
theorem TurnInv.copyNode (hw : Wired g) (hpop : Pops pop) (h : TurnInv g r x)
    (hmore : (!x.work.isEmpty) = true) {fuel : Nat} (hfuel : g.arcNum ≤ fuel) :
    ∃ p rest y, x.work.Perm (p :: rest) ∧ p ∈ Finset.range g.nodeNum
      ∧ copyNode pop g fuel x = some y ∧ TurnInv g r y
      ∧ Scanned (fun n => x.visited n ≠ none) rest (targets g p) (fun n => y.visited n ≠ none)
          y.work := by
  obtain ⟨hcopied, hfrontier⟩ := h
  obtain ⟨p, rest, hpopped, hperm⟩ := hpop x.work fun hnil => by simp [hnil] at hmore
  have hseen := hfrontier.work_seen p (hperm.mem_iff.mpr (List.mem_cons_self ..))
  obtain ⟨q, hq⟩ := Option.ne_none_iff_exists'.mp hseen
  have hpg := (hcopied.bound hq).1
  have hnodup := List.nodup_cons.mp (hperm.nodup_iff.mp hfrontier.nodup)
  have hstart : CopyInv g r
      (fun n => if n = p then [] else if n ∈ rest then [] else g.edges n)
      { x with work := rest } := by
    rw [part_pop g.edges hperm] at hcopied
    exact ⟨hcopied.wired, hcopied.root, hcopied.bound, hcopied.inj, hcopied.surj, hcopied.data,
      hcopied.arcs⟩
  -- the loop over the out-arcs of `p`
  obtain ⟨y, hloop, hcopy, -, hscan⟩ := Loops.foldlM_inv (f := copyArc g p)
    (I := ArcsInv g r p q rest fun n => x.visited n ≠ none) (l := g.outArcs p)
    (b := { x with work := rest })
    ⟨hstart, hq, .start _ hnodup.2⟩ (by
      intro l a l' y hl hI
      have ha : a ∈ g.outArcs p := hl ▸ List.mem_append_right _ (List.mem_cons_self ..)
      exact hI.copyArc hw
        (fun c hc => hfrontier.work_seen c (hperm.mem_iff.mpr (List.mem_cons_of_mem _ hc)))
        (Tree.mem_outArcs.mp ha).1)
  have hlength : (g.outArcs p).length ≤ fuel := by
    refine le_trans ?_ hfuel
    exact (List.length_filter_le _ _).trans_eq List.length_range
  refine ⟨p, rest, y, hperm, Finset.mem_range.mpr hpg, ?_, ⟨?_, ?_⟩, hscan⟩
  · unfold Older.copyNode
    rw [hpopped, Option.bind_some]
    simp only
    rw [Chain.whileLoop_linkedM (copyArc g p) (hw.outs hpg).linked hlength, hloop]
    rfl
  · -- `p` is done: it does not come back on the list
    rw [← part_done g.edges (hscan.not_mem hseen hnodup.1)]
    exact hcopy
  · exact hfrontier.expand hperm hscan.seen_iff hscan.work_iff hscan.nodup

-- ============================================================ the walk

/-- The work that is begun with, in a tree whose root is node zero. -/
theorem turnInv_start (hr : r < g.nodeNum) {e : N} (he : g.nodeData r = some e) :
    TurnInv g r
      { new := Tree.setNodeData .new 0 e
        visited := fun n => if n = r then some 0 else none
        work := [r] } := by
  have hfirst := numbered_first r
  have hsame := Tree.sameLinks_setNodeData (.new : Tree A N) 0 e
  have hnum : (Tree.setNodeData (.new : Tree A N) 0 e).nodeNum = 1 := hsame.nums.2
  refine ⟨?_, ?_⟩
  · constructor
    case wired => exact hsame.wired Tree.wired_new
    case root => exact first_iff.mpr ⟨rfl, hsame.roots.2⟩
    case bound =>
      intro n k hn
      exact ⟨(first_iff.mp hn).1 ▸ hr, hnum.symm ▸ hfirst.bound hn⟩
    case inj => exact hfirst.inj
    case surj => exact fun hk => hfirst.surj (hnum ▸ hk)
    case data =>
      intro n k hn
      obtain ⟨rfl, rfl⟩ := first_iff.mp hn
      rw [Tree.nodeData_setNodeData Nat.one_pos, if_pos rfl, he]
    case arcs =>
      intro n k hn
      obtain ⟨rfl, rfl⟩ := first_iff.mp hn
      rw [if_pos (List.mem_singleton.mpr rfl), Tree.edges_setNodeData]
      exact List.Forall₂.nil
  · show Frontier _ _ (fun n => (if n = r then some 0 else none) ≠ none) _
    rw [first_seen]
    exact .start _ _

/-- The slicing is a search from `r`. -/
theorem slice_isSearch (hw : Wired g) (hpop : Pops pop) {fuel : Nat} (harcs : g.arcNum ≤ fuel) :
    IsSearch (targets g) r (Finset.range g.nodeNum) (fun x : Slice A N => !x.work.isEmpty)
      (copyNode pop g fuel) (TurnInv g r) (fun x n => x.visited n ≠ none) Slice.work where
  frontier h := h.frontier
  done _ hdone := by simpa using hdone
  turn h hmore := h.copyNode hw hpop hmore harcs

/-- A slice of a tree whose root is node zero is a copy of what can be
reached. -/
theorem slice_spec (hw : Wired g) (hpop : Pops pop) (hroot : g.rootNode = 0) (hr : r < g.nodeNum)
    (fuel : Nat) (harcs : g.arcNum ≤ fuel) (hnodes : g.nodeNum ≤ fuel) :
    ∃ new f, slice pop g fuel .new (some r) = some new ∧ IsSlice g r new f := by
  obtain ⟨e, he⟩ := exists_nodeData hr
  have hstart := turnInv_start hr he
  have hsearch := slice_isSearch (r := r) hw hpop harcs
  obtain ⟨x, hrun⟩ := hsearch.total hstart ((Finset.card_range _).trans_le hnodes)
  obtain ⟨⟨hcopied, -⟩, hempty⟩ := hsearch.exit hstart hrun
  rw [hempty] at hcopied
  refine ⟨x.new, x.visited, ?_, ?_⟩
  · have hassign : assign .new 0 e = some (Tree.setNodeData (.new : Tree A N) 0 e) :=
      if_pos Nat.one_pos
    unfold slice
    simp only [he, hroot, hassign, Option.bind_some, hrun, Option.map_some]
  constructor
  case wired => exact hcopied.wired
  case reachable => exact hsearch.seen_iff_reachable hstart hrun
  case root => exact hcopied.root
  case inj => exact hcopied.inj
  case image => exact fun k => ⟨fun hk => hcopied.surj hk, fun hk => (hcopied.bound hk.choose_spec).2⟩
  case data => exact hcopied.data
  case arcs =>
    intro n k hn
    have harcs := hcopied.arcs hn
    rwa [if_neg List.not_mem_nil] at harcs

/-- Where the root has been moved, there is nothing in a new tree to
assign the first node's data to. -/
theorem slice_moved (hmoved : g.rootNode ≠ 0) (fuel : Nat) (n : Nat) :
    slice pop g fuel .new (some n) = none := by
  have hassign : ∀ e, assign (.new : Tree A N) g.rootNode e = none :=
    fun e => if_neg fun hlt => hmoved (Nat.lt_one_iff.mp hlt)
  unfold slice
  simp only [hassign, Option.bind_none, Option.bind_fun_none]

-- ========================================================== two slices

omit [Inhabited A] [Inhabited N] in
/-- Two numberings of the same arcs. -/
theorem Renumbered.comp {f₁ f₂ φ : Nat → Option Nat} {es es₁ es₂ : List (Option A × Option Nat)}
    (hφ : ∀ {n k k'}, f₁ n = some k → f₂ n = some k' → φ k = some k')
    (h₁ : Renumbered f₁ es es₁) (h₂ : Renumbered f₂ es es₂) : Renumbered φ es₁ es₂ := by
  unfold Renumbered at h₁ h₂ ⊢
  induction h₁ generalizing es₂ with
  | nil =>
      cases h₂
      exact .nil
  | cons he _ ih =>
      cases h₂ with
      | cons he' hrest =>
          refine .cons ?_ (ih hrest)
          obtain ⟨hdata, n, k, hn, hk, hnk⟩ := he
          obtain ⟨hdata', n', k', hn', hk', hnk'⟩ := he'
          obtain rfl := Option.some.inj (hn.symm.trans hn')
          exact ⟨hdata'.trans hdata.symm, k, k', hk, hk', hφ hnk hnk'⟩

omit [Inhabited A] [Inhabited N] in
/-- Two copies of what can be reached from a node are the same graph. -/
theorem IsSlice.isomorphic {g₁ g₂ : Tree A N} {f₁ f₂ : Nat → Option Nat} (h₁ : IsSlice g r g₁ f₁)
    (h₂ : IsSlice g r g₂ f₂) : ∃ φ, Isomorphic g₁ g₂ φ := by
  choose! back hback using fun k hk => (h₁.image k).mp hk
  -- back to the nodes of `g`, and on to those of `g₂`
  have hmem : ∀ {n k}, f₁ n = some k → k < g₁.nodeNum := fun hn => (h₁.image _).mpr ⟨_, hn⟩
  have hboth : ∀ n, f₁ n ≠ none ↔ f₂ n ≠ none := fun n =>
    (h₁.reachable n).trans (h₂.reachable n).symm
  have hφ : ∀ {k k'}, (if k < g₁.nodeNum then f₂ (back k) else none) = some k'
      ↔ ∃ n, f₁ n = some k ∧ f₂ n = some k' := by
    intro k k'
    constructor
    · intro hk
      split at hk
      · next hlt => exact ⟨back k, hback k hlt, hk⟩
      · cases hk
    · intro h
      obtain ⟨n, hn, hn'⟩ := h
      rw [if_pos (hmem hn), h₁.inj (hback k (hmem hn)) hn]
      exact hn'
  refine ⟨fun k => if k < g₁.nodeNum then f₂ (back k) else none, ?_⟩
  constructor
  case total =>
    intro k
    constructor
    · intro hk
      have hsome : f₂ (back k) ≠ none := (hboth _).mp (by rw [hback k hk]; simp)
      rwa [if_pos hk]
    · intro hk
      by_contra hlt
      exact hk (if_neg hlt)
  case root => exact hφ.mpr ⟨r, h₁.root, h₂.root⟩
  case inj =>
    intro k₁ k₂ k' hk₁ hk₂
    obtain ⟨n₁, hn₁, hn₁'⟩ := hφ.mp hk₁
    obtain ⟨n₂, hn₂, hn₂'⟩ := hφ.mp hk₂
    obtain rfl := h₂.inj hn₁' hn₂'
    exact Option.some.inj (hn₁.symm.trans hn₂)
  case image =>
    intro k'
    rw [h₂.image]
    constructor
    · intro h
      obtain ⟨n, hn⟩ := h
      obtain ⟨k, hk⟩ := Option.ne_none_iff_exists'.mp ((hboth n).mpr (by rw [hn]; simp))
      exact ⟨k, hφ.mpr ⟨n, hk, hn⟩⟩
    · intro h
      obtain ⟨k, hk⟩ := h
      obtain ⟨n, -, hn⟩ := hφ.mp hk
      exact ⟨n, hn⟩
  case data =>
    intro k k' hk
    obtain ⟨n, hn, hn'⟩ := hφ.mp hk
    rw [h₂.data hn', h₁.data hn]
  case arcs =>
    intro k k' hk
    obtain ⟨n, hn, hn'⟩ := hφ.mp hk
    exact (h₁.arcs hn).comp (fun hi hi' => hφ.mpr ⟨_, hi, hi'⟩) (h₂.arcs hn')

-- ============================================================ the result

/-- Slicing at a node of a tree does what it should if and only if the
tree's root is node zero. -/
theorem slices_iff (h : Built g) {old : Nat} (hold : old < g.nodeNum) :
    Slices g old ↔ g.rootNode = 0 := by
  have hw := h.wired
  constructor
  · intro hslices
    obtain ⟨enough, hslices⟩ := hslices
    obtain ⟨df, -, hdf, -⟩ := hslices enough (Nat.le_refl _)
    by_contra hmoved
    rw [sliceDF, slice_moved hmoved] at hdf
    cases hdf
  · intro hroot
    refine ⟨g.arcNum + g.nodeNum, fun fuel hfuel => ?_⟩
    obtain ⟨df, f, hdf, hf⟩ := slice_spec hw pops_popBack hroot hold fuel (by omega) (by omega)
    obtain ⟨bf, f', hbf, hf'⟩ := slice_spec hw pops_popFront hroot hold fuel (by omega) (by omega)
    exact ⟨df, bf, hdf, hbf, ⟨f, hf⟩, ⟨f', hf'⟩, hf.isomorphic hf'⟩

/-- A root with two children, the first of which has the second for a
child too. -/
theorem slices_iff_shared :
    ∃ g : Tree Nat Nat, ((addNodeUnsafe .new 0).bind fun x => (addNodeUnsafe x.1 0).bind fun x =>
        (addArcUnsafe x.1 1 2).map Prod.fst) = some g
      ∧ (Slices g 1 ↔ g.rootNode = 0) :=
  ⟨_, rfl, slices_iff (.addArc (s := 1) (t := 2) (.addNode (s := 0) (.addNode (s := 0) .new
    (by decide) rfl) (by decide) rfl) (by decide) (by decide) rfl) (by decide)⟩

/-- The root is moved to the only child, which is to be sliced. -/
theorem moved_root_not_sliced :
    ∃ g : Tree Nat Nat, ((addNodeUnsafe .new 0).map fun x => x.1.setRoot 1) = some g
      ∧ Built g ∧ 1 < g.nodeNum
      ∧ (∀ fuel, sliceDF g fuel .new (some 1) = none ∧ sliceBF g fuel .new (some 1) = none)
      ∧ ¬ Slices g 1 := by
  refine ⟨_, rfl, .setRoot (.addNode (s := 0) .new (by decide) rfl) (by decide), by decide,
    fun fuel => ⟨slice_moved (by decide) fuel 1, slice_moved (by decide) fuel 1⟩, ?_⟩
  intro h
  obtain ⟨enough, hslices⟩ := h
  obtain ⟨df, -, hdf, -⟩ := hslices enough (Nat.le_refl _)
  rw [sliceDF, slice_moved (by decide)] at hdf
  cases hdf

end MctsConnectFour.Digraph.Older
