/-
`AddChild ( )`: what the tree looks like with one more node, and that it
keeps its shape. `Grown` are the views of the new tree, each an update of
the view of the old one; `wins` and `visits` of a node that is not there
are zero, like those of a new one, so these two do not change at all.
-/
import MctsConnectFour.Uct.Laws

namespace MctsConnectFour.Uct

variable {G : GameState} {I : G.State → Prop} {rank : G.State → Nat}
variable {s₀ s : G.State} {t t' : Nodes G.Move} {st : Nat → G.State} {i : Nat} {m : G.Move}

/-- The tree with a child of node `i` for the move `m` and the state `s`. -/
structure Grown (t : Nodes G.Move) (i : Nat) (m : G.Move) (s : G.State) (t' : Nodes G.Move) :
    Prop where
  length : t'.length = t.length + 1
  parent : parentOf t' = Function.update (parentOf t) t.length (some i)
  children : childrenOf t' = Function.update (childrenOf t) i (childrenOf t i ++ [t.length])
  untried : untriedOf t' = Function.update
    (Function.update (untriedOf t) i ((untriedOf t i).erase m)) t.length (G.getMoves s)
  move : moveOf t' = Function.update (moveOf t) t.length (some m)
  player : playerOf t' = Function.update (playerOf t) t.length (G.playerJustMoved s)
  visits : visitsOf t' = visitsOf t
  wins : winsOf t' = winsOf t

/-- `AddChild ( )` with a move that is untried. -/
theorem addChild_spec (hi : i < t.length) (hm : m ∈ untriedOf t i) :
    ∃ t', addChild G t i m s = some (t', t.length) ∧ Grown t i m s t' := by
  obtain ⟨self, hself⟩ := exists_node hi
  have huntried : untriedOf t i = self.untriedMoves := view_eq hself
  have hchildren : childrenOf t i = self.childNodes := view_eq hself
  refine ⟨_, by rw [addChild, hself, Option.bind_some, if_pos (huntried ▸ hm)], ?_⟩
  -- a field that the change of the parent leaves
  have hkept : ∀ {β : Type} {f : Node G.Move → β} {d : β} (g : Node G.Move → Node G.Move)
      (n : Node G.Move), (∀ n, f (g n) = f n) →
      view f d (t.modify i g ++ [n]) = Function.update (view f d t) t.length (f n) := by
    intro β f d g n hf
    rw [view_append, view_modify _ hself, List.length_modify, hf,
      ← view_eq (f := f) (d := d) hself, Function.update_eq_self]
  have hsame : ∀ {β : Type} {v : Nat → β} {d : β}, v t.length = d →
      Function.update v t.length d = v := fun h => Function.update_eq_self_iff.mpr h.symm
  constructor
  case length => rw [List.length_append, List.length_modify]; rfl
  case parent => exact hkept _ _ fun _ => rfl
  case children =>
    rw [childrenOf, view_append, view_modify _ hself, List.length_modify, ← childrenOf,
      ← hchildren]
    apply hsame
    rw [Function.update_of_ne hi.ne', childrenOf, view_none le_rfl]
    rfl
  case untried =>
    rw [untriedOf, view_append, view_modify _ hself, List.length_modify, ← untriedOf, huntried]
    rfl
  case move => exact hkept _ _ fun _ => rfl
  case player => exact hkept _ _ fun _ => rfl
  case visits =>
    refine (hkept (f := Node.visits) (d := 0) _ _ ?_).trans ?_
    · exact fun _ => rfl
    · exact hsame (view_none le_rfl)
  case wins =>
    refine (hkept (f := Node.wins) (d := 0) _ _ ?_).trans ?_
    · exact fun _ => rfl
    · exact hsame (view_none le_rfl)

-- ======================================================== it keeps shape

section Kept

variable {s' : G.State} (hgrown : Grown t i m s' t')

include hgrown

theorem Grown.parent_old {c : Nat} (hc : c < t.length) : parentOf t' c = parentOf t c := by
  rw [hgrown.parent, Function.update_of_ne hc.ne]

theorem Grown.move_old {c : Nat} (hc : c < t.length) : moveOf t' c = moveOf t c := by
  rw [hgrown.move, Function.update_of_ne hc.ne]

/-- An arc of the new tree is one of the old tree or the new one. -/
theorem Grown.parent_cases {c p : Nat} (hc : parentOf t' c = some p) :
    c < t.length ∧ parentOf t c = some p ∨ c = t.length ∧ p = i := by
  rw [hgrown.parent] at hc
  by_cases hnew : c = t.length
  · rw [hnew, Function.update_self] at hc
    exact Or.inr ⟨hnew, (Option.some.inj hc).symm⟩
  · rw [Function.update_of_ne hnew] at hc
    exact Or.inl ⟨lt_of_parentOf hc, hc⟩

/-- `AddChild ( )` keeps the invariant, with the state of the new node. -/
theorem TreeInv.grow (hG : Lawful G I rank) (h : TreeInv I s₀ t st) (hi : i < t.length)
    (hm : m ∈ untriedOf t i) (hmove : G.doMove (st i) m = some s') :
    TreeInv I s₀ t' (Function.update st t.length s') := by
  have hlisted : m ∈ G.getMoves (st i) :=
    (h.moves hi).subset (List.mem_append_left _ hm)
  have hold : ∀ {c}, c < t.length → Function.update st t.length s' c = st c :=
    fun hc => Function.update_of_ne hc.ne _ _
  have hcases : ∀ {c}, c < t'.length → c < t.length ∨ c = t.length := by
    intro c hc
    rw [hgrown.length] at hc
    exact Nat.lt_succ_iff_lt_or_eq.mp hc
  constructor
  case linked =>
    rw [hgrown.parent, hgrown.children]
    exact h.linked.addChild hi (view_none le_rfl)
  case pos => exact hgrown.length ▸ Nat.succ_pos _
  case root => rw [hold h.pos, h.root]
  case parent_none =>
    intro c hc
    rcases hcases hc with hc | rfl
    · rw [hgrown.parent_old hc]
      exact h.parent_none hc
    · rw [hgrown.parent, Function.update_self]
      exact iff_of_false (by simp) h.pos.ne'
  case inv =>
    intro c hc
    rcases hcases hc with hc | rfl
    · rw [hold hc]
      exact h.inv hc
    · rw [Function.update_self]
      exact (hG.of_doMove (h.inv hi) hlisted hmove).1
  case player =>
    intro c hc
    rw [hgrown.player]
    rcases hcases hc with hc | rfl
    · rw [Function.update_of_ne hc.ne, hold hc]
      exact h.player hc
    · rw [Function.update_self, Function.update_self]
  case leads =>
    intro p c hc
    rcases hgrown.parent_cases hc with ⟨hlt, hc⟩ | ⟨rfl, rfl⟩
    · rw [hgrown.move_old hlt, hold (h.parent_lt hc), hold hlt]
      exact h.leads hc
    · rw [hgrown.move, Function.update_self, hold hi, Function.update_self]
      exact ⟨m, rfl, hmove⟩
  case moves =>
    intro c hc
    -- the children there were have the moves they had
    have hchildren : ∀ {j}, j < t.length →
        (childrenOf t j).filterMap (moveOf t') = (childrenOf t j).filterMap (moveOf t) := by
      intro j hj
      apply List.filterMap_congr
      intro d hd
      exact hgrown.move_old (lt_of_parentOf (h.linked.mem_iff.mp hd))
    rw [hgrown.untried, hgrown.children]
    rcases hcases hc with hc | rfl
    · rw [Function.update_of_ne hc.ne, hold hc]
      by_cases hci : c = i
      · subst hci
        rw [Function.update_self, Function.update_self, List.filterMap_append, hchildren hc,
          hgrown.move, ← List.append_assoc]
        have hnew : [t.length].filterMap (Function.update (moveOf t) t.length (some m)) = [m] := by
          simp
        rw [hnew]
        refine List.Perm.trans ?_ (h.moves hc)
        refine (List.perm_append_singleton m _).trans ?_
        rw [← List.cons_append]
        exact (List.perm_cons_erase hm).symm.append_right _
      · rw [Function.update_of_ne hci, Function.update_of_ne hci, hchildren hc]
        exact h.moves hc
    · rw [Function.update_self, Function.update_self, Function.update_of_ne hi.ne', childrenOf,
        view_none le_rfl, List.filterMap_nil, List.append_nil]

end Kept

end MctsConnectFour.Uct
