/-
Renaming a variable, node by node.

A renamed expression has the same nodes as before, in the same order; each is the node that was there, or that node
renamed (`nodes_renameFree`). This is said for children first (`children_renameFree`), and the walk over all nodes
takes it from children to nodes (`nodesOf_rel`). So what renaming keeps of a node, it keeps everywhere
(`every_renameFree`), and what it does not change at a node, such as the binders, it changes nowhere
(`map_nodes_renameFree`).

If the new name occurs nowhere in the expression, the free names change as one would expect
(`mem_freeNames_renameFree`), and renaming back yields the expression (`renameFree_renameFree`): the new name is free
where the old one was and nowhere else, and no binder of either name came to stand above an occurrence that was
renamed.
-/
import Mathlib.Data.List.Forall2
import SchemeStack.Core.Renaming
import SchemeStack.Proofs.CoreInduction

namespace SchemeStack.Core

variable {old new x y g : String} {e t : Core}

theorem renameFreeAll_eq_map (old new : String) (es : List Core) :
    renameFreeAll old new es = es.map (renameFree old new) := by
  induction es with
  | nil => rfl
  | cons e es ih => rw [renameFreeAll, ih, List.map_cons]

/-! ## Nodes -/

/-- if related expressions have related children, they have related nodes -/
theorem nodesOf_rel {R : Core → Core → Prop} (hR : ∀ e e', R e e' → List.Forall₂ R e.children e'.children)
    {es es' : List Core} (h : List.Forall₂ R es es') : List.Forall₂ R (nodesOf es) (nodesOf es') := by
  induction es using nodesOf.induct generalizing es' with
  | case1 =>
    cases h
    rw [nodesOf]
    exact .nil
  | case2 e stack ih =>
    cases h with
    | cons he hstack =>
      rw [nodesOf, nodesOf]
      exact .cons he (ih (List.rel_append (hR _ _ he) hstack))

/-- what renaming makes of a node: the node as it was, or the node renamed -/
def RenamedNode (old new : String) (n n' : Core) : Prop := n' = n ∨ n' = n.renameFree old new

theorem children_renameFree (old new : String) (e : Core) :
    List.Forall₂ (RenamedNode old new) e.children (e.renameFree old new).children := by
  have hscope : ∀ (p : Prop) [Decidable p] (b : Core),
      RenamedNode old new b (if p then b else b.renameFree old new) := by
    intro p _ b
    split
    · exact Or.inl rfl
    · exact Or.inr rfl
  cases e with
  | var name => exact .nil
  | val v => exact .nil
  | quote v => exact .nil
  | letIn name value body => exact .cons (Or.inr rfl) (.cons (hscope _ body) .nil)
  | lambda params rest body => exact .cons (hscope _ body) .nil
  | app operator operands =>
    rw [renameFree, renameFreeAll_eq_map]
    refine List.rel_append ?_ (.cons (Or.inr rfl) .nil)
    exact List.forall₂_map_right_iff.2 (List.forall₂_same.2 fun e _ => Or.inr rfl)
  | branch test consequent alternative =>
    cases alternative with
    | none => exact .cons (Or.inr rfl) (.cons (Or.inr rfl) .nil)
    | some alternative => exact .cons (Or.inr rfl) (.cons (Or.inr rfl) (.cons (Or.inr rfl) .nil))
  | assign name value => exact .cons (Or.inr rfl) .nil

/-- **The nodes of a renamed expression,** in order, are those of the expression, each as it was or renamed -/
theorem nodes_renameFree (old new : String) (e : Core) :
    List.Forall₂ (RenamedNode old new) e.nodes (e.renameFree old new).nodes := by
  refine nodesOf_rel ?_ (.cons (Or.inr rfl) .nil)
  rintro e e' (rfl | rfl)
  · exact List.forall₂_same.2 fun _ _ => Or.inl rfl
  · exact children_renameFree old new e

/-- what renaming does not change at a node, it changes nowhere -/
theorem map_nodes_renameFree {β : Type} {φ : Core → β} (hφ : ∀ n : Core, φ (n.renameFree old new) = φ n) (e : Core) :
    (e.renameFree old new).nodes.map φ = e.nodes.map φ := by
  rw [← List.forall₂_eq_eq_eq, List.forall₂_map_left_iff, List.forall₂_map_right_iff]
  refine ((nodes_renameFree old new e).imp ?_).flip
  rintro n n' (rfl | rfl)
  · rfl
  · exact hφ n

/-- a property of nodes that changing a name keeps, is kept everywhere -/
theorem every_renameFree {Q : Core → Prop} (hQ : ∀ n, Q n → Q (n.renameFree old new)) (h : e.Every Q) :
    (e.renameFree old new).Every Q := by
  have hnodes : List.Forall₂ (fun n' _ => Q n' ∧ True) (e.renameFree old new).nodes e.nodes := by
    refine (((List.forall₂_and_left _ _).2 ⟨h, nodes_renameFree old new e⟩).imp ?_).flip
    rintro n n' ⟨hn, rfl | rfl⟩
    · exact ⟨hn, trivial⟩
    · exact ⟨hQ n hn, trivial⟩
  exact ((List.forall₂_and_left _ _).1 hnodes).1

/-! ## Names -/

theorem mem_nodeNames_renameFree {n : Core} (h : x ∈ (n.renameFree y g).nodeNames) : x = g ∨ x ∈ n.nodeNames := by
  have hswap : ∀ name, x = swapName y g name → x = g ∨ x = name := by
    intro name hx
    unfold swapName at hx
    split at hx
    · exact Or.inl hx
    · exact Or.inr hx
  cases n with
  | var name => exact (hswap name (List.mem_singleton.1 h)).imp_right List.mem_singleton.2
  | assign name value => exact (hswap name (List.mem_singleton.1 h)).imp_right List.mem_singleton.2
  | branch test consequent alternative => cases alternative <;> cases h
  | _ => exact Or.inr h

theorem mem_allNames_renameFree (h : x ∈ (t.renameFree y g).allNames) : x = g ∨ x ∈ t.allNames := by
  have hevery : t.Every fun n => ∀ z ∈ n.nodeNames, z = g ∨ z ∈ t.allNames :=
    fun n hn z hz => Or.inr (List.mem_flatMap.2 ⟨n, hn, hz⟩)
  obtain ⟨n, hn, hx⟩ := List.mem_flatMap.1 h
  refine every_renameFree (fun n hn z hz => ?_) hevery n hn x hx
  exact (mem_nodeNames_renameFree hz).elim Or.inl (hn z)

theorem mem_freeNames_renameFree (hg : g ∉ t.allNames) :
    x ∈ (t.renameFree y g).freeNames ↔ x ∈ t.freeNames ∧ x ≠ y ∨ x = g ∧ y ∈ t.freeNames := by
  have hswap : ∀ n, x = swapName y g n ↔ x = n ∧ x ≠ y ∨ x = g ∧ y = n := by
    intro n
    unfold swapName
    split <;> grind
  induction t with
  | var name => simpa [renameFree, freeNames] using hswap name
  | val v => simp [renameFree, freeNames]
  | quote v => simp [renameFree, freeNames]
  | letIn name value body ihv ihb =>
    simp only [mem_allNames_letIn, not_or] at hg
    have hv := ihv hg.2.1
    have hb := ihb hg.2.2
    simp only [renameFree, mem_freeNames_letIn]
    split <;> grind
  | lambda params rest body ih =>
    simp only [mem_allNames_lambda, not_or] at hg
    have hb := ih hg.2
    simp only [renameFree, mem_freeNames_lambda, List.contains_iff_mem]
    split <;> grind
  | app operator operands ihf ihas =>
    simp only [mem_allNames_app, not_or, not_exists, not_and] at hg
    have hparts : ∀ p ∈ operator :: operands,
        (x ∈ (p.renameFree y g).freeNames ↔ x ∈ p.freeNames ∧ x ≠ y ∨ x = g ∧ y ∈ p.freeNames) :=
      List.forall_mem_cons.2 ⟨ihf hg.2, fun p hp => ihas p hp (hg.1 p hp)⟩
    rw [renameFree, renameFreeAll_eq_map, mem_freeNames_app, mem_freeNames_app, mem_freeNames_app, ← List.map_cons]
    constructor
    · rintro ⟨q, hq, hx⟩
      obtain ⟨p, hp, rfl⟩ := List.mem_map.1 hq
      rcases (hparts p hp).1 hx with ⟨hx, hxy⟩ | ⟨hx, hy⟩
      · exact Or.inl ⟨⟨p, hp, hx⟩, hxy⟩
      · exact Or.inr ⟨hx, p, hp, hy⟩
    · rintro (⟨⟨p, hp, hx⟩, hxy⟩ | ⟨hx, p, hp, hy⟩)
      · exact ⟨_, List.mem_map_of_mem hp, (hparts p hp).2 (Or.inl ⟨hx, hxy⟩)⟩
      · exact ⟨_, List.mem_map_of_mem hp, (hparts p hp).2 (Or.inr ⟨hx, hy⟩)⟩
  | branch test consequent alternative iht ihc iha =>
    cases alternative with
    | none =>
      simp only [mem_allNames_branch_none, not_or] at hg
      have ht := iht hg.1
      have hc := ihc hg.2
      simp only [renameFree, freeNames, List.mem_append]
      grind
    | some alternative =>
      simp only [mem_allNames_branch_some, not_or] at hg
      have ht := iht hg.1
      have hc := ihc hg.2.1
      have ha := iha _ rfl hg.2.2
      simp only [renameFree, freeNames, List.mem_append]
      grind
  | assign name value ih =>
    simp only [mem_allNames_assign, not_or] at hg
    have hv := ih hg.2
    have hn := hswap name
    simp only [renameFree, mem_freeNames_assign]
    grind

/-! ## Renaming back -/

theorem swapName_swapName (h : x ≠ new) : swapName new old (swapName old new x) = x := by
  by_cases hx : x = old
  · rw [hx, swapName, swapName, if_pos rfl, if_pos rfl]
  · rw [swapName, swapName, if_neg hx, if_neg h]

/-- there is nothing to rename if the name is not free -/
theorem renameFree_eq_self (h : old ∉ e.freeNames) : e.renameFree old new = e := by
  induction e with
  | var name =>
    have hname : name ≠ old := fun hname => h (hname ▸ List.mem_singleton_self name)
    rw [renameFree, swapName, if_neg hname]
  | val v => rfl
  | quote v => rfl
  | letIn name value body ihv ihb =>
    rw [mem_freeNames_letIn, not_or, not_and_or, not_not] at h
    rw [renameFree, ihv h.1]
    split
    · rfl
    · rename_i hname
      rw [ihb (h.2.resolve_right (Ne.symm hname))]
  | lambda params rest body ih =>
    rw [mem_freeNames_lambda, not_and_or, not_not] at h
    rw [renameFree]
    split
    · rfl
    · rename_i hbinders
      rw [ih (h.resolve_right fun hmem => hbinders (List.contains_iff_mem.2 hmem))]
  | app operator operands ihf ihas =>
    have hparts : ∀ p ∈ operator :: operands, old ∉ p.freeNames :=
      fun p hp hold => h (mem_freeNames_app.2 ⟨p, hp, hold⟩)
    have hoperands : operands.map (renameFree old new) = operands.map id :=
      List.map_congr_left fun p hp => ihas p hp (hparts p (List.mem_cons_of_mem operator hp))
    rw [renameFree, renameFreeAll_eq_map, ihf (hparts operator List.mem_cons_self), hoperands, List.map_id]
  | branch test consequent alternative iht ihc iha =>
    rw [mem_freeNames_branch, not_or, not_or] at h
    cases alternative with
    | none => rw [renameFree, iht h.1, ihc h.2.1]
    | some alternative => rw [renameFree, iht h.1, ihc h.2.1, iha _ rfl fun ha => h.2.2 ⟨alternative, rfl, ha⟩]
  | assign name value ih =>
    rw [mem_freeNames_assign, not_or] at h
    rw [renameFree, ih h.2, swapName, if_neg (Ne.symm h.1)]

/-- **Renaming to a name that is nowhere in the expression can be undone** -/
theorem renameFree_renameFree (h : new ∉ e.allNames) : (e.renameFree old new).renameFree new old = e := by
  -- a part that was left alone, in the scope of a binder of the old name, does not have the new one
  have hleft : ∀ b : Core, new ∉ b.allNames → b.renameFree new old = b :=
    fun b hb => renameFree_eq_self fun hfree => hb (mem_allNames_of_mem_freeNames hfree)
  induction e with
  | var name =>
    rw [renameFree, renameFree, swapName_swapName fun hname => h (mem_allNames_var.2 hname.symm)]
  | val v => rfl
  | quote v => rfl
  | letIn name value body ihv ihb =>
    simp only [mem_allNames_letIn, not_or] at h
    rw [renameFree, renameFree, ihv h.2.1, if_neg (Ne.symm h.1)]
    split
    · rw [hleft body h.2.2]
    · rw [ihb h.2.2]
  | lambda params rest body ih =>
    simp only [mem_allNames_lambda, not_or] at h
    rw [renameFree, renameFree, if_neg fun hmem => h.1 (List.contains_iff_mem.1 hmem)]
    split
    · rw [hleft body h.2]
    · rw [ih h.2]
  | app operator operands ihf ihas =>
    simp only [mem_allNames_app, not_or, not_exists, not_and] at h
    have hoperands : (operands.map (renameFree old new)).map (renameFree new old) = operands := by
      rw [List.map_map]
      exact (List.map_congr_left fun p hp => ihas p hp (h.1 p hp)).trans (List.map_id operands)
    rw [renameFree, renameFree, ihf h.2, renameFreeAll_eq_map, renameFreeAll_eq_map, hoperands]
  | branch test consequent alternative iht ihc iha =>
    cases alternative with
    | none =>
      simp only [mem_allNames_branch_none, not_or] at h
      rw [renameFree, renameFree, iht h.1, ihc h.2]
    | some alternative =>
      simp only [mem_allNames_branch_some, not_or] at h
      rw [renameFree, renameFree, iht h.1, ihc h.2.1, iha _ rfl h.2.2]
  | assign name value ih =>
    simp only [mem_allNames_assign, not_or] at h
    rw [renameFree, renameFree, ih h.2, swapName_swapName (Ne.symm h.1)]

end SchemeStack.Core
