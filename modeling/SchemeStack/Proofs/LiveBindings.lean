/-
Only bindings of use are left, after one pass.

`LiveNode` asks of a binding that its name is free in its body, or that its value has an effect, calls counted. One
pass from the inside out is enough (`dropDead_live`): it looks at the body and the value as they are after the pass,
and does not touch them again. An expression all of whose bindings are of use is left as it is (`dropDead_eq_self`),
so a second pass does nothing.

What is dropped only takes free names away (`mem_freeNames_of_dropDead`). A binding that is dropped makes room for its
body, and no other node changes its kind: so atoms stay atoms, what is no binding does not become one, and A-normal
form is kept (`dropDead_normal`).
-/
import SchemeStack.Proofs.DeadBindingMeaning
import SchemeStack.Proofs.NormalFormNodes

namespace SchemeStack.Core

variable {e : Core} {name x : String} {v b : Core}

/-- a binding is of use: its name is free in its body, or its value has an effect -/
def LiveNode : Core → Prop
  | letIn name value body => name ∈ body.freeNames ∨ value.hasEffect true = true
  | _ => True

theorem not_isDead_iff : ¬ isDead name v b = true ↔ (letIn name v b).LiveNode := by
  rw [isDead_iff, not_and_or, not_not, Bool.not_eq_false]
  exact Iff.rfl

theorem live_atom (h : e.isAtomic = true) : e.Every LiveNode := by
  rw [every_atom h]
  cases e with
  | letIn y w d => cases h
  | _ => trivial

/-! ## One pass is enough -/

/-- no binding that is left is dead -/
theorem dropDead_live (e : Core) : e.dropDead.Every LiveNode := by
  induction e with
  | var name => exact live_atom rfl
  | val v => exact live_atom rfl
  | quote v => exact live_atom rfl
  | letIn name value body ihv ihb =>
    rw [dropDead]
    split
    · exact ihb
    · rename_i hlive
      exact every_letIn.2 ⟨not_isDead_iff.1 hlive, ihv, ihb⟩
  | lambda params rest body ih => exact every_lambda.2 ⟨trivial, ih⟩
  | app operator operands ihf ihas =>
    rw [dropDead, dropDeadAll_eq_map]
    refine every_app.2 ⟨trivial, List.forall_mem_cons.2 ⟨ihf, fun p hp => ?_⟩⟩
    obtain ⟨q, hq, rfl⟩ := List.mem_map.1 hp
    exact ihas q hq
  | branch test consequent alternative iht ihc iha =>
    cases alternative with
    | none => exact every_branch_none.2 ⟨trivial, iht, ihc⟩
    | some alternative => exact every_branch_some.2 ⟨trivial, iht, ihc, iha _ rfl⟩
  | assign name value ih => exact every_assign.2 ⟨trivial, ih⟩

/-- where every binding is of use, nothing is dropped -/
theorem dropDead_eq_self (h : e.Every LiveNode) : e.dropDead = e := by
  induction e with
  | var name => rfl
  | val v => rfl
  | quote v => rfl
  | letIn name value body ihv ihb =>
    obtain ⟨hlive, hv, hb⟩ := every_letIn.1 h
    rw [dropDead, ihv hv, ihb hb]
    exact if_neg (not_isDead_iff.2 hlive)
  | lambda params rest body ih => rw [dropDead, ih (every_lambda.1 h).2]
  | app operator operands ihf ihas =>
    obtain ⟨hf, has⟩ := List.forall_mem_cons.1 (every_app.1 h).2
    have hsame : operands.map dropDead = operands.map id := List.map_congr_left fun p hp => ihas p hp (has p hp)
    rw [dropDead, dropDeadAll_eq_map, ihf hf, hsame, List.map_id]
  | branch test consequent alternative iht ihc iha =>
    cases alternative with
    | none =>
      obtain ⟨-, ht, hc⟩ := every_branch_none.1 h
      rw [dropDead, iht ht, ihc hc]
    | some alternative =>
      obtain ⟨-, ht, hc, ha⟩ := every_branch_some.1 h
      rw [dropDead, iht ht, ihc hc, iha _ rfl ha]
  | assign name value ih => rw [dropDead, ih (every_assign.1 h).2]

/-! ## What is kept -/

/-- no name becomes free -/
theorem mem_freeNames_of_dropDead (h : x ∈ e.dropDead.freeNames) : x ∈ e.freeNames := by
  induction e with
  | var name => exact h
  | val v => exact h
  | quote v => exact h
  | letIn name value body ihv ihb =>
    rw [dropDead] at h
    rw [mem_freeNames_letIn]
    split at h
    · rename_i hdead
      refine Or.inr ⟨ihb h, ?_⟩
      rintro rfl
      exact (isDead_iff.1 hdead).1 h
    · rcases mem_freeNames_letIn.1 h with hx | ⟨hx, hxn⟩
      · exact Or.inl (ihv hx)
      · exact Or.inr ⟨ihb hx, hxn⟩
  | lambda params rest body ih =>
    obtain ⟨hx, hbound⟩ := mem_freeNames_lambda.1 h
    exact mem_freeNames_lambda.2 ⟨ih hx, hbound⟩
  | app operator operands ihf ihas =>
    rw [dropDead, dropDeadAll_eq_map, mem_freeNames_app, ← List.map_cons] at h
    obtain ⟨q, hq, hx⟩ := h
    obtain ⟨p, hp, rfl⟩ := List.mem_map.1 hq
    have hparts : ∀ p ∈ operator :: operands, x ∈ p.dropDead.freeNames → x ∈ p.freeNames :=
      List.forall_mem_cons.2 ⟨ihf, ihas⟩
    exact mem_freeNames_app.2 ⟨p, hp, hparts p hp hx⟩
  | branch test consequent alternative iht ihc iha =>
    rw [mem_freeNames_branch]
    cases alternative with
    | none =>
      rcases mem_freeNames_branch.1 h with hx | hx | ⟨a, ha, -⟩
      · exact Or.inl (iht hx)
      · exact Or.inr (Or.inl (ihc hx))
      · cases ha
    | some alternative =>
      rcases mem_freeNames_branch.1 h with hx | hx | ⟨a, ha, hx⟩
      · exact Or.inl (iht hx)
      · exact Or.inr (Or.inl (ihc hx))
      · cases ha
        exact Or.inr (Or.inr ⟨alternative, rfl, iha _ rfl hx⟩)
  | assign name value ih =>
    rcases mem_freeNames_assign.1 h with hx | hx
    · exact mem_freeNames_assign.2 (Or.inl hx)
    · exact mem_freeNames_assign.2 (Or.inr (ih hx))

theorem isLet_dropDead (h : e.isLet = false) : e.dropDead.isLet = false := by
  cases e with
  | letIn y w d => cases h
  | branch t c a => cases a <;> rfl
  | _ => rfl

/-- dropping dead bindings keeps A-normal form -/
theorem dropDead_normal (h : e.Every NormalNode) : e.dropDead.Every NormalNode := by
  induction e with
  | var name => exact h
  | val v => exact h
  | quote v => exact h
  | letIn name value body ihv ihb =>
    obtain ⟨hnode, hv, hb⟩ := every_letIn.1 h
    rw [dropDead]
    split
    · exact ihb hb
    · exact every_letIn.2 ⟨⟨trivial, isLet_dropDead hnode.2⟩, ihv hv, ihb hb⟩
  | lambda params rest body ih => exact every_lambda.2 ⟨⟨trivial, trivial⟩, ih (every_lambda.1 h).2⟩
  | app operator operands _ _ =>
    -- operator and operands are atoms, which stay as they are
    have hsame : (app operator operands).dropDead = app operator operands :=
      dropDead_eq_self (every_app.2 ⟨trivial, fun p hp => live_atom (h.root.1 p hp)⟩)
    rwa [hsame]
  | branch test consequent alternative _ ihc iha =>
    have ht : test.dropDead = test := dropDead_eq_self (live_atom h.root.1)
    cases alternative with
    | none =>
      obtain ⟨hnode, htest, hc⟩ := every_branch_none.1 h
      rw [dropDead, ht]
      exact every_branch_none.2 ⟨⟨hnode.1, trivial⟩, htest, ihc hc⟩
    | some alternative =>
      obtain ⟨hnode, htest, hc, ha⟩ := every_branch_some.1 h
      rw [dropDead, ht]
      exact every_branch_some.2 ⟨⟨hnode.1, trivial⟩, htest, ihc hc, iha _ rfl ha⟩
  | assign name value ih => exact every_assign.2 ⟨⟨trivial, trivial⟩, ih (every_assign.1 h).2⟩

/-- **One pass drops every dead binding.** Of the bindings that are left, wherever they stand, each has its name free
in its body or an effect in its value; a second pass returns the same expression; no name becomes free; and an
expression in A-normal form stays in it -/
theorem dropDead_thorough (e : Core) :
    (∀ name value body, letIn name value body ∈ e.dropDead.nodes →
      name ∈ body.freeNames ∨ value.hasEffect true = true) ∧
    e.dropDead.dropDead = e.dropDead ∧
    (∀ x ∈ e.dropDead.freeNames, x ∈ e.freeNames) ∧
    (e.Every NormalNode → e.dropDead.Every NormalNode) :=
  ⟨fun _ _ _ hnode => dropDead_live e _ hnode, dropDead_eq_self (dropDead_live e), fun _ => mem_freeNames_of_dropDead,
    dropDead_normal⟩

/-- a binding used by a dead one only; the dead one's value holds a call that is not made; behind them, a call that is
made -/
theorem chained_bindings_dropped :
    let call := app (var "f") [var "y"]
    let e := letIn "x" (var "y") (letIn "z" (lambda [] none (app (var "x") [])) (letIn "w" call (var "y")))
    e.dropDead = letIn "w" call (var "y") ∧ e.Every NormalNode ∧ e.dropDead.Every NormalNode ∧
      ("w" ∈ (var "y").freeNames ∨ call.hasEffect true = true) := by
  intro call e
  have hdropped : e.dropDead = letIn "w" call (var "y") := by
    simp [e, call, dropDead, dropDeadAll, isDead, hasEffect_eq_actsIn, freeNames]
  have hcall : ∀ f : String, ∀ as : List Core, (∀ a ∈ as, a.isAtomic = true) → (app (var f) as).Every NormalNode := by
    intro f as has
    have hparts : ∀ p ∈ var f :: as, p.isAtomic = true := List.forall_mem_cons.2 ⟨rfl, has⟩
    exact every_app.2 ⟨⟨hparts, trivial⟩, fun p hp => normal_atom (hparts p hp)⟩
  have hnormal : e.Every NormalNode :=
    every_letIn.2 ⟨⟨trivial, rfl⟩, normal_atom rfl, every_letIn.2 ⟨⟨trivial, rfl⟩,
      every_lambda.2 ⟨⟨trivial, trivial⟩, hcall "x" [] (by simp)⟩,
      every_letIn.2 ⟨⟨trivial, rfl⟩, hcall "f" [var "y"] (by simp [isAtomic]), normal_atom rfl⟩⟩⟩
  obtain ⟨hlive, -, -, hkeeps⟩ := dropDead_thorough e
  refine ⟨hdropped, hnormal, hkeeps hnormal, hlive "w" call (var "y") ?_⟩
  rw [hdropped, nodes_eq]
  exact List.mem_cons_self

end SchemeStack.Core
