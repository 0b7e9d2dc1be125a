/-
Induction along a lowering.

Lowering computes the core form of an expression from those of its parts, in a monad of faults, with a case for each
kind of expression and helpers for bindings, clauses and tests. What is true of the expression and its core form is
proved without looking at that computation: `LowersTo P` has one rule for each kind, with the core forms of the parts
at hand, and `exists_lower` gives a core form, and `P`, for every well-formed expression.

The rules say how lowering explains the derived expressions:
- a body by the sequence of its expressions;
- a recursive binding form by the assignments of its values and then its body, in a scope where the names are false;
- a loop by the assignment of its procedure and then a call;
- a conditional with a first clause, a conjunction and a disjunction with a first test, by what is left without it.
-/
import Mathlib.Data.List.Forall2
import SchemeStack.Core.Lowering
import SchemeStack.Proofs.ExprInduction

namespace SchemeStack

theorem ok_bind {ε α β : Type} (a : α) (f : α → Except ε β) : (Except.ok a >>= f) = f a := rfl

theorem except_bind_eq_ok {ε α β : Type} {x : Except ε α} {f : α → Except ε β} {b : β} :
    (x >>= f) = .ok b ↔ ∃ a, x = .ok a ∧ f a = .ok b := by
  cases x <;> simp [bind, Except.bind]

namespace Expr

def assignments (bindings : List (Binding Expr)) : List Expr := bindings.map fun b => .assign b.name b.value

/-- what a loop does in the scope of its name: the assignment of its procedure, then a call of it -/
def loopSteps (name : String) (bindings : List (Binding Expr)) (body : List Expr) : List Expr :=
  [.assign name (.lambda (bindings.map (·.name)) none body), .call (.var name) (bindings.map (·.value))]

/-- `P` is true of an expression and its core form whenever it is true of the parts -/
structure LowersTo (P : Expr → Core → Prop) : Prop where
  literal : ∀ d v, Value.ofDatum? d = .ok v → P (.literal d) (.val v)
  var : ∀ name, P (.var name) (.var name)
  quotation : ∀ d v, Value.ofDatum? d = .ok v → P (.quotation d) (.quote v)
  call : ∀ f f' es es', P f f' → List.Forall₂ P es es' → P (.call f es) (.app f' es')
  lambda : ∀ params rest body b, (sequence body).WellFormed → (sequence body).lower = .ok b →
    P (.lambda params rest body) (.lambda params rest b)
  branchNone : ∀ t t' c c', P t t' → P c c' → P (.branch t c none) (.branch t' c' none)
  branchSome : ∀ t t' c c' a a', P t t' → P c c' → P a a' → P (.branch t c (some a)) (.branch t' c' (some a'))
  assign : ∀ name e e', P e e' → P (.assign name e) (.assign name e')
  letIn : ∀ bindings vs body b, List.Forall₂ P (bindings.map (·.value)) vs → P (.sequence body) b →
    P (.letIn bindings body) (.app (.lambda (bindings.map (·.name)) none b) vs)
  letRec : ∀ bindings body e, body ≠ [] → P (.sequence (assignments bindings ++ body)) e →
    P (.letRec bindings body) (Core.bindFalse (bindings.map (·.name)) e)
  namedLet : ∀ name bindings body e, P (.sequence (loopSteps name bindings body)) e →
    P (.namedLet name bindings body) (Core.bindFalse [name] e)
  sequence : ∀ body es b, List.Forall₂ P body es → Core.inSequence es = .ok b → P (.sequence body) b
  condNone : P (.cond [] none) Core.falsity
  condEmpty : P (.cond [] (some [])) Core.falsity
  condElse : ∀ body b, body ≠ [] → P (.sequence body) b → P (.cond [] (some body)) b
  condClause : ∀ t t' body b clauses otherwise r, P t t' → P (.sequence body) b → P (.cond clauses otherwise) r →
    P (.cond (⟨t, body⟩ :: clauses) otherwise) (.branch t' b (some r))
  conjNil : P (.conj []) Core.falsity
  conjLast : ∀ e e', P e e' → P (.conj [e]) (.branch e' Core.truth (some Core.falsity))
  conjCons : ∀ e e' es r, es ≠ [] → P e e' → P (.conj es) r → P (.conj (e :: es)) (.branch e' r (some Core.falsity))
  disjNil : P (.disj []) Core.falsity
  disjCons : ∀ e e' es r, P e e' → P (.disj es) r → P (.disj (e :: es)) (.branch e' Core.truth (some r))
  template : ∀ depth e e', P e e' → P (.template depth e) e'

/-! ## Lists -/

theorem lowerValues_eq (bindings : List (Binding Expr)) : lowerValues bindings = lowerAll (bindings.map (·.value)) := by
  induction bindings with
  | nil => rfl
  | cons b bindings ih => rw [lowerValues, ih, List.map_cons, lowerAll]

theorem lowerAssigns_eq (bindings : List (Binding Expr)) : lowerAssigns bindings = lowerAll (assignments bindings) := by
  induction bindings with
  | nil => rfl
  | cons b bindings ih =>
    have hmap : assignments (b :: bindings) = .assign b.name b.value :: assignments bindings := rfl
    rw [lowerAssigns, ih, hmap, lowerAll, lower, bind_assoc]
    rfl

theorem lowerAll_cons_eq_ok {e : Expr} {es : List Expr} {cs : List Core} (h : lowerAll (e :: es) = .ok cs) :
    ∃ c cs', e.lower = .ok c ∧ lowerAll es = .ok cs' ∧ cs = c :: cs' := by
  rw [lowerAll] at h
  cases hc : e.lower with
  | error error => rw [hc] at h; cases h
  | ok c =>
    cases hcs : lowerAll es with
    | error error => rw [hc, hcs] at h; cases h
    | ok cs' =>
      rw [hc, hcs] at h
      cases h
      exact ⟨c, cs', rfl, rfl, rfl⟩

theorem lower_sequence_eq_ok {body : List Expr} {b : Core} (h : (sequence body).lower = .ok b) :
    ∃ es, lowerAll body = .ok es ∧ Core.inSequence es = .ok b := by
  rw [lower] at h
  cases hes : lowerAll body with
  | error error => rw [hes] at h; cases h
  | ok es =>
    rw [hes] at h
    exact ⟨es, rfl, h⟩

variable {P : Expr → Core → Prop}

theorem exists_lowerAll {es : List Expr} (h : ∀ e ∈ es, ∃ c, e.lower = .ok c ∧ P e c) :
    ∃ cs, lowerAll es = .ok cs ∧ List.Forall₂ P es cs := by
  induction es with
  | nil => exact ⟨[], rfl, .nil⟩
  | cons e es ih =>
    obtain ⟨c, hc, hP⟩ := h e List.mem_cons_self
    obtain ⟨cs, hcs, hPs⟩ := ih fun e' he' => h e' (List.mem_cons_of_mem e he')
    refine ⟨c :: cs, ?_, .cons hP hPs⟩
    rw [lowerAll, hc, hcs]
    rfl

theorem exists_inSequence {es : List Core} (h : es ≠ []) : ∃ e, Core.inSequence es = .ok e := by
  match es, h with
  | [e], _ => exact ⟨e, rfl⟩
  | _ :: _ :: _, _ => exact ⟨_, rfl⟩

/-- a body that is not empty has a core form if its expressions have -/
theorem exists_lower_sequence (hP : LowersTo P) {body : List Expr} (hne : body ≠ [])
    (h : ∀ e ∈ body, ∃ c, e.lower = .ok c ∧ P e c) : ∃ b, (sequence body).lower = .ok b ∧ P (.sequence body) b := by
  obtain ⟨cs, hcs, hPs⟩ := exists_lowerAll h
  have hne' : cs ≠ [] := by
    rintro rfl
    exact hne (List.forall₂_nil_right_iff.1 hPs)
  obtain ⟨b, hb⟩ := exists_inSequence hne'
  exact ⟨b, by simp [lower, hcs, hb, ok_bind], hP.sequence _ _ _ hPs hb⟩

/-! ## Clauses and tests -/

/-- conditionals, from the last clause outwards -/
theorem exists_lowerClauses (hP : LowersTo P) {otherwise : Option (List Expr)} {o : Core}
    (ho : P (.cond [] otherwise) o)
    {clauses : List (Clause Expr)} (h : ∀ c ∈ clauses, (∃ t, c.test.lower = .ok t ∧ P c.test t) ∧
      ∃ b, (sequence c.body).lower = .ok b ∧ P (.sequence c.body) b) :
    ∃ r, lowerClauses o clauses = .ok r ∧ P (.cond clauses otherwise) r := by
  induction clauses with
  | nil => exact ⟨o, rfl, ho⟩
  | cons c clauses ih =>
    obtain ⟨⟨t, ht, hPt⟩, b, hb, hPb⟩ := h c List.mem_cons_self
    obtain ⟨r, hr, hPr⟩ := ih fun c' hc' => h c' (List.mem_cons_of_mem c hc')
    obtain ⟨es, hes, hseq⟩ := lower_sequence_eq_ok hb
    exact ⟨.branch t b (some r), by simp [lowerClauses, hr, ht, hes, hseq, ok_bind],
      hP.condClause _ _ _ _ _ _ _ hPt hPb hPr⟩

theorem exists_lowerConj (hP : LowersTo P) {e : Expr} {es : List Expr}
    (h : ∀ e' ∈ e :: es, ∃ c, e'.lower = .ok c ∧ P e' c) :
    ∃ r, lowerConj (e :: es) = .ok r ∧ P (.conj (e :: es)) r := by
  induction es generalizing e with
  | nil =>
    obtain ⟨c, hc, hPc⟩ := h e List.mem_cons_self
    exact ⟨_, by simp [lowerConj, hc, ok_bind], hP.conjLast e c hPc⟩
  | cons e' es ih =>
    obtain ⟨c, hc, hPc⟩ := h e List.mem_cons_self
    obtain ⟨r, hr, hPr⟩ := ih fun p hp => h p (List.mem_cons_of_mem e hp)
    exact ⟨.branch c r (some Core.falsity), by rw [lowerConj, hr, hc]; rfl, hP.conjCons _ _ _ _ (by simp) hPc hPr⟩

theorem exists_lowerDisj (hP : LowersTo P) {es : List Expr} (h : ∀ e ∈ es, ∃ c, e.lower = .ok c ∧ P e c) :
    ∃ r, lowerDisj es = .ok r ∧ P (.disj es) r := by
  induction es with
  | nil => exact ⟨_, rfl, hP.disjNil⟩
  | cons e es ih =>
    obtain ⟨c, hc, hPc⟩ := h e List.mem_cons_self
    obtain ⟨r, hr, hPr⟩ := ih fun p hp => h p (List.mem_cons_of_mem e hp)
    exact ⟨.branch c Core.truth (some r), by rw [lowerDisj, hr, hc]; rfl, hP.disjCons _ _ _ _ hPc hPr⟩

/-! ## Expressions -/

theorem exists_ofDatum? {d : Datum} (h : d.isPair = false) : ∃ v, Value.ofDatum? d = .ok v := by
  cases d with
  | pair head tail m => cases h
  | _ => exact ⟨_, rfl⟩

/-- **Every well-formed expression has a core form,** and what is true of core forms by their rules is true of it -/
theorem exists_lower (hP : LowersTo P) {e : Expr} (he : e.WellFormed) : ∃ c, e.lower = .ok c ∧ P e c := by
  induction e using Expr.induct with
  | step e ih =>
    have hparts : ∀ p ∈ e.parts, ∃ c, p.lower = .ok c ∧ P p c := fun p hp => ih p hp (he.part hp)
    have hbody : ∀ body : List Expr, body ≠ [] → (∀ p ∈ body, p ∈ e.parts) →
        ∃ b, (Expr.sequence body).lower = .ok b ∧ P (.sequence body) b :=
      fun body hne hsub => exists_lower_sequence hP hne fun p hp => hparts p (hsub p hp)
    have hformed : e.isFormed = true := he.root
    cases e with
    | literal d =>
      obtain ⟨v, hv⟩ := exists_ofDatum? (d := d) (by simpa [isFormed] using hformed)
      exact ⟨.val v, by simp [lower, hv, Except.map, Except.mapError], hP.literal d v hv⟩
    | var name => exact ⟨_, rfl, hP.var name⟩
    | quotation d =>
      have hpair : d.isPair = false := by simpa [isFormed] using hformed
      obtain ⟨v, hv⟩ := exists_ofDatum? hpair
      refine ⟨.quote v, ?_, hP.quotation d v hv⟩
      cases d with
      | pair head tail m => cases hpair
      | _ =>
        cases hv
        rfl
    | call operator operands =>
      obtain ⟨f, hf, hPf⟩ := hparts operator List.mem_cons_self
      obtain ⟨es, hes, hPes⟩ := exists_lowerAll fun p hp => hparts p (List.mem_cons_of_mem _ hp)
      exact ⟨.app f es, by simp [lower, hf, hes, ok_bind], hP.call _ _ _ _ hPf hPes⟩
    | lambda params rest body =>
      have hne : body ≠ [] := by simpa [isFormed] using hformed
      have hwf : (Expr.sequence body).WellFormed := .node (by simpa [isFormed] using hne) fun p hp => he.part hp
      obtain ⟨b, hb, -⟩ := hbody body hne fun p hp => hp
      obtain ⟨es, hes, hseq⟩ := lower_sequence_eq_ok hb
      exact ⟨.lambda params rest b, by simp [lower, hes, hseq, ok_bind], hP.lambda _ _ _ _ hwf hb⟩
    | branch test consequent alternative =>
      obtain ⟨t, ht, hPt⟩ := hparts test List.mem_cons_self
      obtain ⟨c, hc, hPc⟩ := hparts consequent (List.mem_cons_of_mem _ List.mem_cons_self)
      cases alternative with
      | none => exact ⟨.branch t c none, by simp [lower, ht, hc, ok_bind], hP.branchNone _ _ _ _ hPt hPc⟩
      | some alternative =>
        obtain ⟨a, ha, hPa⟩ := hparts alternative (by simp [parts])
        exact ⟨.branch t c (some a), by simp [lower, ht, hc, ha, ok_bind], hP.branchSome _ _ _ _ _ _ hPt hPc hPa⟩
    | assign name value =>
      obtain ⟨v, hv, hPv⟩ := hparts value List.mem_cons_self
      exact ⟨.assign name v, by simp [lower, hv], hP.assign _ _ _ hPv⟩
    | letIn bindings body =>
      obtain ⟨vs, hvs, hPvs⟩ := exists_lowerAll fun p hp => hparts p (List.mem_append_left body hp)
      obtain ⟨b, hb, hPb⟩ := hbody body (by simpa [isFormed] using hformed) fun p hp => List.mem_append_right _ hp
      obtain ⟨es, hes, hseq⟩ := lower_sequence_eq_ok hb
      exact ⟨.app (.lambda (bindings.map (·.name)) none b) vs, by simp [lower, lowerValues_eq, hvs, hes, hseq, ok_bind],
        hP.letIn _ _ _ _ hPvs hPb⟩
    | letRec bindings body =>
      have hassigns : ∀ p ∈ assignments bindings, ∃ c, p.lower = .ok c ∧ P p c := by
        intro p hp
        obtain ⟨b, hb, rfl⟩ := List.mem_map.1 hp
        obtain ⟨v, hv, hPv⟩ := hparts b.value (List.mem_append_left body (List.mem_map_of_mem hb))
        exact ⟨.assign b.name v, by simp [lower, hv], hP.assign _ _ _ hPv⟩
      have hne : body ≠ [] := by simpa [isFormed] using hformed
      obtain ⟨ss, hss, hPss⟩ := exists_lowerAll hassigns
      obtain ⟨es, hes, hPes⟩ := exists_lowerAll fun p hp => hparts p (List.mem_append_right _ hp)
      have hes' : es ≠ [] := by
        rintro rfl
        exact hne (List.forall₂_nil_right_iff.1 hPes)
      obtain ⟨b, hseq⟩ := exists_inSequence (List.append_ne_nil_of_right_ne_nil ss hes')
      exact ⟨Core.bindFalse (bindings.map (·.name)) b, by simp [lower, lowerAssigns_eq, hss, hes, hseq, ok_bind],
        hP.letRec _ _ _ hne (hP.sequence _ _ _ (List.rel_append hPss hPes) hseq)⟩
    | namedLet name bindings body =>
      have hne : body ≠ [] := by simpa [isFormed] using hformed
      have hwf : (Expr.sequence body).WellFormed :=
        .node (by simpa [isFormed] using hne) fun p hp => he.part (List.mem_append_right _ hp)
      obtain ⟨vs, hvs, hPvs⟩ := exists_lowerAll fun p hp => hparts p (List.mem_append_left body hp)
      obtain ⟨b, hb, -⟩ := hbody body hne fun p hp => List.mem_append_right _ hp
      have hsteps : List.Forall₂ P (loopSteps name bindings body)
          [.assign name (.lambda (bindings.map (·.name)) none b), .app (.var name) vs] :=
        .cons (hP.assign _ _ _ (hP.lambda _ _ _ _ hwf hb)) (.cons (hP.call _ _ _ _ (hP.var name) hPvs) .nil)
      refine ⟨_, ?_, hP.namedLet _ _ _ _ (hP.sequence _ _ _ hsteps rfl)⟩
      cases body with
      | nil => exact absurd rfl hne
      | cons first others =>
        obtain ⟨es, hes, hseq⟩ := lower_sequence_eq_ok hb
        obtain ⟨e, es', he, hes', rfl⟩ := lowerAll_cons_eq_ok hes
        simp only [lower, lowerValues_eq, he, hes', hseq, hvs, ok_bind]
        rfl
    | sequence body => exact hbody body (by simpa [isFormed] using hformed) fun p hp => hp
    | cond clauses otherwise =>
      have hclauses : ∀ c ∈ clauses, (∃ t, c.test.lower = .ok t ∧ P c.test t) ∧
          ∃ b, (Expr.sequence c.body).lower = .ok b ∧ P (.sequence c.body) b := by
        intro c hc
        have hsub : ∀ p ∈ c.test :: c.body, p ∈ (cond clauses otherwise).parts := fun p hp =>
          List.mem_append_left _ (List.mem_flatMap.2 ⟨c, hc, hp⟩)
        have hne : c.body ≠ [] := by simpa using List.all_eq_true.1 hformed c hc
        exact ⟨hparts _ (hsub _ List.mem_cons_self), hbody c.body hne fun p hp => hsub p (List.mem_cons_of_mem _ hp)⟩
      cases otherwise with
      | none => exact exists_lowerClauses hP hP.condNone hclauses
      | some body =>
        cases body with
        | nil => exact exists_lowerClauses hP hP.condEmpty hclauses
        | cons first others =>
          obtain ⟨b, hb, hPb⟩ := hbody (first :: others) (by simp) fun p hp => List.mem_append_right _ hp
          obtain ⟨r, hr, hPr⟩ := exists_lowerClauses hP (hP.condElse _ _ (by simp) hPb) hclauses
          obtain ⟨es, hes, hseq⟩ := lower_sequence_eq_ok hb
          obtain ⟨e, es', he, hes', rfl⟩ := lowerAll_cons_eq_ok hes
          exact ⟨r, by simp [lower, he, hes', hseq, hr, ok_bind], hPr⟩
    | conj body =>
      cases body with
      | nil => exact ⟨_, rfl, hP.conjNil⟩
      | cons e es => exact exists_lowerConj hP hparts
    | disj body => exact exists_lowerDisj hP hparts
    | template depth body =>
      obtain ⟨c, hc, hPc⟩ := hparts body List.mem_cons_self
      exact ⟨c, hc, hP.template _ _ _ hPc⟩

theorem WellFormed.exists_lower {e : Expr} (he : e.WellFormed) : ∃ c, e.lower = .ok c := by
  have hP : LowersTo fun _ _ => True := by constructor <;> intros <;> trivial
  obtain ⟨c, hc, -⟩ := Expr.exists_lower hP he
  exact ⟨c, hc⟩

end Expr

end SchemeStack
