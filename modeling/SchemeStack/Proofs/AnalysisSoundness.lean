/-
Analysis is sound.

`Expr.ofDatum_settles`: for every datum, whether its lists are proper or not, analysis ends in one of two ways:
- it reports a fault of one of the four kinds that belong to analysis;
- it yields an expression in which no body is empty, no quotation holds a pair and no literal a list
  (`Expr.Analyzed`). Such an expression is well-formed, so it has a core form.

`Analysis.Yields P` says that of one computation, with `P` for its result; it goes through sequencing (`Yields.bind`),
so the proof for a form reads as the analysis of it does. `Meets d` collects what is to be shown of a datum in each of
its roles: as a form, as the rest of a body, of bindings, of clauses, as a template and as a quotation. `meets` proves
it by induction on the size of the datum, with one lemma for each special form.

That a body is not empty rests on two checks: the form is a proper list, so its body ends at the empty list, and it is
not that list itself (`checkBody_yields`).
-/
import SchemeStack.Proofs.AnalysisClauses
import SchemeStack.Proofs.LoweringInduction

namespace SchemeStack

/-- the kinds of fault that analysis reports -/
def DiagnosticKind.isAnalysis : DiagnosticKind → Bool
  | .wrongKind => true
  | .arity => true
  | .emptySequence => true
  | .malformed => true
  | _ => false

/-! ## What analysis yields -/

namespace Expr

/-- the expression itself is formed, and if it is a literal, not of a list -/
def isAnalyzed : Expr → Bool
  | literal d => !d.isList
  | e => e.isFormed

/-- no body in the expression is empty, no quotation holds a pair, and no literal a list -/
def Analyzed (e : Expr) : Prop := e.Every fun n => n.isAnalyzed = true

theorem Analyzed.wellFormed {e : Expr} (h : e.Analyzed) : e.WellFormed := by
  refine Every.imp (fun n hn => ?_) h
  cases n with
  | literal d => cases d <;> first | rfl | cases hn
  | _ => exact hn

theorem analyzed_var (name : String) : (var name).Analyzed := .node rfl (by simp [parts])

theorem analyzed_call {operator : Expr} {operands : List Expr} (hoperator : operator.Analyzed)
    (hoperands : ∀ e ∈ operands, e.Analyzed) : (call operator operands).Analyzed :=
  .node rfl (List.forall_mem_cons.2 ⟨hoperator, hoperands⟩)

theorem analyzed_consCall {head tail : Expr} (hhead : head.Analyzed) (htail : tail.Analyzed) :
    (consCall head tail).Analyzed :=
  analyzed_call (analyzed_var _) (by simp [hhead, htail])

theorem analyzed_appendCall {front back : Expr} (hfront : front.Analyzed) (hback : back.Analyzed) :
    (appendCall front back).Analyzed :=
  analyzed_call (analyzed_var _) (by simp [hfront, hback])

theorem analyzed_quotation {d : Datum} (h : d.isPair = false) : (quotation d).Analyzed :=
  .node (by simp [isAnalyzed, isFormed, h]) (by simp [parts])

end Expr

/-- a part of a template is analyzed if its expression is, and so is the list that it stands in front of -/
theorem Part.analyzed_onto {p : Part} {rest : Expr} (hp : p.expr.Analyzed) (hrest : rest.Analyzed) :
    (p.onto rest).Analyzed := by
  cases p with
  | element e => exact Expr.analyzed_consCall hp hrest
  | splice e => exact Expr.analyzed_appendCall hp hrest

/-! ## Outcomes -/

/-- a result with the property, or a fault that analysis reports -/
inductive Settles {β : Type} (P : β → Prop) : Except Diagnostic β → Prop
  | ok {b : β} : P b → Settles P (.ok b)
  | rejected {fault : Diagnostic} : fault.kind.isAnalysis = true → Settles P (.error fault)

theorem settles_iff {β : Type} {P : β → Prop} {x : Except Diagnostic β} :
    Settles P x ↔ (∃ b, x = .ok b ∧ P b) ∨ ∃ fault, x = .error fault ∧ fault.kind.isAnalysis = true := by
  constructor
  · intro h
    cases h with
    | ok hb => exact Or.inl ⟨_, rfl, hb⟩
    | rejected hfault => exact Or.inr ⟨_, rfl, hfault⟩
  · rintro (⟨b, rfl, hb⟩ | ⟨fault, rfl, hfault⟩)
    · exact .ok hb
    · exact .rejected hfault

theorem Settles.bind {β γ : Type} {P : β → Prop} {Q : γ → Prop} {x : Except Diagnostic β} {f : β → Except Diagnostic γ}
    (hx : Settles P x) (hf : ∀ b, P b → Settles Q (f b)) : Settles Q (x >>= f) := by
  cases hx with
  | ok hb => exact hf _ hb
  | rejected hfault => exact .rejected hfault

theorem Settles.imp {β : Type} {P Q : β → Prop} {x : Except Diagnostic β} (h : Settles P x) (hPQ : ∀ b, P b → Q b) :
    Settles Q x := by
  cases h with
  | ok hb => exact .ok (hPQ _ hb)
  | rejected hfault => exact .rejected hfault

namespace Analysis

variable {β γ : Type} {P : β → Prop} {Q : γ → Prop}

/-- the analysis ends with a result that has the property, or rejects its form -/
def Yields (P : β → Prop) (x : Analysis β) : Prop := Settles P x.outcome

theorem Yields.pure {b : β} (h : P b) : Yields P (pure b) := .ok h

theorem Yields.reject {cause : Cause} {form : Datum} (h : cause.kind.isAnalysis = true) :
    Yields P (reject cause form) :=
  .rejected h

theorem Yields.bind {x : Analysis β} {f : β → Analysis γ} (hx : Yields P x) (hf : ∀ b, P b → Yields Q (f b)) :
    Yields Q (x >>= f) := by
  unfold Yields
  rw [Traced.outcome_bind]
  exact Settles.bind hx hf

theorem Yields.map {x : Analysis β} {f : β → γ} (hx : Yields P x) (hf : ∀ b, P b → Q (f b)) : Yields Q (f <$> x) := by
  unfold Yields at hx ⊢
  rw [Traced.outcome_map]
  generalize x.outcome = outcome at hx
  cases hx with
  | ok hb => exact .ok (hf _ hb)
  | rejected hfault => exact .rejected hfault

theorem note_yields (d : Datum) : Yields (fun _ => True) (.note d) := .ok trivial

theorem checkProper_yields (form : Datum) : Yields (fun _ => form.isProper = true) (checkProper form) := by
  unfold checkProper
  split
  · exact .pure ‹_›
  · exact .reject rfl

theorem identifier_yields (d : Datum) : Yields (fun _ => True) (identifier d) := by
  cases d with
  | sym name m => exact .pure trivial
  | _ => exact .reject rfl

theorem miscounted_yields (form args : Datum) (least most : Nat) : Yields P (miscounted form args least most) := by
  unfold miscounted
  dsimp only
  split
  · exact .reject rfl
  · exact .reject rfl

theorem paramNames_yields (ps : Datum) (rest : Option String) (ds : List Datum) :
    Yields (fun _ => True) (paramNames ps rest ds) := by
  fun_induction paramNames ps rest ds with
  | case1 => exact .pure trivial
  | case2 => exact .reject rfl
  | case3 => exact .bind (identifier_yields _) fun _ _ => .pure trivial
  | case4 => exact .bind (identifier_yields _) fun _ _ => .reject rfl
  | case5 d ds _ _ _ ih => exact .bind (identifier_yields d) fun _ _ => .bind ih fun _ _ => .pure trivial

theorem params_yields (d : Datum) : Yields (fun _ => True) (params d) := by
  cases d with
  | nil => exact .pure trivial
  | sym name m => exact .pure trivial
  | pair head tail m =>
    unfold params
    dsimp only
    split
    · have hnone : Yields (fun _ => True) (pure none : Analysis (Option String)) := .pure trivial
      exact .bind hnone fun _ _ => paramNames_yields _ _ _
    · rename_i last _
      have hsome : Yields (fun _ => True) (some <$> identifier last) := .map (identifier_yields last) fun _ _ => trivial
      exact .bind hsome fun _ _ => paramNames_yields _ _ _
  | _ => exact .reject rfl

theorem checkBindings_yields (d : Datum) : Yields (fun _ => True) (checkBindings d) := by
  rw [checkBindings_eq]
  split
  · exact Settles.imp (checkProper_yields d) fun _ _ => trivial
  · exact .reject rfl

/-- a body that goes on to the end of a proper list is a pair if it is not empty -/
theorem checkBody_yields (form : Datum) {body : Datum} (hproper : body.isProper = true) :
    Yields (fun _ => body.isPair = true) (checkBody form body.elements) := by
  cases body with
  | nil => exact .reject rfl
  | pair head tail m => exact .pure rfl
  | _ => cases hproper

/-! ## Forms -/

/-- what may stand as a body -/
def AnalyzedBody (es : List Expr) : Prop := es ≠ [] ∧ ∀ e ∈ es, e.Analyzed

/-- what the analyses of a datum yield, in each of its roles -/
structure Meets (d : Datum) : Prop where
  expr : Yields Expr.Analyzed (expr d)
  all : Yields (fun es => (∀ e ∈ es, e.Analyzed) ∧ (d.isPair = true → es ≠ [])) (all d)
  bindings : Yields (fun bs => ∀ b ∈ bs, b.value.Analyzed) (bindings d)
  clauses : Yields (fun r => (∀ c ∈ r.1, c.test.Analyzed ∧ AnalyzedBody c.body) ∧ ∀ e ∈ r.2.getD [], e.Analyzed)
    (clauses d)
  template : ∀ depth inList, Yields (fun p => p.expr.Analyzed) (template d depth inList)
  templateRest : ∀ depth, Yields Expr.Analyzed (templateRest d depth)
  quote : Settles Expr.Analyzed d.quote
  quoteRest : Settles Expr.Analyzed d.quoteRest

variable {k m : Source.Mark} {args : Datum}

/-- a body is checked and then analyzed -/
theorem body_yields (form : Datum) {body : Datum} {f : List Expr → Analysis γ} (hproper : body.isProper = true)
    (hbody : Meets body) (hf : ∀ es, AnalyzedBody es → Yields Q (f es)) :
    Yields Q (checkBody form body.elements >>= fun _ => all body >>= f) := by
  refine .bind (checkBody_yields form hproper) fun _ hpair => ?_
  refine .bind hbody.all fun es hes => ?_
  exact hf es ⟨hes.2 hpair, hes.1⟩

theorem analyzed_lambda {params : List String} {rest : Option String} {body : List Expr} (h : AnalyzedBody body) :
    (Expr.lambda params rest body).Analyzed :=
  .node (by simpa [Expr.isAnalyzed, Expr.isFormed] using h.1) h.2

theorem analyzed_assign {name : String} {value : Expr} (h : value.Analyzed) : (Expr.assign name value).Analyzed :=
  .node rfl (List.forall_mem_singleton.2 h)

theorem analyzed_branch {test consequent : Expr} {alternative : Option Expr} (ht : test.Analyzed)
    (hc : consequent.Analyzed)
    (ha : ∀ a ∈ alternative, a.Analyzed) : (Expr.branch test consequent alternative).Analyzed :=
  .node rfl (List.forall_mem_cons.2 ⟨ht, List.forall_mem_cons.2 ⟨hc, fun a h => ha a (Option.mem_toList.1 h)⟩⟩)

/-- a form that binds names: its bindings and its body are its parts -/
theorem analyzed_binder {e : Expr} {bindings : List (Binding Expr)} {body : List Expr}
    (hbindings : ∀ b ∈ bindings, b.value.Analyzed) (hbody : AnalyzedBody body)
    (he : e = .letIn bindings body ∨ e = .letRec bindings body ∨ ∃ name, e = .namedLet name bindings body) :
    e.Analyzed := by
  have hparts : ∀ p ∈ bindings.map (·.value) ++ body, p.Analyzed :=
    List.forall_mem_append.2 ⟨List.forall_mem_map.2 hbindings, hbody.2⟩
  have hformed : (!body.isEmpty) = true := by simpa using hbody.1
  rcases he with rfl | rfl | ⟨name, rfl⟩ <;> exact .node hformed hparts

theorem analyzed_nestLets {body : List Expr} (hbody : AnalyzedBody body) (bindings : List (Binding Expr))
    (hbindings : ∀ b ∈ bindings, b.value.Analyzed) : (nestLets body bindings).Analyzed := by
  fun_induction nestLets body bindings with
  | case1 => exact analyzed_binder hbindings hbody (Or.inl rfl)
  | case2 b => exact analyzed_binder hbindings hbody (Or.inl rfl)
  | case3 b bs _ ih =>
    obtain ⟨hb, hbs⟩ := List.forall_mem_cons.1 hbindings
    exact analyzed_binder (List.forall_mem_singleton.2 hb) ⟨by simp, List.forall_mem_singleton.2 (ih hbs)⟩ (Or.inl rfl)

theorem analyzed_letForm (word : Keyword) {bindings : List (Binding Expr)} {body : List Expr}
    (hbindings : ∀ b ∈ bindings, b.value.Analyzed) (hbody : AnalyzedBody body) :
    (letForm word bindings body).Analyzed := by
  unfold letForm
  split
  · exact analyzed_nestLets hbody bindings hbindings
  · exact analyzed_binder hbindings hbody (Or.inr (Or.inl rfl))
  · exact analyzed_binder hbindings hbody (Or.inl rfl)

theorem lambda_yields (ih : args.Below Meets) : Yields Expr.Analyzed (expr (.pair (.kw .lambda k) args m)) := by
  rw [expr_special]
  refine .bind (checkProper_yields _) fun _ hproper => ?_
  dsimp only [special]
  split
  · refine .bind (params_yields _) fun _ _ => ?_
    exact body_yields _ hproper ih.tail fun es hes => .pure (analyzed_lambda hes)
  · exact .reject rfl

theorem bindingForm_yields (form bs : Datum) {body : Datum} {make : List (Binding Expr) → List Expr → Expr}
    (hbs : Meets bs) (hproper : body.isProper = true) (hbody : Meets body)
    (hmake : ∀ bs es, (∀ b ∈ bs, b.value.Analyzed) → AnalyzedBody es → (make bs es).Analyzed) :
    Yields Expr.Analyzed (checkBindings bs >>= fun _ => bindings bs >>= fun bs =>
      checkBody form body.elements >>= fun _ => all body >>= fun es => pure (make bs es)) := by
  refine .bind (checkBindings_yields bs) fun _ _ => ?_
  refine .bind hbs.bindings fun bs' hbs' => ?_
  exact body_yields form hproper hbody fun es hes => .pure (hmake bs' es hbs' hes)

theorem let_yields {word : Keyword} (hword : word = .letWord ∨ word = .letStar ∨ word = .letrec)
    (ih : args.Below Meets) :
    Yields Expr.Analyzed (expr (.pair (.kw word k) args m)) := by
  rcases hword with rfl | rfl | rfl
  all_goals
    rw [expr_special]
    refine .bind (checkProper_yields _) fun _ hproper => ?_
    dsimp only [special]
    split
    · exact bindingForm_yields _ _ ih.inTail.head hproper ih.inTail.tail fun bs es hbs hes =>
        analyzed_binder hbs hes (Or.inr (Or.inr ⟨_, rfl⟩))
    · exact .reject rfl
    · exact bindingForm_yields _ _ ih.head hproper ih.tail fun bs es hbs hes => analyzed_letForm _ hbs hes
    · exact .reject rfl

theorem if_yields (ih : args.Below Meets) : Yields Expr.Analyzed (expr (.pair (.kw .ifWord k) args m)) := by
  rw [expr_special]
  refine .bind (checkProper_yields _) fun _ _ => ?_
  dsimp only [special]
  split
  · refine .bind ih.head.expr fun t ht => .bind ih.inTail.head.expr fun c hc => .pure ?_
    exact analyzed_branch ht hc (by simp)
  · refine .bind ih.head.expr fun t ht => .bind ih.inTail.head.expr fun c hc => ?_
    refine .bind ih.inTail.inTail.head.expr fun a ha => .pure ?_
    exact analyzed_branch ht hc (by simpa using ha)
  · exact miscounted_yields _ _ _ _

theorem cond_yields (ih : Meets args) : Yields Expr.Analyzed (expr (.pair (.kw .cond k) args m)) := by
  rw [expr_special]
  refine .bind (checkProper_yields _) fun _ _ => .bind ih.clauses fun r hr => .pure ?_
  refine .node ?_ ?_
  · exact List.all_eq_true.2 fun c hc => by simpa using (hr.1 c hc).2.1
  · refine List.forall_mem_append.2 ⟨fun p hp => ?_, hr.2⟩
    obtain ⟨c, hc, hpc⟩ := List.mem_flatMap.1 hp
    obtain ⟨htest, -, hbody⟩ := hr.1 c hc
    exact List.forall_mem_cons.2 ⟨htest, hbody⟩ p hpc

theorem define_yields (ih : args.Below Meets) : Yields Expr.Analyzed (expr (.pair (.kw .define k) args m)) := by
  rw [expr_special]
  refine .bind (checkProper_yields _) fun _ hproper => ?_
  dsimp only [special]
  split
  · refine .bind (identifier_yields _) fun _ _ => .bind (params_yields _) fun _ _ => ?_
    exact body_yields _ hproper ih.tail fun es hes => .pure (analyzed_assign (analyzed_lambda hes))
  · exact .bind ih.inTail.head.expr fun e he => .pure (analyzed_assign he)
  · exact miscounted_yields _ _ _ _
  · exact .reject rfl
  · exact .reject rfl

theorem set_yields (ih : args.Below Meets) : Yields Expr.Analyzed (expr (.pair (.kw .set k) args m)) := by
  rw [expr_special]
  refine .bind (checkProper_yields _) fun _ _ => ?_
  dsimp only [special]
  split
  · exact .bind (identifier_yields _) fun _ _ => .bind ih.inTail.head.expr fun e he => .pure (analyzed_assign he)
  · exact miscounted_yields _ _ _ _

/-- the forms whose body is what follows the keyword -/
theorem sequence_yields (form : Datum) {make : List Expr → Expr} (hproper : args.isProper = true) (ih : Meets args)
    (hmake : ∀ es, AnalyzedBody es → (make es).Analyzed) :
    Yields Expr.Analyzed (checkBody form args.elements >>= fun _ => all args >>= fun es => pure (make es)) :=
  body_yields form hproper ih fun es hes => .pure (hmake es hes)

/-- a form that is analyzed as a keyword tells -/
theorem special_yields (word : Keyword) (hargs : Meets args) (ih : args.Below Meets) :
    Yields Expr.Analyzed (expr (.pair (.kw word k) args m)) := by
  have hproper := checkProper_yields (.pair (.kw word k) args m)
  cases word with
  | lambda => exact lambda_yields ih
  | letWord => exact let_yields (Or.inl rfl) ih
  | letStar => exact let_yields (Or.inr (Or.inl rfl)) ih
  | letrec => exact let_yields (Or.inr (Or.inr rfl)) ih
  | ifWord => exact if_yields ih
  | cond => exact cond_yields hargs
  | define => exact define_yields ih
  | set => exact set_yields ih
  | begin =>
    rw [expr_special]
    exact .bind hproper fun _ h => sequence_yields _ h hargs fun es hes =>
      .node (by simpa [Expr.isAnalyzed, Expr.isFormed] using hes.1) hes.2
  | and =>
    rw [expr_special]
    exact .bind hproper fun _ _ => .bind hargs.all fun es hes => .pure (.node rfl hes.1)
  | or =>
    rw [expr_special]
    exact .bind hproper fun _ _ => .bind hargs.all fun es hes => .pure (.node rfl hes.1)
  | delay =>
    rw [expr_special]
    exact .bind hproper fun _ h => sequence_yields _ h hargs fun es hes => analyzed_lambda hes
  | quote =>
    rw [expr_special]
    refine .bind hproper fun _ _ => ?_
    dsimp only [special]
    split
    · exact ih.head.quote
    · exact miscounted_yields _ _ _ _
  | quasiquote =>
    rw [expr_special]
    refine .bind hproper fun _ _ => ?_
    dsimp only [special]
    split
    · exact .bind (ih.head.template 1 false) fun p hp => .pure (.node rfl (List.forall_mem_singleton.2 hp))
    · exact miscounted_yields _ _ _ _
  | _ =>
    rw [expr_special]
    exact .bind hproper fun _ _ => .reject rfl

/-- a list whose head is not a keyword is a call -/
theorem call_yields {head : Datum} (hhead : Meets head) (hargs : Meets args) (hkw : ∀ word k, head ≠ .kw word k) :
    Yields Expr.Analyzed (expr (.pair head args m)) := by
  rw [expr_call args m hkw]
  refine .bind (checkProper_yields _) fun _ _ => .bind hhead.expr fun f hf => ?_
  split
  · split
    · exact .reject rfl
    · exact .bind hargs.all fun es hes => .pure (Expr.analyzed_call hf hes.1)
  · exact .reject rfl

theorem expr_yields {d : Datum} (ih : d.Below Meets) : Yields Expr.Analyzed (expr d) := by
  cases d with
  | sym name m => exact .pure (Expr.analyzed_var name)
  | nil => exact .reject rfl
  | pair head args m =>
    cases head with
    | kw word k => exact special_yields word ih.tail ih.inTail
    | _ => exact call_yields ih.head ih.tail (by simp)
  | _ => exact .pure (.node rfl (by simp [Expr.parts]))

/-! ## Chains -/

theorem all_yields {d : Datum} (ih : d.Below Meets) :
    Yields (fun es => (∀ e ∈ es, e.Analyzed) ∧ (d.isPair = true → es ≠ [])) (all d) := by
  cases d with
  | pair head tail m =>
    refine .bind ih.head.expr fun e he => .bind ih.tail.all fun es hes => .pure ?_
    exact ⟨List.forall_mem_cons.2 ⟨he, hes.1⟩, by simp⟩
  | _ => exact .pure ⟨by simp, fun h => by cases h⟩

theorem bindings_yields {d : Datum} (ih : d.Below Meets) :
    Yields (fun bs => ∀ b ∈ bs, b.value.Analyzed) (bindings d) := by
  rw [bindings_eq]
  split
  · refine .bind ih.inHead.inTail.head.expr fun e he => .bind ih.tail.bindings fun bs hbs => .pure ?_
    exact List.forall_mem_cons.2 ⟨he, hbs⟩
  · exact .bind (note_yields _) fun _ _ => ih.tail.bindings
  · exact .pure (by simp)

theorem clauses_yields {d : Datum} (ih : d.Below Meets) :
    Yields (fun r => (∀ c ∈ r.1, c.test.Analyzed ∧ AnalyzedBody c.body) ∧ ∀ e ∈ r.2.getD [], e.Analyzed)
      (clauses d) := by
  rw [clauses_eq]
  split
  · exact .bind (checkProper_yields _) fun _ _ => .bind ih.inHead.tail.all fun es hes => .pure ⟨by simp, hes.1⟩
  · refine .bind (checkProper_yields _) fun _ hproper => .bind ih.inHead.head.expr fun t ht => ?_
    refine body_yields _ hproper ih.inHead.tail fun es hes => .bind ih.tail.clauses fun r hr => .pure ?_
    exact ⟨List.forall_mem_cons.2 ⟨⟨ht, hes⟩, hr.1⟩, hr.2⟩
  · exact .pure (by simp)

/-! ## Quotations and templates -/

theorem isPair_eq_false {d : Datum} (h : ∀ head tail m, d = .pair head tail m → False) : d.isPair = false := by
  cases d with
  | pair head tail m => exact (h head tail m rfl).elim
  | _ => rfl

theorem dottedFault?_kind {form : Datum} {fault : Diagnostic} (h : form.dottedFault? = some fault) :
    fault.kind.isAnalysis = true := by
  rw [Datum.dottedFault?_eq] at h
  split at h
  · cases h
  · split at h <;> cases h
    rfl

theorem operandFault?_kind {form args : Datum} {word : Keyword} {fault : Diagnostic}
    (h : operandFault? form word args = some fault) : fault.kind.isAnalysis = true := by
  unfold operandFault? at h
  split at h
  · cases h
    rfl
  · split at h <;> cases h
    rfl

theorem quote_settles {d : Datum} (ih : d.Below Meets) : Settles Expr.Analyzed d.quote := by
  cases d with
  | pair head tail m =>
    rw [Datum.quote]
    split
    · rename_i hfault
      exact .rejected (dottedFault?_kind hfault)
    · refine Settles.bind ih.tail.quoteRest fun rest hrest => Settles.bind ih.head.quote fun first hfirst => ?_
      exact .ok (Expr.analyzed_consCall hfirst hrest)
  | _ => exact .ok (Expr.analyzed_quotation rfl)

theorem quoteRest_settles {d : Datum} (ih : d.Below Meets) : Settles Expr.Analyzed d.quoteRest := by
  rw [Datum.quoteRest.eq_def]
  split
  · exact ih.inTail.head.quote
  · refine Settles.bind ih.tail.quoteRest fun rest hrest => Settles.bind ih.head.quote fun first hfirst => ?_
    exact .ok (Expr.analyzed_consCall hfirst hrest)
  · rename_i hpair
    exact .ok (Expr.analyzed_quotation (isPair_eq_false hpair))

/-- a nested unquote or quasiquote stays as a list of its keyword and operand -/
theorem nested_yields {word : Keyword} {depth : Nat} (ih : Meets args) :
    Yields (fun p : Part => p.expr.Analyzed) (template args depth false >>= fun part =>
      pure (.element (.consCall (.quotation (.kw word k)) part.expr))) :=
  .bind (ih.template depth false) fun _ hp => .pure (Expr.analyzed_consCall (Expr.analyzed_quotation rfl) hp)

theorem template_yields {d : Datum} (ih : d.Below Meets) (depth : Nat) (inList : Bool) :
    Yields (fun p => p.expr.Analyzed) (template d depth inList) := by
  rw [template_eq]
  split
  · split
    · rename_i hfault
      exact .rejected (operandFault?_kind hfault)
    · rename_i hnone
      obtain ⟨x, m', rfl⟩ := single_of_operandFault? hnone
      split
      · exact .bind ih.inTail.head.expr fun e he => .pure he
      · exact nested_yields ih.tail
  · split
    · rename_i hfault
      exact .rejected (operandFault?_kind hfault)
    · rename_i hnone
      obtain ⟨x, m', rfl⟩ := single_of_operandFault? hnone
      split
      · split
        · exact .bind ih.inTail.head.expr fun e he => .pure he
        · exact .reject rfl
      · exact nested_yields ih.tail
  · split
    · rename_i hfault
      exact .rejected (operandFault?_kind hfault)
    · exact nested_yields ih.tail
  · split
    · rename_i hfault
      exact .rejected (dottedFault?_kind hfault)
    · refine .bind (ih.tail.templateRest depth) fun rest hrest =>
        .bind (ih.head.template depth true) fun p hp => .pure ?_
      exact Part.analyzed_onto hp hrest
  · rename_i hpair
    exact .pure (Expr.analyzed_quotation (isPair_eq_false hpair))

theorem templateRest_yields {d : Datum} (ih : d.Below Meets) (depth : Nat) :
    Yields Expr.Analyzed (templateRest d depth) := by
  rw [templateRest.eq_def]
  split
  · exact .bind (ih.inTail.head.template depth false) fun p hp => .pure hp
  · refine .bind (ih.tail.templateRest depth) fun rest hrest => .bind (ih.head.template depth true) fun p hp => .pure ?_
    exact Part.analyzed_onto hp hrest
  · rename_i hpair
    exact .pure (Expr.analyzed_quotation (isPair_eq_false hpair))

/-- every datum meets what its analyses should yield -/
theorem meets (d : Datum) : Meets d :=
  d.below_induct fun _ ih =>
    ⟨expr_yields ih, all_yields ih, bindings_yields ih, clauses_yields ih, template_yields ih, templateRest_yields ih,
      quote_settles ih, quoteRest_settles ih⟩

end Analysis

/-- **Analysis is sound:** an expression that it yields has no empty body, no quotation of a pair and no literal list,
and so it has a core form; a fault that it reports is one of analysis -/
theorem Expr.ofDatum_settles (d : Datum) : Settles (fun e => e.Analyzed ∧ ∃ c, e.lower = .ok c) (Expr.ofDatum d) :=
  Settles.imp (Analysis.meets d).expr fun _ he => ⟨he, he.wellFormed.exists_lower⟩

end SchemeStack
