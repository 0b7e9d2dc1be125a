/-
Which dots of a text become values.

The reader leaves a dot in a list as an element of it, for the analysis to explain. A parameter list and a quoted list
explain theirs. A call refuses one, and so does a list that starts with it. Every other form takes a dot for an
expression wherever it expects one, and as a keyword it is then a literal.

`Datum.exprForms` lists what a form expects to be expressions: the elements of a call or of a sequence, the values of
bindings, the clauses of a conditional, the operands of a template. `Datum.Expects` goes on from there to any depth.

`analyzeText_dots`, for a text that is read:
- if a list that stands where an expression is expected starts with a dot, or is a call with a dot among its operands,
  then the text is rejected, by a fault of analysis;
- if it is accepted, then the dots that stand where an expression is expected, and no other dots, become literals,
each at its place. So `(begin . x)` is accepted, with the dot as a value (`sequence_dot_accepted`).

The same is true of all constants: the literals of an expression are the constants that the form expects as
expressions (`Expr.ofDatum_literals`). `Analysis.Accounts` says that of some forms and their expressions, and that
whatever stands in the forms where an expression is expected is accepted too. It is proved by induction on the size of
a datum (`Analysis.accounted`), in each of its roles: as a form, as the rest of a body, of bindings, of clauses, as a
quotation and as a template.
-/
import SchemeStack.Proofs.PipelineFaults
import SchemeStack.Proofs.TemplateMeaning

namespace SchemeStack

open SchemeStack.Source

/-! ## Where expressions are expected -/

/-- the operands of the holes, from left to right -/
def Template.operands (t : Template) : List Datum := t.holes.map (·.operand)

theorem Template.operands_pair (t t' : Template) : (pair t t').operands = t.operands ++ t'.operands := List.map_append

namespace Datum

/-- an atom that is not a name -/
def isConstant : Datum → Bool
  | bool _ _ => true
  | int _ _ => true
  | str _ _ => true
  | kw _ _ => true
  | _ => false

/-- the values of the bindings along a chain; what is no binding has none -/
def boundValues : Datum → List Datum
  | pair (pair (sym _ _) (pair value nil _) _) rest _ => value :: rest.boundValues
  | pair _ rest _ => rest.boundValues
  | _ => []

/-- the values and the body of a form that binds names; a name of its own may come first -/
def bindingForms : Datum → List Datum
  | pair (sym _ _) (pair bindings body _) _ => bindings.boundValues ++ body.elements
  | pair bindings body _ => bindings.boundValues ++ body.elements
  | _ => []

/-- the tests and bodies of the clauses along a chain, up to the final one -/
def clauseForms : Datum → List Datum
  | pair (pair (kw .elseWord _) body _) _ _ => body.elements
  | pair (pair test body _) rest _ => test :: body.elements ++ rest.clauseForms
  | _ => []

/-- what a form expects to be expressions -/
def exprForms : Datum → List Datum
  | pair (kw word _) args _ =>
    match word with
    | .lambda | .define | .set => args.elements.tail
    | .letWord | .letStar | .letrec => args.bindingForms
    | .ifWord | .begin | .and | .or | .delay => args.elements
    | .cond => args.clauseForms
    | .quasiquote =>
      match args with
      | pair d nil _ => (d.template 1).operands
      | _ => []
    | _ => []
  | pair head args _ => head :: args.elements
  | _ => []

/-- the datum stands in the form where an expression is expected, as the form itself or at any depth -/
inductive Expects : Datum → Datum → Prop
  | root (d : Datum) : Expects d d
  | inside {d y x : Datum} : y ∈ d.exprForms → Expects y x → Expects d x

theorem expects_iff {d x : Datum} : d.Expects x ↔ x = d ∨ ∃ y ∈ d.exprForms, y.Expects x := by
  constructor
  · intro h
    cases h with
    | root => exact Or.inl rfl
    | inside hy hx => exact Or.inr ⟨_, hy, hx⟩
  · rintro (rfl | ⟨y, hy, hx⟩)
    · exact .root x
    · exact .inside hy hx

/-- an atom expects itself only -/
theorem expects_atom {d : Datum} (h : d.isPair = false) {x : Datum} : d.Expects x ↔ x = d := by
  have hforms : d.exprForms = [] := by
    cases d with
    | pair head tail m => cases h
    | _ => rfl
  rw [expects_iff, hforms]
  exact or_iff_left (by simp)

/-- a list that starts with a dot, or a call with a dot among its operands -/
def misplacesDot : Datum → Bool
  | pair (kw word _) _ _ => word == .dot
  | pair _ args _ => args.elements.any isDot
  | _ => false

end Datum

/-! ## Literals -/

namespace Expr

/-- a literal of the datum stands in the expression, at any depth -/
inductive HasLiteral : Expr → Datum → Prop
  | root (x : Datum) : HasLiteral (literal x) x
  | part {e p : Expr} {x : Datum} : p ∈ e.parts → HasLiteral p x → HasLiteral e x

def AnyLiteral (es : List Expr) (x : Datum) : Prop := ∃ e ∈ es, e.HasLiteral x

theorem anyLiteral_single {e : Expr} {x : Datum} : AnyLiteral [e] x ↔ e.HasLiteral x := by simp [AnyLiteral]

theorem anyLiteral_append {es es' : List Expr} {x : Datum} :
    AnyLiteral (es ++ es') x ↔ AnyLiteral es x ∨ AnyLiteral es' x := by
  simp only [AnyLiteral, List.mem_append, or_and_right, exists_or]

theorem hasLiteral_iff {e : Expr} {x : Datum} : e.HasLiteral x ↔ e = literal x ∨ AnyLiteral e.parts x := by
  constructor
  · intro h
    cases h with
    | root => exact Or.inl rfl
    | part hp hx => exact Or.inr ⟨_, hp, hx⟩
  · rintro (rfl | ⟨p, hp, hx⟩)
    · exact .root x
    · exact .part hp hx

/-- what is no literal itself has the literals of its parts -/
theorem hasLiteral_node {e : Expr} (h : ∀ d, e ≠ literal d) (x : Datum) : e.HasLiteral x ↔ AnyLiteral e.parts x := by
  rw [hasLiteral_iff]
  exact or_iff_right (h x)

end Expr

open SchemeStack.Expr (AnyLiteral)

theorem Settles.ensures {β : Type} {P : β → Prop} {x : Except Diagnostic β} (h : Settles P x) : Ensures P x := by
  rintro b rfl
  cases h with
  | ok hb => exact hb

namespace Analysis

/-- bindings inside each other have the literals of their values and of the body -/
theorem hasLiteral_nestLets (body : List Expr) (bindings : List (Binding Expr)) (x : Datum) :
    (nestLets body bindings).HasLiteral x ↔ AnyLiteral (bindings.map (·.value) ++ body) x := by
  fun_induction nestLets body bindings with
  | case1 => exact Expr.hasLiteral_node (by simp) x
  | case2 b => exact Expr.hasLiteral_node (by simp) x
  | case3 b bs _ ih =>
    rw [Expr.hasLiteral_node (by simp)]
    change AnyLiteral ([b.value] ++ [nestLets body bs]) x ↔ AnyLiteral ([b.value] ++ (bs.map (·.value) ++ body)) x
    rw [Expr.anyLiteral_append, Expr.anyLiteral_append, Expr.anyLiteral_single (e := nestLets body bs), ih]

/-! ## Accounts of the literals -/

/-- the literals of the expressions are the constants that the data expect as expressions, and all they expect so is
accepted -/
structure Accounts (ds : List Datum) (es : List Expr) : Prop where
  accepted : ∀ d ∈ ds, ∀ x, d.Expects x → ∃ e, Expr.ofDatum x = .ok e
  literals : ∀ x, AnyLiteral es x ↔ x.isConstant = true ∧ ∃ d ∈ ds, d.Expects x

namespace Accounts

variable {ds ds' : List Datum} {es es' : List Expr} {d : Datum} {e e' : Expr}

theorem nil : Accounts [] [] := ⟨by simp, by simp [AnyLiteral]⟩

theorem append (h : Accounts ds es) (h' : Accounts ds' es') : Accounts (ds ++ ds') (es ++ es') where
  accepted := List.forall_mem_append.2 ⟨h.accepted, h'.accepted⟩
  literals x := by
    rw [Expr.anyLiteral_append, h.literals, h'.literals]
    simp only [List.mem_append, or_and_right, exists_or, and_or_left]

/-- expressions with the same literals -/
theorem congr (h : Accounts ds es) (hes : ∀ x, AnyLiteral es' x ↔ AnyLiteral es x) : Accounts ds es' where
  accepted := h.accepted
  literals x := (hes x).trans (h.literals x)

/-- an expression that is made of accounted ones -/
theorem node (he : ∀ d, e ≠ .literal d) (h : Accounts ds e.parts) : Accounts ds [e] :=
  h.congr fun x => Expr.anyLiteral_single.trans (Expr.hasLiteral_node he x)

theorem quotation (d : Datum) : Accounts [] [.quotation d] := .node (by simp) .nil

/-- a call of a procedure that builds a list -/
theorem listCall (name : String) (h : Accounts ds [e]) (h' : Accounts ds' [e']) :
    Accounts (ds ++ ds') [.call (.var name) [e, e']] :=
  have hname : Accounts [] [.var name] := .node (by simp) .nil
  .node (by simp) (hname.append (h.append h'))

/-- a form that is no constant: what it expects to be expressions, and itself -/
theorem form (haccepted : Expr.ofDatum d = .ok e) (hd : d.isConstant = false) (h : Accounts d.exprForms [e]) :
    Accounts [d] [e] where
  accepted := by
    intro y hy x hx
    obtain rfl := List.mem_singleton.1 hy
    rcases Datum.expects_iff.1 hx with rfl | ⟨z, hz, hx⟩
    · exact ⟨e, haccepted⟩
    · exact h.accepted z hz x hx
  literals x := by
    rw [h.literals]
    refine and_congr_right fun hx => ?_
    simp only [List.mem_singleton, exists_eq_left]
    rw [Datum.expects_iff (d := d)]
    -- a constant cannot be the form itself
    refine (or_iff_right ?_).symm
    rintro rfl
    rw [hx] at hd
    cases hd

/-- a constant is a literal -/
theorem constant (haccepted : Expr.ofDatum d = .ok (.literal d)) (hd : d.isConstant = true) :
    Accounts [d] [.literal d] := by
  have hatom : d.isPair = false := by
    cases d with
    | pair head tail m => cases hd
    | _ => rfl
  constructor
  · intro y hy x hx
    obtain rfl := List.mem_singleton.1 hy
    obtain rfl := (Datum.expects_atom hatom).1 hx
    exact ⟨_, haccepted⟩
  · intro x
    simp only [List.mem_singleton, exists_eq_left]
    rw [Expr.anyLiteral_single, Expr.hasLiteral_iff, Datum.expects_atom hatom]
    constructor
    · rintro (hx | ⟨p, hp, -⟩)
      · cases hx
        exact ⟨hd, rfl⟩
      · cases hp
    · rintro ⟨-, rfl⟩
      exact Or.inl rfl

end Accounts

/-- what the analyses of a datum account for, in each of its roles -/
structure Accounted (d : Datum) : Prop where
  expr : Ensures (fun e => Accounts [d] [e]) (expr d).outcome
  all : Ensures (fun es => Accounts d.elements es) (all d).outcome
  bindings : Ensures (fun bs => Accounts d.boundValues (bs.map (·.value))) (bindings d).outcome
  clauses : Ensures (fun r => Accounts d.clauseForms (r.1.flatMap (fun c => c.test :: c.body) ++ r.2.getD []))
    (clauses d).outcome
  quote : Ensures (fun e => Accounts [] [e]) d.quote
  quoteRest : Ensures (fun e => Accounts [] [e]) d.quoteRest
  template : ∀ level inList, Ensures (fun p : Part => Accounts (d.template level).operands [p.expr])
    (template d level inList).outcome
  templateRest : ∀ level, Ensures (fun e => Accounts (d.templateRest level).operands [e]) (templateRest d level).outcome

/-! ## Special forms -/

theorem ensures_true {β : Type} (x : Except Diagnostic β) : Ensures (fun _ => True) x := fun _ _ => trivial

variable {k m : Mark} {args : Datum}

theorem lambda_accounts (ih : args.Below Accounted) :
    Ensures (fun e => Accounts (Datum.pair (.kw .lambda k) args m).exprForms [e])
      (expr (.pair (.kw .lambda k) args m)).outcome := by
  rw [expr_special]
  refine .andThen (ensures_true _) fun _ _ => ?_
  dsimp only [special]
  split
  · refine .andThen (ensures_true _) fun _ _ => .andThen (ensures_true _) fun _ _ => ?_
    exact .andThen ih.tail.all fun es hes => .ok (.node (by simp) hes)
  · exact .error _

/-- a form that binds names: the values of its bindings and its body -/
theorem bindingForm_accounts (form bs : Datum) {body : Datum} {make : List (Binding Expr) → List Expr → Expr}
    (hbs : Accounted bs) (hbody : Accounted body)
    (hmake : ∀ ds bs es, Accounts ds (bs.map (·.value) ++ es) → Accounts ds [make bs es]) :
    Ensures (fun e => Accounts (bs.boundValues ++ body.elements) [e])
      (checkBindings bs >>= fun _ => bindings bs >>= fun bs =>
        checkBody form body.elements >>= fun _ => all body >>= fun es => pure (make bs es)).outcome := by
  refine .andThen (ensures_true _) fun _ _ => .andThen hbs.bindings fun bs' hbs' => ?_
  refine .andThen (ensures_true _) fun _ _ => .andThen hbody.all fun es hes => .ok ?_
  exact hmake _ bs' es (hbs'.append hes)

theorem letForm_accounts (word : Keyword) {ds : List Datum} {bs : List (Binding Expr)} {es : List Expr}
    (h : Accounts ds (bs.map (·.value) ++ es)) : Accounts ds [letForm word bs es] := by
  unfold letForm
  split
  · exact h.congr fun x => Expr.anyLiteral_single.trans (hasLiteral_nestLets es bs x)
  · exact .node (by simp) h
  · exact .node (by simp) h

theorem let_accounts {word : Keyword} (hword : word = .letWord ∨ word = .letStar ∨ word = .letrec)
    (ih : args.Below Accounted) :
    Ensures (fun e => Accounts (Datum.pair (.kw word k) args m).exprForms [e])
      (expr (.pair (.kw word k) args m)).outcome := by
  rcases hword with rfl | rfl | rfl
  all_goals
    rw [expr_special]
    refine .andThen (ensures_true _) fun _ _ => ?_
    dsimp only [special]
    split
    · exact bindingForm_accounts _ _ ih.inTail.head ih.inTail.tail fun _ _ _ h => .node (by simp) h
    · exact .error _
    · rename_i bs body m' hunnamed _
      have hforms : (Datum.pair bs body m').bindingForms = bs.boundValues ++ body.elements := by
        rw [Datum.bindingForms]
        exact hunnamed
      change Ensures (fun e => Accounts (Datum.pair bs body m').bindingForms [e]) _
      rw [hforms]
      exact bindingForm_accounts _ _ ih.head ih.tail fun _ _ _ h => letForm_accounts _ h
    · exact .error _

theorem if_accounts (ih : args.Below Accounted) :
    Ensures (fun e => Accounts (Datum.pair (.kw .ifWord k) args m).exprForms [e])
      (expr (.pair (.kw .ifWord k) args m)).outcome := by
  rw [expr_special]
  refine .andThen (ensures_true _) fun _ _ => ?_
  dsimp only [special]
  split
  · refine .andThen ih.head.expr fun t ht => .andThen ih.inTail.head.expr fun c hc => .ok ?_
    exact .node (by simp) (ht.append hc)
  · refine .andThen ih.head.expr fun t ht => .andThen ih.inTail.head.expr fun c hc => ?_
    refine .andThen ih.inTail.inTail.head.expr fun a ha => .ok ?_
    exact .node (by simp) (ht.append (hc.append ha))
  · exact Settles.ensures (miscounted_yields _ _ _ _)

theorem define_accounts (ih : args.Below Accounted) :
    Ensures (fun e => Accounts (Datum.pair (.kw .define k) args m).exprForms [e])
      (expr (.pair (.kw .define k) args m)).outcome := by
  rw [expr_special]
  refine .andThen (ensures_true _) fun _ _ => ?_
  dsimp only [special]
  split
  · refine .andThen (ensures_true _) fun _ _ => .andThen (ensures_true _) fun _ _ =>
      .andThen (ensures_true _) fun _ _ => ?_
    exact .andThen ih.tail.all fun es hes => .ok (.node (by simp) (.node (by simp) hes))
  · exact .andThen ih.inTail.head.expr fun e he => .ok (.node (by simp) he)
  · exact Settles.ensures (miscounted_yields _ _ _ _)
  · exact .error _
  · exact .error _

theorem set_accounts (ih : args.Below Accounted) :
    Ensures (fun e => Accounts (Datum.pair (.kw .set k) args m).exprForms [e])
      (expr (.pair (.kw .set k) args m)).outcome := by
  rw [expr_special]
  refine .andThen (ensures_true _) fun _ _ => ?_
  dsimp only [special]
  split
  · exact .andThen (ensures_true _) fun _ _ => .andThen ih.inTail.head.expr fun e he => .ok (.node (by simp) he)
  · exact Settles.ensures (miscounted_yields _ _ _ _)

/-- a form that is analyzed as a keyword tells -/
theorem special_accounts (word : Keyword) (hargs : Accounted args) (ih : args.Below Accounted) :
    Ensures (fun e => Accounts (Datum.pair (.kw word k) args m).exprForms [e])
      (expr (.pair (.kw word k) args m)).outcome := by
  have hproper := ensures_true (checkProper (.pair (.kw word k) args m)).outcome
  cases word with
  | lambda => exact lambda_accounts ih
  | letWord => exact let_accounts (Or.inl rfl) ih
  | letStar => exact let_accounts (Or.inr (Or.inl rfl)) ih
  | letrec => exact let_accounts (Or.inr (Or.inr rfl)) ih
  | ifWord => exact if_accounts ih
  | define => exact define_accounts ih
  | set => exact set_accounts ih
  | quote =>
    rw [expr_special]
    refine .andThen hproper fun _ _ => ?_
    dsimp only [special]
    split
    · exact ih.head.quote
    · exact Settles.ensures (miscounted_yields _ _ _ _)
  | quasiquote =>
    rw [expr_special]
    refine .andThen hproper fun _ _ => ?_
    dsimp only [special]
    split
    · exact .andThen (ih.head.template 1 false) fun p hp => .ok (.node (by simp) hp)
    · exact Settles.ensures (miscounted_yields _ _ _ _)
  | cond =>
    rw [expr_special]
    exact .andThen hproper fun _ _ => .andThen hargs.clauses fun r hr => .ok (.node (by simp) hr)
  | begin =>
    rw [expr_special]
    refine .andThen hproper fun _ _ => .andThen (ensures_true _) fun _ _ => ?_
    exact .andThen hargs.all fun es hes => .ok (.node (by simp) hes)
  | and =>
    rw [expr_special]
    exact .andThen hproper fun _ _ => .andThen hargs.all fun es hes => .ok (.node (by simp) hes)
  | or =>
    rw [expr_special]
    exact .andThen hproper fun _ _ => .andThen hargs.all fun es hes => .ok (.node (by simp) hes)
  | delay =>
    rw [expr_special]
    refine .andThen hproper fun _ _ => .andThen (ensures_true _) fun _ _ => ?_
    exact .andThen hargs.all fun es hes => .ok (.node (by simp) hes)
  | _ =>
    rw [expr_special]
    exact .andThen hproper fun _ _ => .error _

/-- a list whose head is not a keyword is a call -/
theorem call_accounts {head : Datum} (hhead : Accounted head) (hargs : Accounted args)
    (hkw : ∀ word k, head ≠ .kw word k) :
    Ensures (fun e => Accounts (Datum.pair head args m).exprForms [e]) (expr (.pair head args m)).outcome := by
  have hforms : (Datum.pair head args m).exprForms = head :: args.elements := by
    cases head with
    | kw word k => exact absurd rfl (hkw word k)
    | _ => rfl
  rw [hforms, expr_call args m hkw]
  refine .andThen (ensures_true _) fun _ _ => .andThen hhead.expr fun f hf => ?_
  split
  · split
    · exact .error _
    · exact .andThen hargs.all fun es hes => .ok (.node (by simp) (hf.append hes))
  · exact .error _

theorem expr_accounts {d : Datum} (ih : d.Below Accounted) : Ensures (fun e => Accounts [d] [e]) (expr d).outcome := by
  cases d with
  | sym name m => exact .ok (.form rfl rfl (.node (by simp) .nil))
  | nil => exact .error _
  | pair head args m =>
    have hforms : Ensures (fun e => Accounts (Datum.pair head args m).exprForms [e])
        (expr (.pair head args m)).outcome := by
      cases head with
      | kw word k => exact special_accounts word ih.tail ih.inTail
      | _ => exact call_accounts ih.head ih.tail (by simp)
    exact fun e he => .form he rfl (hforms e he)
  | _ => exact .ok (.constant rfl rfl)

/-! ## Chains -/

theorem all_accounts {d : Datum} (ih : d.Below Accounted) :
    Ensures (fun es => Accounts d.elements es) (all d).outcome := by
  cases d with
  | pair head tail m => exact .andThen ih.head.expr fun e he => .andThen ih.tail.all fun es hes => .ok (he.append hes)
  | _ => exact .ok .nil

theorem bindings_accounts {d : Datum} (ih : d.Below Accounted) :
    Ensures (fun bs => Accounts d.boundValues (bs.map (·.value))) (bindings d).outcome := by
  rw [bindings_eq]
  split
  · exact .andThen ih.inHead.inTail.head.expr fun e he => .andThen ih.tail.bindings fun bs hbs => .ok (he.append hbs)
  · -- what is no binding is passed over, and so is an expression in it
    rename_i malformed rest m hbinding
    rw [Datum.boundValues]
    · exact .andThen (ensures_true _) fun _ _ => ih.tail.bindings
    · exact hbinding
  · rename_i hpair
    cases d with
    | pair head tail m => exact (hpair _ _ _ rfl).elim
    | _ => exact .ok .nil

theorem clauses_accounts {d : Datum} (ih : d.Below Accounted) :
    Ensures (fun r => Accounts d.clauseForms (r.1.flatMap (fun c => c.test :: c.body) ++ r.2.getD []))
      (clauses d).outcome := by
  rw [clauses_eq]
  split
  · exact .andThen (ensures_true _) fun _ _ => .andThen ih.inHead.tail.all fun es hes => .ok hes
  · rename_i test body m rest m' helse
    rw [Datum.clauseForms]
    · refine .andThen (ensures_true _) fun _ _ => .andThen ih.inHead.head.expr fun t ht => ?_
      refine .andThen (ensures_true _) fun _ _ => .andThen ih.inHead.tail.all fun es hes => ?_
      refine .andThen ih.tail.clauses fun r hr => .ok ?_
      have hclause := (ht.append hes).append hr
      simpa only [List.flatMap_cons, List.append_assoc, List.cons_append, List.nil_append] using hclause
    · exact helse
  · rename_i hlast hclause
    cases d with
    | pair head tail m =>
      cases head with
      | pair test body m' => exact (hclause _ _ _ _ _ rfl).elim
      | _ => exact .ok .nil
    | _ => exact .ok .nil

/-! ## Quotations and templates -/

theorem quote_accounts {d : Datum} (ih : d.Below Accounted) : Ensures (fun e => Accounts [] [e]) d.quote := by
  cases d with
  | pair head tail m =>
    rw [Datum.quote]
    split
    · exact .error _
    · exact .bind ih.tail.quoteRest fun rest hrest => .bind ih.head.quote fun first hfirst =>
        .ok (hfirst.listCall _ hrest)
  | _ => exact .ok (.quotation _)

theorem quoteRest_accounts {d : Datum} (ih : d.Below Accounted) : Ensures (fun e => Accounts [] [e]) d.quoteRest := by
  rw [Datum.quoteRest.eq_def]
  split
  · exact ih.inTail.head.quote
  · exact .bind ih.tail.quoteRest fun rest hrest => .bind ih.head.quote fun first hfirst =>
      .ok (hfirst.listCall _ hrest)
  · exact .ok (.quotation _)

/-- a part in front of the rest of its list -/
theorem Accounts.onto {ds ds' : List Datum} {p : Part} {rest : Expr} (h : Accounts ds [p.expr])
    (h' : Accounts ds' [rest]) :
    Accounts (ds ++ ds') [p.onto rest] := by
  rw [Part.onto_eq]
  exact h.listCall p.procedure h'

/-- a nested unquote or quasiquote stays as a list of its keyword and operand -/
theorem nested_accounts {word : Keyword} {x : Datum} {level : Nat} (ih : Accounted (.pair x .nil m)) :
    Ensures (fun p : Part => Accounts (Template.nested (.kw word k) (x.template level)).operands [p.expr])
      (template (.pair x .nil m) level false >>= fun part =>
        pure (.element (.consCall (.quotation (.kw word k)) part.expr))).outcome := by
  refine .andThen (ih.template level false) fun part hpart => .ok ?_
  rw [template_single] at hpart
  exact (Accounts.quotation (.kw word k)).listCall "cons" hpart

theorem template_accounts {d : Datum} (ih : d.Below Accounted) (level : Nat) (inList : Bool) :
    Ensures (fun p : Part => Accounts (d.template level).operands [p.expr]) (template d level inList).outcome := by
  rw [template_eq]
  split
  · split
    · exact .error _
    · rename_i hnone
      obtain ⟨x, m, rfl⟩ := single_of_operandFault? hnone
      rw [Datum.template]
      split
      · exact .andThen ih.inTail.head.expr fun e he => .ok he
      · exact nested_accounts ih.tail
  · split
    · exact .error _
    · rename_i hnone
      obtain ⟨x, m, rfl⟩ := single_of_operandFault? hnone
      rw [Datum.template]
      split
      · split
        · exact .andThen ih.inTail.head.expr fun e he => .ok he
        · exact .error _
      · exact nested_accounts ih.tail
  · split
    · exact .error _
    · rename_i hnone
      obtain ⟨x, m, rfl⟩ := single_of_operandFault? hnone
      rw [Datum.template]
      exact nested_accounts ih.tail
  · rename_i head tail m hunquote hsplice hquasi
    split
    · exact .error _
    · rw [Datum.template, Template.operands_pair]
      · refine .andThen (ih.tail.templateRest level) fun rest hrest =>
          .andThen (ih.head.template level true) fun p hp => .ok ?_
        exact hp.onto hrest
      · exact fun k _ _ hk _ => hunquote k hk
      · exact fun k _ _ hk _ => hsplice k hk
      · exact fun k _ _ hk _ => hquasi k hk
  · rename_i hpair
    cases d with
    | pair head tail m => exact (hpair _ _ _ rfl).elim
    | _ => exact .ok (.quotation _)

theorem templateRest_accounts {d : Datum} (ih : d.Below Accounted) (level : Nat) :
    Ensures (fun e => Accounts (d.templateRest level).operands [e]) (templateRest d level).outcome := by
  rw [templateRest.eq_def]
  split
  · exact .andThen (ih.inTail.head.template level false) fun part hpart => .ok hpart
  · rename_i head tail m hdot
    rw [Datum.templateRest, Template.operands_pair]
    · refine .andThen (ih.tail.templateRest level) fun rest hrest =>
        .andThen (ih.head.template level true) fun p hp => .ok ?_
      exact hp.onto hrest
    · exact hdot
  · rename_i hpair
    cases d with
    | pair head tail m => exact (hpair _ _ _ rfl).elim
    | _ => exact .ok (.quotation _)

theorem accounted (d : Datum) : Accounted d :=
  d.below_induct fun _ ih =>
    ⟨expr_accounts ih, all_accounts ih, bindings_accounts ih, clauses_accounts ih, quote_accounts ih,
    quoteRest_accounts ih, template_accounts ih, templateRest_accounts ih⟩

/-- a list that starts with a dot and a call with a dot among its operands are rejected -/
theorem misplacesDot_eq_false {d : Datum} : Ensures (fun _ => d.misplacesDot = false) (expr d).outcome := by
  cases d with
  | pair head args m =>
    cases head with
    | kw word k =>
      cases word with
      | dot =>
        rw [expr_special]
        exact .andThen (ensures_true _) fun _ _ => .error _
      | _ => exact fun _ _ => rfl
    | _ =>
      rw [expr_call args m (by simp)]
      refine .andThen (ensures_true _) fun _ _ => .andThen (ensures_true _) fun f _ => ?_
      split
      · split
        · exact .error _
        · rename_i hdot
          refine fun _ _ => List.any_eq_false.2 ?_
          exact List.find?_eq_none.1 hdot
      · exact .error _
  | _ => exact fun _ _ => rfl

end Analysis

/-- **The literals of an expression are the constants that its form expects as expressions** -/
theorem Expr.ofDatum_literals {d : Datum} {e : Expr} (h : Expr.ofDatum d = .ok e) (x : Datum) :
    e.HasLiteral x ↔ x.isConstant = true ∧ d.Expects x := by
  have hliterals := ((Analysis.accounted d).expr e h).literals x
  rw [Expr.anyLiteral_single] at hliterals
  simpa only [List.mem_singleton, exists_eq_left] using hliterals

/-- whatever stands in an accepted form where an expression is expected is accepted too, so it has no misplaced dot -/
theorem Expr.misplacesDot_of_accepted {d : Datum} {e : Expr} (h : Expr.ofDatum d = .ok e) (form : Datum)
    (hform : d.Expects form) :
    form.misplacesDot = false := by
  obtain ⟨e', he'⟩ := ((Analysis.accounted d).expr e h).accepted d List.mem_cons_self form hform
  exact Analysis.misplacesDot_eq_false e' he'

/-! ## Texts -/

theorem forall₂_of_mapM_eq_ok {ε α β : Type} {f : α → Except ε β} {as : List α} {bs : List β} (h : as.mapM f = .ok bs) :
    List.Forall₂ (fun a b => f a = .ok b) as bs := by
  induction as generalizing bs with
  | nil =>
    cases h
    exact .nil
  | cons a as ih =>
    rw [List.mapM_cons] at h
    obtain ⟨b, hb, h⟩ := except_bind_eq_ok.1 h
    obtain ⟨bs', hbs', h⟩ := except_bind_eq_ok.1 h
    cases h
    exact .cons hb (ih hbs')

/-- the analysis of a text that is read: that of its forms, one after the other -/
theorem analyzeText_of_read {text : String} {ds : List Datum} (h : readText text = .ok ds) :
    analyzeText text = (ds.mapM Expr.ofDatum).mapError fun fault => .diagnostic (fault.withSource text) := by
  simp only [analyzeText, Run.exprs, Traced.outcome_bind, Traced.outcome_mapM, Run.outcome_data, Run.outcome_expr,
    mapM_mapError, h]
  rfl

/-- **A dot is refused at the head of a list and among the operands of a call.** Wherever else an expression is
expected, it becomes a literal, at its place; no other dot does -/
theorem analyzeText_dots (text : String) (ds : List Datum) (h : readText text = .ok ds) :
    ((∃ d ∈ ds, ∃ form, d.Expects form ∧ form.misplacesDot = true) →
      ∃ fault, analyzeText text = .error (.diagnostic fault) ∧ fault.kind.isAnalysis = true) ∧
    ∀ es, analyzeText text = .ok es →
      List.Forall₂ (fun d e => ∀ k, e.HasLiteral (.kw .dot k) ↔ d.Expects (.kw .dot k)) ds es := by
  rw [analyzeText_of_read h]
  cases hes : ds.mapM Expr.ofDatum with
  | error fault =>
    have hsettles := mapM_settles Expr.ofDatum_settles ds
    rw [hes] at hsettles
    cases hsettles with
    | rejected hkind =>
      rw [← fault.kind_withSource text] at hkind
      exact ⟨fun _ => ⟨fault.withSource text, rfl, hkind⟩, fun es h => by cases h⟩
  | ok es =>
    obtain ⟨hplaced, hforms⟩ := (List.forall₂_and_left _ _).1 ((forall₂_of_mapM_eq_ok hes).imp fun d e he =>
      And.intro (Expr.misplacesDot_of_accepted he) he)
    constructor
    · rintro ⟨d, hd, form, hform, hdot⟩
      rw [hplaced d hd form hform] at hdot
      cases hdot
    · intro es' hes'
      cases hes'
      exact hforms.imp fun d e he k => (Expr.ofDatum_literals he _).trans (and_iff_right rfl)

/-- a sequence takes a dot for an expression, and it is a literal -/
theorem sequence_dot_accepted :
    analyzeText "(begin . x)" = .ok [.sequence [.literal (.kw .dot ⟨some 0, some 7⟩), .var "x"]] := by
  have hread : readText "(begin . x)" = .ok [.pair (.kw .begin ⟨some 0, some 1⟩) (.pair (.kw .dot ⟨some 0, some 7⟩)
      (.pair (.sym "x" ⟨some 0, some 9⟩) .nil .unknown) .unknown) ⟨some 0, some 0⟩] := by
    decide +kernel
  rw [analyzeText_of_read hread]
  rfl

/-- a dot in a body is a literal and one among the parameters is not; a call inside a sequence refuses its dot -/
theorem body_dot_literal :
    (∃ e, analyzeText "(lambda (a . r) . r)" = .ok [e] ∧ ∀ k, e.HasLiteral (.kw .dot k) ↔ k = ⟨some 0, some 16⟩) ∧
    ∃ fault, analyzeText "(begin (f . x))" = .error (.diagnostic fault) ∧ fault.kind.isAnalysis = true := by
  have hread : readText "(lambda (a . r) . r)" =
    .ok [.pair (.kw .lambda ⟨some 0, some 1⟩) (.pair (.pair (.sym "a" ⟨some 0, some 9⟩)
      (.pair (.kw .dot ⟨some 0, some 11⟩) (.pair (.sym "r" ⟨some 0, some 13⟩) .nil .unknown) .unknown) ⟨some 0, some 8⟩)
      (.pair (.kw .dot ⟨some 0, some 16⟩) (.pair (.sym "r" ⟨some 0, some 18⟩) .nil .unknown) .unknown) .unknown)
      ⟨some 0, some 0⟩] := by
    decide +kernel
  have hread' : readText "(begin (f . x))" =
    .ok [.pair (.kw .begin ⟨some 0, some 1⟩) (.pair (.pair (.sym "f" ⟨some 0, some 8⟩)
      (.pair (.kw .dot ⟨some 0, some 10⟩) (.pair (.sym "x" ⟨some 0, some 12⟩) .nil .unknown) .unknown)
      ⟨some 0, some 7⟩) .nil .unknown) ⟨some 0, some 0⟩] := by
    decide +kernel
  have haccepted : analyzeText "(lambda (a . r) . r)" =
      .ok [.lambda ["a"] (some "r") [.literal (.kw .dot ⟨some 0, some 16⟩), .var "r"]] := by
    rw [analyzeText_of_read hread]
    rfl
  refine ⟨⟨_, haccepted, fun k => ?_⟩, (analyzeText_dots _ _ hread').1 ?_⟩
  · obtain ⟨hdots, -⟩ := List.forall₂_cons.1 ((analyzeText_dots _ _ hread).2 _ haccepted)
    have hdot := Datum.expects_atom (d := .kw .dot ⟨some 0, some 16⟩) (x := .kw .dot k) rfl
    have hname := Datum.expects_atom (d := .sym "r" ⟨some 0, some 18⟩) (x := .kw .dot k) rfl
    rw [hdots, Datum.expects_iff]
    simp [Datum.exprForms, Datum.elements, hdot, hname]
  · exact ⟨_, List.mem_cons_self, _, .inside List.mem_cons_self (.root _), rfl⟩

end SchemeStack
