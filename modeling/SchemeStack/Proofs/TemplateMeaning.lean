/-
Quotations and templates build what they show.

`Datum.value` reads a datum as a run-time value: a list written with a dot is a chain of pairs that ends at what
follows the dot, and a keyword is the symbol of its name. `Datum.template` reads a datum inside quasiquotations as a
`Template`: at level one an unquote is a hole for the value of its operand, and so is an unquote-splicing, for the
elements of its operand's value. A quasiquotation raises the level and an unquote lowers it; all else stands for
itself. `Template.holes` are its holes from left to right, and `Template.fill` puts values in them.

`quotation_builds`, in any environment where `cons` makes pairs and `append` joins lists:
- the expression of a quotation evaluates to the value of the datum;
- the expression of a quasiquotation evaluates the operands of its template, each once and from left to right, and
  then is the template filled with their values. If an operand faults or does not end, then so it does.

The parts:
- `Realizes`: an expression does what a template with given operands does. Two such expressions make a third, by a
  call of `cons` or of `append` (`realizes_onto`);
- `Builds`: the expression that analysis yields realizes the template of the datum. It is proved by induction on the
  size of the datum (`quotes`), for the datum as a whole and as the rest of a list.

Operands may assign variables, so `cons` need not stay what it is: `Steady` says that it does while the operands are
evaluated. Built-in procedures see only values without closures. So the values that `cons` and `append` take are those
whose closures have a property, which may be true of all of them or of none (`listProcedures_callAt`).
-/
import SchemeStack.Proofs.AnalysisSoundness
import SchemeStack.Proofs.ExprEvaluation

namespace SchemeStack

open SchemeStack.Source

/-! ## Lists at run time -/

namespace RunValue

variable {α κ : Type} {K : κ → Prop}

/-- pairs of some values, one inside the other, around a last one -/
def chain (front : List (RunValue α κ)) (last : RunValue α κ) : RunValue α κ := front.foldr pair last

/-- the first halves along a chain of pairs -/
def elements : RunValue α κ → List (RunValue α κ)
  | pair first rest => first :: rest.elements
  | _ => []

/-- a chain of pairs that ends at the empty list -/
def isList : RunValue α κ → Bool
  | atom .nil => true
  | pair _ rest => rest.isList
  | _ => false

theorem Forall.elements {v : RunValue α κ} (h : v.Forall K) : ∀ x ∈ v.elements, x.Forall K := by
  induction v with
  | pair first rest _ ih => exact List.forall_mem_cons.2 ⟨h.1, ih h.2⟩
  | _ => simp [RunValue.elements]

theorem Forall.chain {front : List (RunValue α κ)} {last : RunValue α κ} (hfront : ∀ x ∈ front, x.Forall K)
    (hlast : last.Forall K) : (RunValue.chain front last).Forall K := by
  induction front with
  | nil => exact hlast
  | cons x front ih =>
    obtain ⟨hx, hfront⟩ := List.forall_mem_cons.1 hfront
    exact ⟨hx, ih hfront⟩

end RunValue

/-! ## Data as values -/

namespace Datum

variable {α κ : Type}

/-- the run-time value that a datum shows -/
def value : Datum → RunValue α κ
  | pair (kw .dot _) (pair last nil _) _ => last.value
  | pair head tail _ => .pair head.value tail.value
  | bool b _ => .atom (.boolean b)
  | int n _ => .atom (.integer n)
  | str text _ => .atom (.string text)
  | sym name _ => .atom (.symbol name)
  | kw word _ => .atom (.symbol word.name)
  | nil => .atom .nil

/-- the pair is not the dot in front of the end of a list -/
def NotAtDot (head tail : Datum) : Prop := ∀ k last k', head = kw .dot k → tail = pair last nil k' → False

theorem value_pair {head tail : Datum} (h : NotAtDot head tail) (m : Mark) :
    ((pair head tail m).value : RunValue α κ) = .pair head.value tail.value := by
  rw [value]
  exact h

theorem value_forall (K : κ → Prop) (d : Datum) : (d.value : RunValue α κ).Forall K := by
  fun_induction value d with
  | case1 _ _ _ _ ih => exact ih
  | case2 _ _ _ _ ihhead ihtail => exact ⟨ihhead, ihtail⟩
  | _ => exact trivial

end Datum

/-! ## Templates -/

/-- a hole of a template: the value of its operand goes there, or the elements of that value do -/
structure Hole (ι : Type) where
  operand : ι
  spliced : Bool

/-- a datum with holes -/
inductive Template where
  | constant (d : Datum)
  | hole (o : Hole Datum)
  | pair (first rest : Template)

namespace Template

/-- a hole for the elements of a list -/
def isSplice : Template → Bool
  | hole o => o.spliced
  | _ => false

def holes : Template → List (Hole Datum)
  | constant _ => []
  | hole o => [o]
  | pair first rest => first.holes ++ rest.holes

/-- a list of a word and its operand -/
def nested (word : Datum) (operand : Template) : Template := pair (constant word) (pair operand (constant .nil))

variable {α κ : Type}

/-- the value of the template with the values of its operands, in their order -/
def fill : Template → List (RunValue α κ) → RunValue α κ
  | constant d, _ => d.value
  | hole _, vs => vs.headD (.atom .nil)
  | pair first rest, vs =>
    let tail := rest.fill (vs.drop first.holes.length)
    if first.isSplice then .chain (first.fill vs).elements tail else .pair (first.fill vs) tail

theorem fill_forall {K : κ → Prop} {vs : List (RunValue α κ)} (h : ∀ v ∈ vs, v.Forall K) (t : Template) :
    (t.fill vs).Forall K := by
  induction t generalizing vs with
  | constant d => exact d.value_forall K
  | hole o =>
    cases vs with
    | nil => exact trivial
    | cons v vs => exact h v List.mem_cons_self
  | pair first rest ihfirst ihrest =>
    have htail : (rest.fill (vs.drop first.holes.length)).Forall K := ihrest fun v hv => h v (List.mem_of_mem_drop hv)
    rw [fill]
    split
    · exact .chain (ihfirst h).elements htail
    · exact ⟨ihfirst h, htail⟩

/-- values behind those of the operands do not matter -/
theorem fill_append {t : Template} {vs : List (RunValue α κ)} (h : vs.length = t.holes.length)
    (ws : List (RunValue α κ)) : t.fill (vs ++ ws) = t.fill vs := by
  induction t generalizing vs ws with
  | constant d => rfl
  | hole o =>
    cases vs with
    | nil => cases h
    | cons v vs => rfl
  | pair first rest ihfirst ihrest =>
    rw [holes, List.length_append] at h
    have hfirst : (vs.take first.holes.length).length = first.holes.length := by
      rw [List.length_take]
      omega
    have hfill : first.fill (vs ++ ws) = first.fill vs := by
      rw [← List.take_append_drop first.holes.length vs, List.append_assoc, ihfirst hfirst, ihfirst hfirst]
    have hdrop : (vs ++ ws).drop first.holes.length = vs.drop first.holes.length ++ ws :=
      List.drop_append_of_le_length (by omega)
    rw [fill, fill, hfill, hdrop, ihrest (by rw [List.length_drop]; omega)]

theorem fill_pair {t t' : Template} {vs : List (RunValue α κ)} (h : vs.length = t.holes.length)
    (ws : List (RunValue α κ)) :
    (pair t t').fill (vs ++ ws) =
      if t.isSplice then .chain (t.fill vs).elements (t'.fill ws) else .pair (t.fill vs) (t'.fill ws) := by
  rw [fill, fill_append h, ← h, List.drop_left]

end Template

namespace Datum

mutual

/-- the template that a datum is, at a level of quasiquotation -/
def template : Datum → (level : Nat) → Template
  | pair (kw .unquote k) (pair x nil _) _, level =>
    if level = 1 then .hole ⟨x, false⟩ else .nested (kw .unquote k) (x.template (level - 1))
  | pair (kw .unquoteSplicing k) (pair x nil _) _, level =>
    if level = 1 then .hole ⟨x, true⟩ else .nested (kw .unquoteSplicing k) (x.template (level - 1))
  | pair (kw .quasiquote k) (pair x nil _) _, level => .nested (kw .quasiquote k) (x.template (level + 1))
  | pair head tail _, level => .pair (head.template level) (tail.templateRest level)
  | d, _ => .constant d

/-- the template that the rest of a list is; what follows a dot is its end -/
def templateRest : Datum → (level : Nat) → Template
  | pair (kw .dot _) (pair last nil _) _, level => last.template level
  | pair head tail _, level => .pair (head.template level) (tail.templateRest level)
  | d, _ => .constant d

end

end Datum

namespace Part

/-- the elements of the part's value are spliced into the list -/
def isSplice : Part → Bool
  | element _ => false
  | splice _ => true

/-- the procedure that puts the part in front of the rest of its list -/
def procedure : Part → String
  | element _ => "cons"
  | splice _ => "append"

theorem onto_eq (p : Part) (rest : Expr) : p.onto rest = .call (.var p.procedure) [p.expr, rest] := by
  cases p <;> rfl

end Part

/-! ## Evaluation -/

/-- what calls of values do -/
abbrev ExprCalls (α : Type) := ExprValue α → List (ExprValue α) → ExprMemory α → ExprOutcome α

theorem Outcome.bind_congr {β γ : Type} {o : Outcome β} {next next' : β → Outcome γ}
    (h : ∀ b, o = .done b → next b = next' b) :
    o.bind next = o.bind next' := by
  cases o with
  | done b => exact h b rfl
  | _ => rfl

namespace Expr

variable {α : Type} {call : ExprCalls α} {K : Closure → Prop} {ρ : Env} {m : ExprMemory α}

theorem runAll_append (es es' : List Expr) :
    runAll call (es ++ es') ρ m = (runAll call es ρ m).bind fun r => (runAll call es' ρ r.2).bind fun r' =>
      .done (r.1 ++ r'.1, r'.2) := by
  induction es generalizing m with
  | nil =>
    rw [List.nil_append, runAll, Outcome.bind_done]
    cases runAll call es' ρ m <;> rfl
  | cons e es ih => simp only [List.cons_append, runAll, ih, Outcome.bind_assoc, Outcome.bind_done]

/-- `cons` makes pairs, and `append` puts the elements of a list in front of a value, for values whose closures have the
property -/
structure ListProcedures (call : ExprCalls α) (K : Closure → Prop) (ρ : Env) (m : ExprMemory α) : Prop where
  cons : ∃ f, m.get ρ "cons" = some f ∧
    ∀ a b m', a.Forall K → b.Forall K → call f [a, b] m' = .done (.pair a b, m')
  append : ∃ f, m.get ρ "append" = some f ∧
    ∀ a b m', a.Forall K → a.isList = true → b.Forall K → call f [a, b] m' = .done (.chain a.elements b, m')

/-- while the operands are evaluated one after the other, `cons` and `append` stay what they are, and operands that
are spliced have lists as values -/
def Steady (call : ExprCalls α) (K : Closure → Prop) (ρ : Env) : List (Hole Expr) → ExprMemory α → Prop
  | [], m => ListProcedures call K ρ m
  | o :: os, m => ListProcedures call K ρ m ∧ ∀ v m', run call o.operand ρ m = .done (v, m') →
    v.Forall K ∧ (o.spliced = true → v.isList = true) ∧ Steady call K ρ os m'

namespace Steady

variable {os os' : List (Hole Expr)}

theorem now (h : Steady call K ρ os m) : ListProcedures call K ρ m := by
  cases os with
  | nil => exact h
  | cons o os => exact h.1

/-- a variable as the first operand: nothing changes -/
theorem var {name : String} {spliced : Bool} {v : ExprValue α} (h : Steady call K ρ os m) (hget : m.get ρ name = some v)
    (hv : v.Forall K) (hlist : spliced = true → v.isList = true) : Steady call K ρ (⟨.var name, spliced⟩ :: os) m := by
  refine ⟨h.now, fun v' m' hrun => ?_⟩
  rw [run, hget] at hrun
  cases hrun
  exact ⟨hv, hlist, h⟩

theorem front (h : Steady call K ρ (os ++ os') m) : Steady call K ρ os m := by
  induction os generalizing m with
  | nil => exact h.now
  | cons o os ih =>
    refine ⟨h.1, fun v m' hrun => ?_⟩
    obtain ⟨hv, hlist, hrest⟩ := h.2 v m' hrun
    exact ⟨hv, hlist, ih hrest⟩

/-- the values that the operands should have -/
abbrev Values (K : Closure → Prop) : List (Hole Expr) → List (ExprValue α) → Prop :=
  List.Forall₂ fun o v => v.Forall K ∧ (o.spliced = true → v.isList = true)

/-- behind the first operands the others are steady, and the values of the first are as they should be -/
theorem behind {m' : ExprMemory α} {vs : List (ExprValue α)} (h : Steady call K ρ (os ++ os') m)
    (hrun : runAll call (os.map (·.operand)) ρ m = .done (vs, m')) :
    Steady call K ρ os' m' ∧ Values K os vs := by
  induction os generalizing m vs with
  | nil =>
    cases hrun
    exact ⟨h, .nil⟩
  | cons o os ih =>
    obtain ⟨⟨v, m₁⟩, hv, hr⟩ := Outcome.bind_eq_done.1 hrun
    obtain ⟨rs, hrs, hdone⟩ := Outcome.bind_eq_done.1 hr
    cases hdone
    obtain ⟨hforall, hlist, hrest⟩ := h.2 v m₁ hv
    obtain ⟨hsteady, hvs⟩ := ih hrest hrs
    exact ⟨hsteady, .cons ⟨hforall, hlist⟩ hvs⟩

theorem fill_forall {vs : List (ExprValue α)} (h : Values K os vs) (t : Template) : (t.fill vs).Forall K := by
  refine t.fill_forall fun v hv => ?_
  obtain ⟨i, hi, rfl⟩ := List.getElem_of_mem hv
  exact (h.get (h.length_eq ▸ hi) hi).1

end Steady

/-- the expression evaluates the operands from left to right, and then is the template filled with their values -/
def Realizes (call : ExprCalls α) (K : Closure → Prop) (ρ : Env) (e : Expr) (t : Template) (os : List (Hole Expr)) :
    Prop :=
  ∀ m, Steady call K ρ os m →
    e.run call ρ m = (runAll call (os.map (·.operand)) ρ m).bind fun r => .done (t.fill r.1, r.2)

theorem realizes_constant {d : Datum} (h : d.isPair = false) : Realizes call K ρ (.quotation d) (.constant d) [] := by
  intro m _
  cases d with
  | pair head tail m => cases h
  | _ => rfl

theorem realizes_hole (e : Expr) (o : Hole Datum) : Realizes call K ρ e (.hole o) [⟨e, o.spliced⟩] := by
  intro m _
  simp only [List.map_cons, List.map_nil, runAll, Outcome.bind_assoc, Outcome.bind_done]
  cases run call e ρ m <;> rfl

section Lists

variable {e e' : Expr} {t t' : Template} {os os' : List (Hole Expr)}

/-- a call with two expressions that realize templates: the operands of both are evaluated, and then a procedure is
called with the filled templates -/
theorem run_call_realized (name : String) (h : Realizes call K ρ e t os) (h' : Realizes call K ρ e' t' os')
    (hsteady : Steady call K ρ (os ++ os') m) :
    run call (.call (.var name) [e, e']) ρ m =
      (runAll call (os.map (·.operand)) ρ m).bind fun r => (runAll call (os'.map (·.operand)) ρ r.2).bind fun r' =>
        (Outcome.ofOption (r'.2.get ρ name)).bind fun f => call f [t.fill r.1, t'.fill r'.1] r'.2 := by
  have hcall : run call (.call (.var name) [e, e']) ρ m =
      (run call e ρ m).bind fun v => (run call e' ρ v.2).bind fun v' =>
        (Outcome.ofOption (v'.2.get ρ name)).bind fun f => call f [v.1, v'.1] v'.2 := by
    simp only [run, runAll, Outcome.bind_assoc, Outcome.bind_done]
    congr 1
    funext v
    congr 1
    funext v'
    cases v'.2.get ρ name <;> rfl
  rw [hcall, h m hsteady.front, Outcome.bind_assoc]
  refine Outcome.bind_congr fun r hr => ?_
  rw [Outcome.bind_done, h' r.2 (hsteady.behind hr).1, Outcome.bind_assoc]
  rfl

/-- what is spliced into a list is a list -/
theorem isList_fill {vs : List (ExprValue α)} (ht : t.isSplice = true)
    (hos : List.Forall₂ (fun o o' => o'.spliced = o.spliced) t.holes os) (hvs : Steady.Values K os vs) :
    (t.fill vs).isList = true := by
  cases t with
  | hole o =>
    obtain ⟨o', os, ho, -, rfl⟩ := List.forall₂_cons_left_iff.1 hos
    obtain ⟨v, vs, hv, -, rfl⟩ := List.forall₂_cons_left_iff.1 hvs
    exact hv.2 (ho.trans ht)
  | _ => cases ht

/-- a part in front of the rest of its list -/
theorem realizes_onto {p : Part} (hp : p.isSplice = t.isSplice)
    (hos : List.Forall₂ (fun o o' => o'.spliced = o.spliced) t.holes os) (h : Realizes call K ρ p.expr t os)
    (h' : Realizes call K ρ e' t' os') : Realizes call K ρ (p.onto e') (.pair t t') (os ++ os') := by
  intro m hsteady
  rw [Part.onto_eq, run_call_realized _ h h' hsteady, List.map_append, runAll_append, Outcome.bind_assoc]
  refine Outcome.bind_congr fun r hr => ?_
  rw [Outcome.bind_assoc]
  refine Outcome.bind_congr fun r' hr' => ?_
  obtain ⟨hbehind, hvs⟩ := hsteady.behind hr
  rw [← List.append_nil os'] at hbehind
  obtain ⟨hend, hvs'⟩ := hbehind.behind hr'
  have hfilled : r.1.length = t.holes.length := (hos.length_eq.trans hvs.length_eq).symm
  rw [Outcome.bind_done, Template.fill_pair hfilled, ← hp]
  cases p with
  | element e =>
    obtain ⟨f, hf, hcons⟩ := hend.cons
    rw [Part.procedure, hf, Outcome.ofOption, Outcome.bind_done,
      hcons _ _ _ (Steady.fill_forall hvs t) (Steady.fill_forall hvs' t')]
    rfl
  | splice e =>
    obtain ⟨f, hf, happend⟩ := hend.append
    rw [Part.procedure, hf, Outcome.ofOption, Outcome.bind_done,
      happend _ _ _ (Steady.fill_forall hvs t) (isList_fill hp.symm hos hvs) (Steady.fill_forall hvs' t')]
    rfl

end Lists

end Expr

/-! ## Analysis -/

/-- the hole, with the expression that its operand means -/
def Hole.Means (o : Hole Datum) (o' : Hole Expr) : Prop :=
  Expr.ofDatum o.operand = .ok o'.operand ∧ o'.spliced = o.spliced

/-- the expression realizes the template, which shows the datum -/
structure Builds (d : Datum) (t : Template) (e : Expr) : Prop where
  realizes : ∃ os, List.Forall₂ Hole.Means t.holes os ∧
    ∀ {α : Type} (call : ExprCalls α) (K : Expr.Closure → Prop) (ρ : Env), Expr.Realizes call K ρ e t os
  literal : t.holes = [] → ∀ {α κ : Type}, (t.fill [] : RunValue α κ) = d.value

namespace Builds

variable {d head tail x : Datum} {t t' : Template} {e : Expr}

theorem constant (h : d.isPair = false) : Builds d (.constant d) (.quotation d) :=
  ⟨⟨[], .nil, fun _ _ _ => Expr.realizes_constant h⟩, fun _ => rfl⟩

theorem hole (spliced : Bool) (h : Expr.ofDatum x = .ok e) : Builds d (.hole ⟨x, spliced⟩) e :=
  ⟨⟨[⟨e, spliced⟩], .cons ⟨h, rfl⟩ .nil, fun _ _ _ => Expr.realizes_hole e _⟩, fun hnone => by cases hnone⟩

theorem onto {p : Part} (hdot : Datum.NotAtDot head tail) (m : Mark) (hp : p.isSplice = t.isSplice)
    (h : Builds head t p.expr) (h' : Builds tail t' e) : Builds (.pair head tail m) (.pair t t') (p.onto e) := by
  obtain ⟨os, hos, hrealizes⟩ := h.realizes
  obtain ⟨os', hos', hrealizes'⟩ := h'.realizes
  have hspliced := hos.imp fun _ _ h => h.2
  refine ⟨⟨os ++ os', List.rel_append hos hos', fun call K ρ =>
    Expr.realizes_onto hp hspliced (hrealizes call K ρ) (hrealizes' call K ρ)⟩, fun hnone => ?_⟩
  intro α κ
  obtain ⟨hfirst, hrest⟩ := List.append_eq_nil_iff.1 hnone
  have hsplice : t.isSplice = false := by
    cases t with
    | hole o => cases hfirst
    | _ => rfl
  rw [Template.fill, hsplice, Datum.value_pair hdot, h.literal hfirst, List.drop_nil, h'.literal hrest]
  rfl

/-- the dot in front of the end of a list shows that end -/
theorem atDot {last : Datum} (k k' m : Mark) (h : Builds last t e) :
    Builds (.pair (.kw .dot k) (.pair last .nil k') m) t e :=
  ⟨h.realizes, fun ht => h.literal ht⟩

/-- what is built without operands may as well be said to be the datum -/
theorem quoted (h : Builds d t e) (ht : t.holes = []) : Builds d (.constant d) e := by
  obtain ⟨os, hos, hrealizes⟩ := h.realizes
  rw [ht] at hos
  cases hos
  refine ⟨⟨[], .nil, fun call K ρ m hsteady => ?_⟩, fun _ => rfl⟩
  rw [hrealizes call K ρ m hsteady]
  exact congrArg (fun v => Outcome.done (v, m)) (h.literal ht)

end Builds

/-- what is true of the result, if there is one -/
def Ensures {β : Type} (P : β → Prop) (x : Except Diagnostic β) : Prop := ∀ b, x = .ok b → P b

namespace Ensures

variable {β γ : Type} {P : β → Prop} {Q : γ → Prop}

theorem ok {b : β} (h : P b) : Ensures P (.ok b) := by
  rintro _ ⟨⟩
  exact h

theorem error (fault : Diagnostic) : Ensures P (.error fault) := by
  rintro _ ⟨⟩

theorem imp {P' : β → Prop} {x : Except Diagnostic β} (h : Ensures P x) (hP : ∀ b, P b → P' b) : Ensures P' x :=
  fun b hb => hP b (h b hb)

theorem bind {x : Except Diagnostic β} {f : β → Except Diagnostic γ} (hx : Ensures P x)
    (hf : ∀ b, P b → Ensures Q (f b)) :
    Ensures Q (x >>= f) := by
  cases x with
  | error fault => exact .error fault
  | ok b => exact hf b (hx b rfl)

theorem andThen {x : Analysis β} {f : β → Analysis γ} (hx : Ensures P x.outcome)
    (hf : ∀ b, P b → Ensures Q (f b).outcome) :
    Ensures Q (x >>= f).outcome := by
  rw [Traced.outcome_bind]
  exact hx.bind hf

end Ensures

namespace Analysis

/-- what the analyses of a datum build, as a quotation and as a template, a whole or the rest of a list -/
structure Quotes (d : Datum) : Prop where
  quote : Ensures (Builds d (.constant d)) d.quote
  quoteRest : Ensures (Builds d (.constant d)) d.quoteRest
  template : ∀ level inList,
    Ensures (fun p : Part => p.isSplice = (d.template level).isSplice ∧ Builds d (d.template level) p.expr)
      (template d level inList).outcome
  templateRest : ∀ level, Ensures (Builds d (d.templateRest level)) (templateRest d level).outcome

/-- a list that is not rejected for its dots does not start with one -/
theorem notAtDot_of_dottedFault? {head tail : Datum} {m : Mark} (h : (Datum.pair head tail m).dottedFault? = none) :
    Datum.NotAtDot head tail := by
  rintro k last k' rfl rfl
  cases h

theorem quote_builds {d : Datum} (ih : d.Below Quotes) : Ensures (Builds d (.constant d)) d.quote := by
  cases d with
  | pair head tail m =>
    rw [Datum.quote]
    split
    · exact .error _
    · rename_i hnone
      refine .bind ih.tail.quoteRest fun rest hrest => .bind ih.head.quote fun first hfirst => .ok ?_
      have hlist := Builds.onto (p := .element first) (notAtDot_of_dottedFault? hnone) m rfl hfirst hrest
      exact hlist.quoted rfl
  | _ => exact .ok (.constant rfl)

theorem quoteRest_builds {d : Datum} (ih : d.Below Quotes) : Ensures (Builds d (.constant d)) d.quoteRest := by
  rw [Datum.quoteRest.eq_def]
  split
  · exact .imp ih.inTail.head.quote fun e he => (he.atDot _ _ _).quoted rfl
  · rename_i head tail m hdot
    refine .bind ih.tail.quoteRest fun rest hrest => .bind ih.head.quote fun first hfirst => .ok ?_
    have hlist := Builds.onto (p := .element first) hdot m rfl hfirst hrest
    exact hlist.quoted rfl
  · rename_i hpair
    exact .ok (.constant (isPair_eq_false hpair))

theorem template_single (x : Datum) (m : Mark) (level : Nat) :
    (Datum.pair x .nil m).template level = .pair (x.template level) (.constant .nil) := by
  rw [Datum.template, Datum.templateRest] <;> simp

/-- a nested unquote or quasiquote stays as a list of its keyword and operand -/
theorem nested_builds {word : Keyword} (hword : word ≠ .dot) {x : Datum} {k m m' : Mark} {level : Nat}
    (ih : Quotes (.pair x .nil m)) :
    Ensures (fun p : Part => p.isSplice = false ∧
        Builds (.pair (.kw word k) (.pair x .nil m) m') (.nested (.kw word k) (x.template level)) p.expr)
      (template (.pair x .nil m) level false >>= fun part =>
        pure (.element (.consCall (.quotation (.kw word k)) part.expr))).outcome := by
  have hdot : Datum.NotAtDot (.kw word k) (.pair x .nil m) := by
    rintro _ _ _ ⟨⟩
    exact absurd rfl hword
  refine .andThen (ih.template level false) fun part hpart => .ok ⟨rfl, ?_⟩
  rw [template_single] at hpart
  exact Builds.onto (p := .element (.quotation (.kw word k))) hdot m' rfl (.constant rfl) hpart.2

/-- at level one the operand is analyzed -/
theorem operand_ensures (x : Datum) (m : Mark) :
    Ensures (fun e => Expr.ofDatum x = .ok e) (exprAt 0 (.pair x .nil m)).outcome :=
  fun _ he => he

theorem template_builds {d : Datum} (ih : d.Below Quotes) (level : Nat) (inList : Bool) :
    Ensures (fun p : Part => p.isSplice = (d.template level).isSplice ∧ Builds d (d.template level) p.expr)
      (template d level inList).outcome := by
  rw [template_eq]
  split
  · split
    · exact .error _
    · rename_i hnone
      obtain ⟨x, m, rfl⟩ := single_of_operandFault? hnone
      rw [Datum.template]
      split
      · exact .andThen (operand_ensures x m) fun e he => .ok ⟨rfl, .hole false he⟩
      · exact nested_builds (by simp) ih.tail
  · split
    · exact .error _
    · rename_i hnone
      obtain ⟨x, m, rfl⟩ := single_of_operandFault? hnone
      rw [Datum.template]
      split
      · split
        · exact .andThen (operand_ensures x m) fun e he => .ok ⟨rfl, .hole true he⟩
        · exact .error _
      · exact nested_builds (by simp) ih.tail
  · split
    · exact .error _
    · rename_i hnone
      obtain ⟨x, m, rfl⟩ := single_of_operandFault? hnone
      rw [Datum.template]
      exact nested_builds (by simp) ih.tail
  · rename_i head tail m hunquote hsplice hquasi
    split
    · exact .error _
    · rename_i hnone
      rw [Datum.template]
      · refine .andThen (ih.tail.templateRest level) fun rest hrest =>
          .andThen (ih.head.template level true) fun p hp => .ok ?_
        exact ⟨rfl, .onto (notAtDot_of_dottedFault? hnone) m hp.1 hp.2 hrest⟩
      · exact fun k _ _ hk _ => hunquote k hk
      · exact fun k _ _ hk _ => hsplice k hk
      · exact fun k _ _ hk _ => hquasi k hk
  · rename_i hpair
    cases d with
    | pair head tail m => exact (hpair _ _ _ rfl).elim
    | _ => exact .ok ⟨rfl, .constant rfl⟩

theorem templateRest_builds {d : Datum} (ih : d.Below Quotes) (level : Nat) :
    Ensures (Builds d (d.templateRest level)) (templateRest d level).outcome := by
  rw [templateRest.eq_def]
  split
  · exact .andThen (ih.inTail.head.template level false) fun part hpart => .ok (hpart.2.atDot _ _ _)
  · rename_i head tail m hdot
    rw [Datum.templateRest]
    · refine .andThen (ih.tail.templateRest level) fun rest hrest =>
        .andThen (ih.head.template level true) fun p hp => .ok ?_
      exact .onto hdot m hp.1 hp.2 hrest
    · exact hdot
  · rename_i hpair
    cases d with
    | pair head tail m => exact (hpair _ _ _ rfl).elim
    | _ => exact .ok (.constant rfl)

theorem quotes (d : Datum) : Quotes d :=
  d.below_induct fun _ ih => ⟨quote_builds ih, quoteRest_builds ih, template_builds ih, templateRest_builds ih⟩

end Analysis

section Forms

variable (d : Datum) (k m₁ m₂ : Mark)

theorem ofDatum_quote : Expr.ofDatum (.pair (.kw .quote k) (.pair d .nil m₁) m₂) = d.quote := by
  rw [Expr.ofDatum, Analysis.expr.eq_def]
  rfl

theorem ofDatum_quasiquote :
    Expr.ofDatum (.pair (.kw .quasiquote k) (.pair d .nil m₁) m₂) =
      (Analysis.template d 1 false).outcome >>= fun p => .ok (Expr.template 1 p.expr) := by
  rw [Expr.ofDatum, Analysis.expr.eq_def]
  exact Traced.outcome_bind (Analysis.template d 1 false) _

end Forms

/-- **Quotations and templates build what they show.** In any environment where `cons` makes pairs and `append` joins
lists: - the expression of a quotation evaluates to the value of its datum, and changes nothing; - the expression of a
quasiquotation evaluates the operands of the template, each once and from left to right, and then is the template
filled with their values. A template without operands is filled with nothing but the datum itself. -/
theorem quotation_builds (d : Datum) (k m₁ m₂ : Mark) (e : Expr) :
    (Expr.ofDatum (.pair (.kw .quote k) (.pair d .nil m₁) m₂) = .ok e →
      ∀ {α : Type} (call : ExprCalls α) (K : Expr.Closure → Prop) (ρ : Env) (m : ExprMemory α),
        Expr.ListProcedures call K ρ m → e.run call ρ m = .done (d.value, m)) ∧
    (Expr.ofDatum (.pair (.kw .quasiquote k) (.pair d .nil m₁) m₂) = .ok e →
      (∃ os, List.Forall₂ Hole.Means (d.template 1).holes os ∧
        ∀ {α : Type} (call : ExprCalls α) (K : Expr.Closure → Prop) (ρ : Env) (m : ExprMemory α),
          Expr.Steady call K ρ os m →
          e.run call ρ m = (Expr.runAll call (os.map (·.operand)) ρ m).bind fun r =>
            .done ((d.template 1).fill r.1, r.2)) ∧
      ((d.template 1).holes = [] → ∀ {α κ : Type}, ((d.template 1).fill [] : RunValue α κ) = d.value)) := by
  refine ⟨fun h => ?_, fun h => ?_⟩
  · rw [ofDatum_quote] at h
    obtain ⟨os, hos, hrealizes⟩ := ((Analysis.quotes d).quote e h).realizes
    cases hos
    exact fun call K ρ m hlists => hrealizes call K ρ m hlists
  · rw [ofDatum_quasiquote] at h
    have hbuilds : Ensures (fun e => ∃ body, e = Expr.template 1 body ∧ Builds d (d.template 1) body)
        ((Analysis.template d 1 false).outcome >>= fun p => .ok (Expr.template 1 p.expr)) :=
      .bind ((Analysis.quotes d).template 1 false) fun p hp => .ok ⟨p.expr, rfl, hp.2⟩
    obtain ⟨body, rfl, ⟨os, hos, hrealizes⟩, hliteral⟩ := hbuilds e h
    exact ⟨⟨os, hos, fun call K ρ m hsteady => hrealizes call K ρ m hsteady⟩, hliteral⟩

/-! ## Built-in list procedures -/

namespace RunValue

variable {α κ : Type}

theorem exists_embed {v : RunValue α κ} (h : v.Forall fun _ => False) :
    ∃ p : Plain α, v = embed p ∧ v.plain? = some p := by
  induction v with
  | atom v => exact ⟨.atom v, rfl, rfl⟩
  | foreign a => exact ⟨.foreign a, rfl, rfl⟩
  | pair first rest ihfirst ihrest =>
    obtain ⟨p, rfl, hp⟩ := ihfirst h.1
    obtain ⟨q, rfl, hq⟩ := ihrest h.2
    exact ⟨.pair p q, rfl, by simp only [plain?, hp, hq, Option.bind_some, Option.map_some]⟩
  | closure c => exact h.elim

theorem isList_embed (p : Plain α) : (embed p : RunValue α κ).isList = p.isList := by
  induction p with
  | atom v => cases v <;> rfl
  | pair first rest _ ih => exact ih
  | foreign a => rfl
  | closure c => exact c.elim

theorem embed_chain (p q : Plain α) :
    (embed (chain p.elements q) : RunValue α κ) = chain (embed p : RunValue α κ).elements (embed q) := by
  induction p with
  | pair first rest _ ih => exact congrArg (pair (embed first)) ih
  | closure c => exact c.elim
  | _ => rfl

end RunValue

namespace Expr

/-- built-in procedures make pairs and join lists, of values without closures -/
theorem listProcedures_callAt {α : Type} {builtins : Builtins α} {ρ : Env} {m : ExprMemory α} {f g : α} (depth : Nat)
    (hf : m.get ρ "cons" = some (.foreign f)) (hg : m.get ρ "append" = some (.foreign g))
    (hcons : ∀ a b, builtins (.foreign f) [a, b] = some (.pair a b))
    (happend : ∀ a b, a.isList = true → builtins (.foreign g) [a, b] = some (.chain a.elements b)) :
    ListProcedures (callAt builtins depth) (fun _ => False) ρ m := by
  have hcall : ∀ {c : α} {a b : ExprValue α} {p q r : Plain α} (m' : ExprMemory α), a.plain? = some p →
    b.plain? = some q →
      builtins (.foreign c) [p, q] = some r → callAt builtins depth (.foreign c) [a, b] m' = .done (.embed r, m') := by
    intro c a b p q r m' ha hb hr
    cases depth <;> simp [callAt, RunValue.answer, RunValue.plain?, ha, hb, hr, Outcome.ofOption]
  refine ⟨⟨_, hf, fun a b m' ha hb => ?_⟩, _, hg, fun a b m' ha hlist hb => ?_⟩
  · obtain ⟨p, rfl, hp⟩ := RunValue.exists_embed ha
    obtain ⟨q, rfl, hq⟩ := RunValue.exists_embed hb
    exact hcall m' hp hq (hcons p q)
  · obtain ⟨p, rfl, hp⟩ := RunValue.exists_embed ha
    obtain ⟨q, rfl, hq⟩ := RunValue.exists_embed hb
    rw [RunValue.isList_embed] at hlist
    rw [hcall m' hp hq (happend p q hlist), RunValue.embed_chain]

end Expr

theorem Hole.means_unique : Relator.RightUnique Hole.Means := by
  rintro o ⟨e, spliced⟩ ⟨e', spliced'⟩ ⟨he, hs⟩ ⟨he', hs'⟩
  rw [he] at he'
  cases he'
  cases hs.trans hs'.symm
  rfl

/-- built-in procedures that make a pair and join two lists -/
def listBuiltins : Builtins Bool
  | .foreign true, [a, b] => some (.pair a b)
  | .foreign false, [a, b] => if a.isList then some (.chain a.elements b) else none
  | _, _ => none

/-- an unquote as an element, one in a nested template and one behind the dot, and a splice; the same datum quoted -/
theorem mixed_template_builds :
    let w := fun word => Datum.kw word .unknown
    let s := fun name => Datum.sym name .unknown
    let d := Datum.ofList [s "a", .ofList [w .unquote, s "x"], .ofList [w .unquoteSplicing, s "y"],
      .ofList [w .quasiquote, .ofList [w .unquote, .ofList [w .unquote, s "x"]]], w .dot, .ofList [w .unquote, s "z"]]
    let n := fun i => (.atom (.integer i) : ExprValue Bool)
    let sym := fun name => (.atom (.symbol name) : ExprValue Bool)
    let m : ExprMemory Bool :=
      ⟨[], fun x => if x = "cons" then some (.foreign true) else if x = "append" then some (.foreign false)
        else if x = "x" then some (n 1) else if x = "y" then some (.ofList [n 2, n 3])
        else if x = "z" then some (n 4) else none⟩
    ∃ e e', Expr.ofDatum (.ofList [w .quasiquote, d]) = .ok e ∧ Expr.ofDatum (.ofList [w .quote, d]) = .ok e' ∧
      e.run (Expr.callAt listBuiltins 0) [] m = .done (.chain [sym "a", n 1, n 2, n 3,
        .ofList [sym "quasiquote", .ofList [sym "unquote", n 1]]] (n 4), m) ∧
      e'.run (Expr.callAt listBuiltins 0) [] m = .done (.chain [sym "a", .ofList [sym "unquote", sym "x"],
        .ofList [sym "unquote-splicing", sym "y"],
        .ofList [sym "quasiquote", .ofList [sym "unquote", .ofList [sym "unquote", sym "x"]]], sym "unquote"]
        (.ofList [sym "z"]), m) := by
  intro w s d n sym m
  have hlists : Expr.ListProcedures (Expr.callAt listBuiltins 0) (fun _ => False) [] m :=
    Expr.listProcedures_callAt 0 rfl rfl (fun _ _ => rfl) fun a b ha => if_pos ha
  obtain ⟨⟨os, hos, hrun⟩, -⟩ := (quotation_builds d .unknown .unknown .unknown _).2 rfl
  have hmeans : List.Forall₂ Hole.Means (d.template 1).holes
      [⟨.var "x", false⟩, ⟨.var "y", true⟩, ⟨.var "x", false⟩, ⟨.var "z", false⟩] :=
    .cons ⟨rfl, rfl⟩ (.cons ⟨rfl, rfl⟩ (.cons ⟨rfl, rfl⟩ (.cons ⟨rfl, rfl⟩ .nil)))
  cases List.right_unique_forall₂' Hole.means_unique hos hmeans
  have hsteady : Expr.Steady (Expr.callAt listBuiltins 0) (fun _ => False) []
      [⟨.var "x", false⟩, ⟨.var "y", true⟩, ⟨.var "x", false⟩, ⟨.var "z", false⟩] m :=
    .var (.var (.var (.var hlists rfl trivial nofun) rfl trivial nofun) rfl ⟨trivial, trivial, trivial⟩ fun _ =>
      rfl) rfl trivial nofun
  have hquoted := (quotation_builds d .unknown .unknown .unknown _).1 rfl (Expr.callAt listBuiltins 0) _ [] m hlists
  exact ⟨_, _, rfl, rfl, hrun _ _ _ _ hsteady, hquoted⟩

end SchemeStack
