/-
Marks tell where things are, and nothing else depends on them.

`mapMarks f` changes every mark of a datum, or of the data in an expression, by `f`. What is done with a datum does not
depend on its marks:
- it is written alike (`Datum.print_mapMarks`);
- if it has an analysis, then so it has with other marks, and that is the same expression with other marks
  (`Expr.ofDatum_mapMarks`);
- that expression is printed alike (`Expr.print_mapMarks`), and has the same core form (`Expr.lower_transfers`).

`Transfers g x y` says that `y` has the result of `x` under `g`, if `x` has a result. It goes through sequencing, and
a computation that fails is followed by any other, so no proof looks at the faults, where marks do show. `Transfers`
of the analyses of a datum in all its roles is `Remarks`; it is proved by induction on the size of the datum, a lemma
for each form.
-/
import SchemeStack.Proofs.AnalysisSoundness

namespace SchemeStack

open SchemeStack.Source

/-! ## Data -/

namespace Datum

def mapMarks (f : Mark → Mark) : Datum → Datum
  | bool b m => bool b (f m)
  | int n m => int n (f m)
  | str text m => str text (f m)
  | sym name m => sym name (f m)
  | kw word m => kw word (f m)
  | nil => nil
  | pair head tail m => pair (head.mapMarks f) (tail.mapMarks f) (f m)

theorem mapMarks_id (d : Datum) : d.mapMarks id = d := by
  induction d with
  | pair head tail m ihhead ihtail => rw [mapMarks, ihhead, ihtail, id]
  | _ => rfl

variable (f : Mark → Mark)

theorem mapMarks_eq_sym {d : Datum} {name : String} {m : Mark} (h : d.mapMarks f = sym name m) :
    ∃ m', d = sym name m' := by
  cases d <;> cases h
  exact ⟨_, rfl⟩

theorem mapMarks_eq_kw {d : Datum} {word : Keyword} {m : Mark} (h : d.mapMarks f = kw word m) :
    ∃ m', d = kw word m' := by
  cases d <;> cases h
  exact ⟨_, rfl⟩

theorem mapMarks_ne_kw {d : Datum} {word : Keyword} (h : ∀ m, d = kw word m → False) (m : Mark) :
    d.mapMarks f = kw word m → False := by
  intro hm
  obtain ⟨m', rfl⟩ := mapMarks_eq_kw f hm
  exact h m' rfl

theorem mapMarks_eq_nil {d : Datum} (h : d.mapMarks f = nil) : d = nil := by
  cases d <;> cases h
  rfl

theorem mapMarks_eq_pair {d head tail : Datum} {m : Mark} (h : d.mapMarks f = pair head tail m) :
    ∃ head' tail' m', d = pair head' tail' m' ∧ head'.mapMarks f = head ∧ tail'.mapMarks f = tail := by
  cases d <;> cases h
  exact ⟨_, _, _, rfl, rfl, rfl⟩

theorem mapMarks_eq_single {d operand : Datum} {m : Mark} (h : d.mapMarks f = pair operand nil m) :
    ∃ operand' m', d = pair operand' nil m' := by
  obtain ⟨operand', tail, m', rfl, -, htail⟩ := mapMarks_eq_pair f h
  exact ⟨operand', m', by rw [mapMarks_eq_nil f htail]⟩

theorem isList_mapMarks (d : Datum) : (d.mapMarks f).isList = d.isList := by
  cases d <;> rfl

theorem isDot_mapMarks (d : Datum) : (d.mapMarks f).isDot = d.isDot := by
  cases d with
  | kw word m => cases word <;> rfl
  | _ => rfl

theorem isProper_mapMarks (d : Datum) : (d.mapMarks f).isProper = d.isProper := by
  induction d with
  | pair head tail m _ ih => exact ih
  | _ => rfl

theorem elements_mapMarks (d : Datum) : (d.mapMarks f).elements = d.elements.map (mapMarks f) := by
  induction d with
  | pair head tail m _ ih => exact congrArg (head.mapMarks f :: ·) ih
  | _ => rfl

theorem ending_mapMarks (d : Datum) : (d.mapMarks f).ending = d.ending.mapMarks f := by
  induction d with
  | pair head tail m _ ih => exact ih
  | _ => rfl

theorem improperEnd?_mapMarks (d : Datum) : (d.mapMarks f).improperEnd? = d.improperEnd?.map (mapMarks f) := by
  rw [improperEnd?, improperEnd?, isProper_mapMarks, ending_mapMarks]
  split
  · rfl
  · rfl

theorem isDot_comp_mapMarks : isDot ∘ mapMarks f = isDot := funext (isDot_mapMarks f)

theorem dottedFault?_mapMarks {d : Datum} (h : d.dottedFault? = none) : (d.mapMarks f).dottedFault? = none := by
  rw [dottedFault?_eq] at h ⊢
  rw [elements_mapMarks, List.findIdx?_map, isDot_comp_mapMarks, isProper_mapMarks, List.length_map]
  split at h
  · rfl
  · split at h
    · cases h
    · exact if_neg ‹_›

/-- a datum is written alike, as a whole and as the rest of a list -/
theorem print_mapMarks_all (d : Datum) :
    (d.mapMarks f).print = d.print ∧ ∀ started, (d.mapMarks f).printTail started = d.printTail started := by
  induction d using below_induct with
  | step d ih =>
    cases d with
    | pair head tail m =>
      refine ⟨?_, fun started => by rw [mapMarks, printTail, printTail, ih.head.1, ih.tail.2]⟩
      by_cases hsingle : ∃ word k operand k', head = kw word k ∧ tail = pair operand nil k'
      · obtain ⟨word, k, operand, k', rfl, rfl⟩ := hsingle
        change (pair (kw word (f k)) (pair (operand.mapMarks f) nil (f k')) (f m)).print = _
        rw [print, print, ih.inTail.head.1]
      · have hmapped : ∀ word k operand k', head.mapMarks f = kw word k →
          tail.mapMarks f = pair operand nil k' → False := by
          intro word k operand k' hhead htail
          obtain ⟨_, rfl⟩ := mapMarks_eq_kw f hhead
          obtain ⟨_, _, rfl⟩ := mapMarks_eq_single f htail
          exact hsingle ⟨_, _, _, _, rfl, rfl⟩
        rw [mapMarks, print, print, ih.head.1, ih.tail.2]
        · exact fun word k operand k' hhead htail => hsingle ⟨word, k, operand, k', hhead, htail⟩
        · exact hmapped
    | _ => exact ⟨rfl, fun _ => rfl⟩

theorem print_mapMarks (d : Datum) : (d.mapMarks f).print = d.print := (print_mapMarks_all f d).1

end Datum

/-! ## Expressions -/

namespace Expr

mutual

/-- the expression with every mark of the data in it changed -/
def mapMarks (f : Mark → Mark) : Expr → Expr
  | literal d => literal (d.mapMarks f)
  | var name => var name
  | quotation d => quotation (d.mapMarks f)
  | call operator operands => call (operator.mapMarks f) (mapMarksAll f operands)
  | lambda params rest body => lambda params rest (mapMarksAll f body)
  | branch t c none => branch (t.mapMarks f) (c.mapMarks f) none
  | branch t c (some a) => branch (t.mapMarks f) (c.mapMarks f) (some (a.mapMarks f))
  | assign name value => assign name (value.mapMarks f)
  | letIn bindings body => letIn (mapMarksBindings f bindings) (mapMarksAll f body)
  | letRec bindings body => letRec (mapMarksBindings f bindings) (mapMarksAll f body)
  | namedLet name bindings body => namedLet name (mapMarksBindings f bindings) (mapMarksAll f body)
  | sequence body => sequence (mapMarksAll f body)
  | cond clauses none => cond (mapMarksClauses f clauses) none
  | cond clauses (some body) => cond (mapMarksClauses f clauses) (some (mapMarksAll f body))
  | conj body => conj (mapMarksAll f body)
  | disj body => disj (mapMarksAll f body)
  | template depth body => template depth (body.mapMarks f)

def mapMarksAll (f : Mark → Mark) : List Expr → List Expr
  | [] => []
  | e :: es => e.mapMarks f :: mapMarksAll f es

def mapMarksBindings (f : Mark → Mark) : List (Binding Expr) → List (Binding Expr)
  | [] => []
  | ⟨name, value⟩ :: bs => ⟨name, value.mapMarks f⟩ :: mapMarksBindings f bs

def mapMarksClauses (f : Mark → Mark) : List (Clause Expr) → List (Clause Expr)
  | [] => []
  | ⟨test, body⟩ :: cs => ⟨test.mapMarks f, mapMarksAll f body⟩ :: mapMarksClauses f cs

end

variable (f : Mark → Mark)

theorem isOperator_mapMarks (e : Expr) : (e.mapMarks f).isOperator = e.isOperator := by
  match e with
  | branch _ _ none | branch _ _ (some _) | cond _ none | cond _ (some _) => rfl
  | literal _ | var _ | quotation _ | call _ _ | lambda _ _ _ | assign _ _ | letIn _ _ | letRec _ _ | namedLet _ _ _
  | sequence _ | conj _ | disj _ | template _ _ => rfl

theorem names_mapMarksBindings (bs : List (Binding Expr)) : (mapMarksBindings f bs).map (·.name) = bs.map (·.name) := by
  induction bs with
  | nil => rfl
  | cons b bs ih => exact congrArg (b.name :: ·) ih

mutual

theorem print_mapMarks (e : Expr) : (e.mapMarks f).print = e.print := by
  match e with
  | literal d | quotation d =>
    unfold mapMarks print
    rw [Datum.print_mapMarks f d]
  | var name => rfl
  | call operator [] =>
    unfold mapMarks mapMarksAll print
    rw [print_mapMarks operator]
  | call operator (a :: as) =>
    unfold mapMarks mapMarksAll print
    rw [print_mapMarks operator, print_mapMarks a, printAll_mapMarks as]
  | branch t c none =>
    unfold mapMarks print
    rw [print_mapMarks t, print_mapMarks c]
  | branch t c (some a) =>
    unfold mapMarks print
    rw [print_mapMarks t, print_mapMarks c, print_mapMarks a]
  | assign _ e | template _ e =>
    unfold mapMarks print
    rw [print_mapMarks e]
  | letIn bs body | letRec bs body | namedLet _ bs body =>
    unfold mapMarks print
    rw [printBindings_mapMarks bs, printAll_mapMarks body]
  | lambda _ _ body | sequence body | conj body | disj body =>
    unfold mapMarks print
    rw [printAll_mapMarks body]
  | cond cs none =>
    unfold mapMarks print
    rw [printClauses_mapMarks cs]
  | cond cs (some body) =>
    unfold mapMarks print
    rw [printClauses_mapMarks cs, printAll_mapMarks body]

theorem printAll_mapMarks (es : List Expr) : printAll (mapMarksAll f es) = printAll es := by
  match es with
  | [] => rfl
  | e :: es => rw [mapMarksAll, printAll, printAll, print_mapMarks e, printAll_mapMarks es]

theorem printBindings_mapMarks (bs : List (Binding Expr)) :
    printBindings (mapMarksBindings f bs) = printBindings bs := by
  match bs with
  | [] => rfl
  | ⟨name, value⟩ :: bs =>
    rw [mapMarksBindings, printBindings, printBindings, print_mapMarks value, printBindings_mapMarks bs]

theorem printClauses_mapMarks (cs : List (Clause Expr)) : printClauses (mapMarksClauses f cs) = printClauses cs := by
  match cs with
  | [] => rfl
  | ⟨test, body⟩ :: cs =>
    rw [mapMarksClauses, printClauses, printClauses, print_mapMarks test, printAll_mapMarks body,
      printClauses_mapMarks cs]

end

end Expr

/-! ## Following -/

/-- if the first computation has a result, then the other has that result under `g` -/
def Transfers {ε α β : Type} (g : α → β) (x : Except ε α) (y : Except ε β) : Prop := ∀ a, x = .ok a → y = .ok (g a)

namespace Transfers

variable {ε α β γ δ : Type} {g : α → β} {h : γ → δ} {x : Except ε α} {y : Except ε β}

theorem ok (a : α) : Transfers g (.ok a : Except ε α) (.ok (g a)) := by
  rintro _ ⟨⟩
  rfl

theorem error (fault : ε) : Transfers g (.error fault) y := by
  rintro _ ⟨⟩

theorem bind {next : α → Except ε γ} {next' : β → Except ε δ} (hx : Transfers g x y)
    (hnext : ∀ a, Transfers h (next a) (next' (g a))) : Transfers h (x >>= next) (y >>= next') := by
  cases x with
  | error fault => exact .error fault
  | ok a =>
    rw [hx a rfl]
    exact hnext a

theorem refl (x : Except ε α) : Transfers id x x := fun _ => id

end Transfers

namespace Expr

variable (f : Mark → Mark)

mutual

/-- the core form of an expression does not depend on marks -/
theorem lower_transfers (e : Expr) : Transfers id e.lower (e.mapMarks f).lower := by
  match e with
  | literal d | quotation d =>
    cases d with
    | pair head tail m => exact .error _
    | _ => exact .ok _
  | var name => exact .ok _
  | call operator operands =>
    rw [mapMarks, lower, lower]
    exact .bind (lower_transfers operator) fun _ => .bind (lowerAll_transfers operands) fun _ => .ok _
  | lambda params rest body =>
    rw [mapMarks, lower, lower]
    exact .bind (lowerAll_transfers body) fun _ => .bind (.refl _) fun _ => .ok _
  | branch t c none =>
    rw [mapMarks, lower, lower]
    exact .bind (lower_transfers t) fun _ => .bind (lower_transfers c) fun _ => .ok _
  | branch t c (some a) =>
    rw [mapMarks, lower, lower]
    exact .bind (lower_transfers a) fun _ => .bind (lower_transfers t) fun _ => .bind (lower_transfers c) fun _ => .ok _
  | assign name value =>
    rw [mapMarks, lower, lower]
    exact .bind (lower_transfers value) fun _ => .ok _
  | letIn bindings body =>
    rw [mapMarks, lower, lower, names_mapMarksBindings]
    refine .bind (lowerValues_transfers bindings) fun _ => .bind (lowerAll_transfers body) fun _ => ?_
    exact .bind (.refl _) fun _ => .ok _
  | letRec bindings body =>
    rw [mapMarks, lower, lower, names_mapMarksBindings]
    refine .bind (lowerAssigns_transfers bindings) fun _ => .bind (lowerAll_transfers body) fun _ => ?_
    exact .bind (.refl _) fun _ => .ok _
  | namedLet name bindings [] => exact .error _
  | namedLet name bindings (first :: others) =>
    rw [mapMarks, mapMarksAll, lower, lower, names_mapMarksBindings]
    refine .bind (lower_transfers first) fun _ => .bind (lowerAll_transfers others) fun _ => .bind (.refl _) fun _ => ?_
    exact .bind (lowerValues_transfers bindings) fun _ => .bind (.refl _) fun _ => .ok _
  | sequence body =>
    rw [mapMarks, lower, lower]
    exact .bind (lowerAll_transfers body) fun _ => .refl _
  | cond clauses none | cond clauses (some []) =>
    rw [mapMarks, lower]
    exact lowerClauses_transfers _ clauses
  | cond clauses (some (first :: others)) =>
    rw [mapMarks, mapMarksAll, lower, lower]
    refine .bind (lower_transfers first) fun _ => .bind (lowerAll_transfers others) fun _ => ?_
    exact .bind (.refl _) fun otherwise => lowerClauses_transfers otherwise clauses
  | conj [] => exact .ok _
  | conj (first :: others) =>
    rw [mapMarks, mapMarksAll, lower, lower]
    exact .bind (lowerConj_transfers others) fun _ => .bind (lower_transfers first) fun _ => .ok _
  | disj body =>
    rw [mapMarks, lower, lower]
    exact lowerDisj_transfers body
  | template depth body =>
    rw [mapMarks, lower, lower]
    exact lower_transfers body

theorem lowerAll_transfers (es : List Expr) : Transfers id (lowerAll es) (lowerAll (mapMarksAll f es)) := by
  match es with
  | [] => exact .ok _
  | e :: es =>
    rw [mapMarksAll, lowerAll, lowerAll]
    exact .bind (lower_transfers e) fun _ => .bind (lowerAll_transfers es) fun _ => .ok _

theorem lowerValues_transfers (bs : List (Binding Expr)) :
    Transfers id (lowerValues bs) (lowerValues (mapMarksBindings f bs)) := by
  match bs with
  | [] => exact .ok _
  | ⟨name, value⟩ :: bs =>
    rw [mapMarksBindings, lowerValues, lowerValues]
    exact .bind (lower_transfers value) fun _ => .bind (lowerValues_transfers bs) fun _ => .ok _

theorem lowerAssigns_transfers (bs : List (Binding Expr)) :
    Transfers id (lowerAssigns bs) (lowerAssigns (mapMarksBindings f bs)) := by
  match bs with
  | [] => exact .ok _
  | ⟨name, value⟩ :: bs =>
    rw [mapMarksBindings, lowerAssigns, lowerAssigns]
    exact .bind (lower_transfers value) fun _ => .bind (lowerAssigns_transfers bs) fun _ => .ok _

theorem lowerClauses_transfers (otherwise : Core) (cs : List (Clause Expr)) :
    Transfers id (lowerClauses otherwise cs) (lowerClauses otherwise (mapMarksClauses f cs)) := by
  match cs with
  | [] => exact .ok _
  | ⟨test, body⟩ :: cs =>
    rw [mapMarksClauses, lowerClauses, lowerClauses]
    refine .bind (lowerClauses_transfers otherwise cs) fun _ => .bind (lower_transfers test) fun _ => ?_
    exact .bind (lowerAll_transfers body) fun _ => .bind (.refl _) fun _ => .ok _

theorem lowerConj_transfers (es : List Expr) : Transfers id (lowerConj es) (lowerConj (mapMarksAll f es)) := by
  match es with
  | [] => exact .ok _
  | e :: es =>
    rw [mapMarksAll, lowerConj, lowerConj]
    exact .bind (lowerConj_transfers es) fun _ => .bind (lower_transfers e) fun _ => .ok _

theorem lowerDisj_transfers (es : List Expr) : Transfers id (lowerDisj es) (lowerDisj (mapMarksAll f es)) := by
  match es with
  | [] => exact .ok _
  | e :: es =>
    rw [mapMarksAll, lowerDisj, lowerDisj]
    exact .bind (lowerDisj_transfers es) fun _ => .bind (lower_transfers e) fun _ => .ok _

end

end Expr

/-! ## Analysis -/

def Part.mapMarks (f : Mark → Mark) : Part → Part
  | element e => element (e.mapMarks f)
  | splice e => splice (e.mapMarks f)

theorem Part.expr_mapMarks (f : Mark → Mark) (p : Part) : (p.mapMarks f).expr = p.expr.mapMarks f := by
  cases p <;> rfl

theorem Part.onto_mapMarks (f : Mark → Mark) (p : Part) (rest : Expr) :
    (p.onto rest).mapMarks f = (p.mapMarks f).onto (rest.mapMarks f) := by
  cases p <;> rfl

namespace Analysis

variable {α β γ δ : Type} {g : α → β} {h : γ → δ} (f : Mark → Mark)

/-- `Transfers`, for two analyses -/
def Carries (g : α → β) (x : Analysis α) (y : Analysis β) : Prop := Transfers g x.outcome y.outcome

theorem Carries.pure (a : α) : Carries g (pure a) (pure (g a)) := .ok a

theorem Carries.reject {cause : Cause} {form : Datum} {y : Analysis β} : Carries g (reject cause form) y := .error _

theorem Carries.bind {x : Analysis α} {y : Analysis β} {next : α → Analysis γ} {next' : β → Analysis δ}
    (hx : Carries g x y) (hnext : ∀ a, Carries h (next a) (next' (g a))) : Carries h (x >>= next) (y >>= next') := by
  unfold Carries
  rw [Traced.outcome_bind, Traced.outcome_bind]
  exact Transfers.bind hx hnext

theorem Carries.map {make : α → γ} {x y : Analysis α} (hx : Carries id x y) : Carries id (make <$> x) (make <$> y) := by
  unfold Carries
  rw [Traced.outcome_map, Traced.outcome_map]
  unfold Carries at hx
  generalize x.outcome = outcome at hx
  cases outcome with
  | error fault => exact .error fault
  | ok a =>
    rw [hx a rfl]
    exact .ok _

theorem note_carries (d d' : Datum) : Carries id (.note d) (.note d') := .ok ()

theorem checkProper_carries (form : Datum) : Carries id (checkProper form) (checkProper (form.mapMarks f)) := by
  unfold checkProper
  rw [Datum.isProper_mapMarks]
  split
  · exact .pure ()
  · exact .reject

theorem identifier_carries (d : Datum) : Carries id (identifier d) (identifier (d.mapMarks f)) := by
  cases d with
  | sym name m => exact .pure name
  | _ => exact .reject

theorem miscounted_carries {form args : Datum} {least most : Nat} {y : Analysis β} :
    Carries g (miscounted form args least most) y := by
  unfold miscounted
  dsimp only
  split
  · exact .reject
  · exact .reject

theorem paramNames_carries (ps ps' : Datum) (rest : Option String) (ds : List Datum) :
    Carries id (paramNames ps rest ds) (paramNames ps' rest (ds.map (Datum.mapMarks f))) := by
  fun_induction paramNames ps rest ds with
  | case1 => exact .pure _
  | case2 => exact .reject
  | case3 => exact .bind (identifier_carries f _) fun _ => .pure _
  | case4 => exact .bind (identifier_carries f _) fun _ => .reject
  | case5 d ds _ _ _ ih =>
    -- an element that is not a dot is a name, or there is nothing to show
    cases d with
    | sym name m => exact .bind (.pure name) fun _ => .bind ih fun _ => .pure _
    | _ => exact Transfers.error _

/-- the rest parameter that the end of an improper list names -/
def restParam : Option Datum → Analysis (Option String)
  | none => pure none
  | some last => some <$> identifier last

theorem restParam_carries (last? : Option Datum) :
    Carries id (restParam last?) (restParam (last?.map (Datum.mapMarks f))) := by
  cases last? with
  | none => exact .pure none
  | some last => exact .map (identifier_carries f last)

theorem params_pair {d : Datum} (h : d.isPair = true) :
    params d = restParam d.improperEnd? >>= fun rest => paramNames d rest d.elements := by
  cases d with
  | pair head tail m =>
    rw [params]
    cases (Datum.pair head tail m).improperEnd? <;> rfl
  | _ => cases h

theorem params_carries (d : Datum) : Carries id (params d) (params (d.mapMarks f)) := by
  cases d with
  | nil => exact .pure _
  | sym name m => exact .pure _
  | pair head tail m =>
    rw [params_pair rfl, params_pair (d := Datum.mapMarks f _) rfl, Datum.elements_mapMarks,
      Datum.improperEnd?_mapMarks]
    exact .bind (restParam_carries f _) fun rest => paramNames_carries f _ _ rest _
  | _ => exact .reject

theorem checkBindings_carries (d : Datum) : Carries id (checkBindings d) (checkBindings (d.mapMarks f)) := by
  rw [checkBindings_eq, checkBindings_eq, Datum.isList_mapMarks]
  split
  · exact checkProper_carries f d
  · exact .reject

theorem checkBody_carries (form form' body : Datum) :
    Carries id (checkBody form body.elements) (checkBody form' (body.mapMarks f).elements) := by
  cases body with
  | pair head tail m => exact .pure ()
  | _ => exact .reject

theorem operandFault?_mapMarks {form args : Datum} {word : Keyword} (h : operandFault? form word args = none)
    (form' : Datum) :
    operandFault? form' word (args.mapMarks f) = none := by
  unfold operandFault? at h ⊢
  rw [Datum.isList_mapMarks, Datum.isProper_mapMarks, Datum.elements_mapMarks, List.length_map]
  split at h
  · cases h
  · split at h
    · rw [if_neg ‹_›, if_pos ‹_›]
    · cases h

theorem nestLets_mapMarks (body : List Expr) (bindings : List (Binding Expr)) :
    (nestLets body bindings).mapMarks f = nestLets (Expr.mapMarksAll f body) (Expr.mapMarksBindings f bindings) := by
  fun_induction nestLets body bindings with
  | case1 => rfl
  | case2 b => rfl
  | case3 b bs hbs ih =>
    cases bs with
    | nil => exact absurd rfl hbs
    | cons b' bs => 
      rw [Expr.mapMarks, Expr.mapMarksAll, Expr.mapMarksAll, ih]
      rfl

theorem letForm_mapMarks (word : Keyword) (bindings : List (Binding Expr)) (body : List Expr) :
    (letForm word bindings body).mapMarks f =
      letForm word (Expr.mapMarksBindings f bindings) (Expr.mapMarksAll f body) := by
  unfold letForm
  split
  · exact nestLets_mapMarks f body bindings
  · rfl
  · rfl

/-- the analyses of a datum with other marks, in each of its roles -/
structure Remarks (d : Datum) : Prop where
  expr : Carries (Expr.mapMarks f) (expr d) (expr (d.mapMarks f))
  all : Carries (Expr.mapMarksAll f) (all d) (all (d.mapMarks f))
  bindings : Carries (Expr.mapMarksBindings f) (bindings d) (bindings (d.mapMarks f))
  clauses : Carries (Prod.map (Expr.mapMarksClauses f) (Option.map (Expr.mapMarksAll f))) (clauses d)
    (clauses (d.mapMarks f))
  template : ∀ depth inList, Carries (Part.mapMarks f) (template d depth inList) (template (d.mapMarks f) depth inList)
  templateRest : ∀ depth, Carries (Expr.mapMarks f) (templateRest d depth) (templateRest (d.mapMarks f) depth)
  quote : Transfers (Expr.mapMarks f) d.quote (d.mapMarks f).quote
  quoteRest : Transfers (Expr.mapMarks f) d.quoteRest (d.mapMarks f).quoteRest

variable {f} {k m : Mark} {args : Datum}

theorem body_carries (form form' : Datum) {body : Datum} {next : List Expr → Analysis γ}
    {next' : List Expr → Analysis δ}
    (hbody : Remarks f body) (hnext : ∀ es, Carries h (next es) (next' (Expr.mapMarksAll f es))) :
    Carries h (checkBody form body.elements >>= fun _ => all body >>= next)
      (checkBody form' (body.mapMarks f).elements >>= fun _ => all (body.mapMarks f) >>= next') :=
  .bind (checkBody_carries f form form' body) fun _ => .bind hbody.all hnext

theorem lambda_carries (ih : args.Below (Remarks f)) :
    Carries (Expr.mapMarks f) (expr (.pair (.kw .lambda k) args m))
      (expr ((Datum.pair (.kw .lambda k) args m).mapMarks f)) := by
  rw [expr_special, Datum.mapMarks, Datum.mapMarks, expr_special]
  refine .bind (checkProper_carries f _) fun _ => ?_
  dsimp only [special]
  split
  · refine .bind (params_carries f _) fun _ => ?_
    exact body_carries _ _ ih.tail fun es => .pure _
  · exact .reject

/-- the forms that bind names have their bindings and their body in common -/
theorem bindingForm_carries (form form' : Datum) {bs body : Datum} {make : List (Binding Expr) → List Expr → Expr}
    (hbs : Remarks f bs) (hbody : Remarks f body)
    (hmake : ∀ bs es, (make bs es).mapMarks f = make (Expr.mapMarksBindings f bs) (Expr.mapMarksAll f es)) :
    Carries (Expr.mapMarks f)
      (checkBindings bs >>= fun _ => bindings bs >>= fun bs =>
        checkBody form body.elements >>= fun _ => all body >>= fun es => pure (make bs es))
      (checkBindings (bs.mapMarks f) >>= fun _ => bindings (bs.mapMarks f) >>= fun bs =>
        checkBody form' (body.mapMarks f).elements >>= fun _ => all (body.mapMarks f) >>= fun es =>
          pure (make bs es)) := by
  refine .bind (checkBindings_carries f bs) fun _ => .bind hbs.bindings fun bs' => body_carries _ _ hbody fun es => ?_
  rw [← hmake]
  exact .pure _

theorem let_carries {word : Keyword} (hword : word = .letWord ∨ word = .letStar ∨ word = .letrec)
    (ih : args.Below (Remarks f)) :
    Carries (Expr.mapMarks f) (expr (.pair (.kw word k) args m))
      (expr ((Datum.pair (.kw word k) args m).mapMarks f)) := by
  rcases hword with rfl | rfl | rfl
  all_goals
    rw [expr_special, Datum.mapMarks, Datum.mapMarks, expr_special]
    refine .bind (checkProper_carries f _) fun _ => ?_
    dsimp only [special]
    split
    · exact bindingForm_carries _ _ ih.inTail.head ih.inTail.tail fun _ _ => rfl
    · exact .reject
    · rename_i bs body m' hloop hname
      -- the first argument is not a name, and so it is not with other marks
      cases bs with
      | sym name m => exact absurd rfl (hname name m)
      | _ => exact bindingForm_carries _ _ ih.head ih.tail (letForm_mapMarks f _)
    · exact .reject

theorem if_carries (ih : args.Below (Remarks f)) :
    Carries (Expr.mapMarks f) (expr (.pair (.kw .ifWord k) args m))
      (expr ((Datum.pair (.kw .ifWord k) args m).mapMarks f)) := by
  rw [expr_special, Datum.mapMarks, Datum.mapMarks, expr_special]
  refine .bind (checkProper_carries f _) fun _ => ?_
  dsimp only [special]
  split
  · exact .bind ih.head.expr fun _ => .bind ih.inTail.head.expr fun _ => .pure _
  · refine .bind ih.head.expr fun _ => .bind ih.inTail.head.expr fun _ => ?_
    exact .bind ih.inTail.inTail.head.expr fun _ => .pure _
  · exact miscounted_carries

theorem define_carries (ih : args.Below (Remarks f)) :
    Carries (Expr.mapMarks f) (expr (.pair (.kw .define k) args m))
      (expr ((Datum.pair (.kw .define k) args m).mapMarks f)) := by
  rw [expr_special, Datum.mapMarks, Datum.mapMarks, expr_special]
  refine .bind (checkProper_carries f _) fun _ => ?_
  dsimp only [special]
  split
  · refine .bind (identifier_carries f _) fun _ => .bind (params_carries f _) fun _ => ?_
    exact body_carries _ _ ih.tail fun es => .pure _
  · exact .bind ih.inTail.head.expr fun _ => .pure _
  · exact miscounted_carries
  · exact .reject
  · exact .reject

theorem set_carries (ih : args.Below (Remarks f)) :
    Carries (Expr.mapMarks f) (expr (.pair (.kw .set k) args m))
      (expr ((Datum.pair (.kw .set k) args m).mapMarks f)) := by
  rw [expr_special, Datum.mapMarks, Datum.mapMarks, expr_special]
  refine .bind (checkProper_carries f _) fun _ => ?_
  dsimp only [special]
  split
  · exact .bind (identifier_carries f _) fun _ => .bind ih.inTail.head.expr fun _ => .pure _
  · exact miscounted_carries

theorem cond_carries (ih : Remarks f args) :
    Carries (Expr.mapMarks f) (expr (.pair (.kw .cond k) args m))
      (expr ((Datum.pair (.kw .cond k) args m).mapMarks f)) := by
  rw [expr_special, Datum.mapMarks, Datum.mapMarks, expr_special]
  refine .bind (checkProper_carries f _) fun _ => .bind ih.clauses fun r => ?_
  obtain ⟨clauses, _ | body⟩ := r
  · exact .pure _
  · exact .pure _

/-- a form that is analyzed as a keyword tells -/
theorem special_carries (word : Keyword) (hargs : Remarks f args) (ih : args.Below (Remarks f)) :
    Carries (Expr.mapMarks f) (expr (.pair (.kw word k) args m))
      (expr ((Datum.pair (.kw word k) args m).mapMarks f)) := by
  have hproper := checkProper_carries f (.pair (.kw word k) args m)
  cases word with
  | lambda => exact lambda_carries ih
  | letWord => exact let_carries (Or.inl rfl) ih
  | letStar => exact let_carries (Or.inr (Or.inl rfl)) ih
  | letrec => exact let_carries (Or.inr (Or.inr rfl)) ih
  | ifWord => exact if_carries ih
  | cond => exact cond_carries hargs
  | define => exact define_carries ih
  | set => exact set_carries ih
  | begin | delay =>
    rw [expr_special, Datum.mapMarks, Datum.mapMarks, expr_special]
    exact .bind hproper fun _ => body_carries _ _ hargs fun _ => .pure _
  | and | or =>
    rw [expr_special, Datum.mapMarks, Datum.mapMarks, expr_special]
    exact .bind hproper fun _ => .bind hargs.all fun _ => .pure _
  | quote =>
    rw [expr_special, Datum.mapMarks, Datum.mapMarks, expr_special]
    refine .bind hproper fun _ => ?_
    dsimp only [special]
    split
    · exact ih.head.quote
    · exact miscounted_carries
  | quasiquote =>
    rw [expr_special, Datum.mapMarks, Datum.mapMarks, expr_special]
    refine .bind hproper fun _ => ?_
    dsimp only [special]
    split
    · refine .bind (ih.head.template 1 false) fun p => ?_
      rw [Part.expr_mapMarks]
      exact .pure _
    · exact miscounted_carries
  | _ =>
    rw [expr_special, Datum.mapMarks, Datum.mapMarks, expr_special]
    exact .bind hproper fun _ => .reject

/-- a list whose head is not a keyword is a call -/
theorem call_carries {head : Datum} (hhead : Remarks f head) (hargs : Remarks f args)
    (hkw : ∀ word k, head ≠ .kw word k) :
    Carries (Expr.mapMarks f) (expr (.pair head args m)) (expr ((Datum.pair head args m).mapMarks f)) := by
  have hdots : (args.mapMarks f).elements.find? Datum.isDot = (args.elements.find? Datum.isDot).map
      (Datum.mapMarks f) := by
    rw [Datum.elements_mapMarks, List.find?_map, Datum.isDot_comp_mapMarks]
  rw [expr_call args m hkw, Datum.mapMarks, expr_call (args.mapMarks f) (f m) fun word =>
    Datum.mapMarks_ne_kw f (hkw word)]
  refine .bind (checkProper_carries f (.pair head args m)) fun _ => .bind hhead.expr fun operator => ?_
  rw [Expr.isOperator_mapMarks, hdots]
  split
  · split
    · exact .reject
    · rename_i hnone
      rw [hnone]
      exact .bind hargs.all fun es => .pure (Expr.call operator es)
  · exact .reject

theorem expr_carries {d : Datum} (ih : d.Below (Remarks f)) :
    Carries (Expr.mapMarks f) (expr d) (expr (d.mapMarks f)) := by
  cases d with
  | nil => exact .reject
  | pair head args m =>
    cases head with
    | kw word k => exact special_carries word ih.tail ih.inTail
    | _ => exact call_carries ih.head ih.tail (by simp)
  | _ => exact .pure _

/-! ## Chains -/

theorem all_carries {d : Datum} (ih : d.Below (Remarks f)) :
    Carries (Expr.mapMarksAll f) (all d) (all (d.mapMarks f)) := by
  cases d with
  | pair head tail m => exact .bind ih.head.expr fun _ => .bind ih.tail.all fun _ => .pure _
  | _ => exact .pure _

theorem bindings_carries {d : Datum} (ih : d.Below (Remarks f)) :
    Carries (Expr.mapMarksBindings f) (bindings d) (bindings (d.mapMarks f)) := by
  rw [bindings_eq]
  split
  · simp only [Datum.mapMarks, bindings_named]
    exact .bind ih.inHead.inTail.head.expr fun _ => .bind ih.tail.bindings fun _ => .pure _
  · rename_i malformed rest m hmalformed
    have hmapped : ∀ name k value k' k'', malformed.mapMarks f = .pair (.sym name k) (.pair value .nil k') k'' →
        False := by
      intro name k value k' k'' hbinding
      obtain ⟨_, _, _, rfl, hname, hvalue⟩ := Datum.mapMarks_eq_pair f hbinding
      obtain ⟨_, rfl⟩ := Datum.mapMarks_eq_sym f hname
      obtain ⟨_, _, rfl⟩ := Datum.mapMarks_eq_single f hvalue
      exact hmalformed _ _ _ _ _ rfl
    rw [Datum.mapMarks, bindings_malformed _ _ hmapped]
    exact .bind (note_carries _ _) fun _ => ih.tail.bindings
  · rename_i hpair
    cases d with
    | pair head tail m => exact (hpair _ _ _ rfl).elim
    | _ => exact .pure _

theorem clauses_carries {d : Datum} (ih : d.Below (Remarks f)) :
    Carries (Prod.map (Expr.mapMarksClauses f) (Option.map (Expr.mapMarksAll f))) (clauses d)
      (clauses (d.mapMarks f)) := by
  rw [clauses_eq]
  split
  · rw [Datum.mapMarks, Datum.mapMarks, Datum.mapMarks, clauses, arguments_bind]
    exact .bind (checkProper_carries f _) fun _ => .bind ih.inHead.tail.all fun es => .pure ([], some es)
  · rename_i t body m rest m' helse
    rw [Datum.mapMarks, Datum.mapMarks, clauses, arguments_bind]
    · refine .bind (checkProper_carries f _) fun _ => .bind ih.inHead.head.expr fun t => ?_
      exact body_carries _ _ ih.inHead.tail fun es => .bind ih.tail.clauses fun r => .pure (⟨t, es⟩ :: r.1, r.2)
    · exact Datum.mapMarks_ne_kw f helse
  · rename_i helse hclause
    cases d with
    | pair head tail m =>
      cases head with
      | pair t body m' => exact (hclause _ _ _ _ _ rfl).elim
      | _ => exact .pure ([], none)
    | _ => exact .pure ([], none)

/-! ## Quotations and templates -/

theorem quote_transfers {d : Datum} (ih : d.Below (Remarks f)) :
    Transfers (Expr.mapMarks f) d.quote (d.mapMarks f).quote := by
  cases d with
  | pair head tail m =>
    rw [Datum.quote, Datum.mapMarks, Datum.quote, ← Datum.mapMarks]
    split
    · exact .error _
    · rename_i hnone
      rw [Datum.dottedFault?_mapMarks f hnone]
      exact .bind ih.tail.quoteRest fun _ => .bind ih.head.quote fun _ => .ok _
  | _ => exact .ok _

theorem isDotted_mapMarks {head tail : Datum}
    (hdot : ∀ k last k', head = .kw .dot k → tail = .pair last .nil k' → False) :
    ∀ k last k', head.mapMarks f = .kw .dot k → tail.mapMarks f = .pair last .nil k' → False := by
  intro k last k' hhead htail
  obtain ⟨_, rfl⟩ := Datum.mapMarks_eq_kw f hhead
  obtain ⟨_, _, rfl⟩ := Datum.mapMarks_eq_single f htail
  exact hdot _ _ _ rfl rfl

theorem quoteRest_transfers {d : Datum} (ih : d.Below (Remarks f)) :
    Transfers (Expr.mapMarks f) d.quoteRest (d.mapMarks f).quoteRest := by
  rw [Datum.quoteRest.eq_def]
  split
  · exact ih.inTail.head.quote
  · rename_i head tail m hdot
    rw [Datum.mapMarks, Datum.quoteRest]
    · exact .bind ih.tail.quoteRest fun _ => .bind ih.head.quote fun _ => .ok _
    · exact isDotted_mapMarks hdot
  · rename_i hpair
    cases d with
    | pair head tail m => exact (hpair _ _ _ rfl).elim
    | _ => exact .ok _

/-- a nested unquote or quasiquote stays as a list of its keyword and operand -/
theorem nested_carries {word : Keyword} {depth : Nat} (ih : Remarks f args) :
    Carries (Part.mapMarks f)
      (template args depth false >>= fun part => pure (.element (.consCall (.quotation (.kw word k)) part.expr)))
      (template (args.mapMarks f) depth false >>= fun part =>
        pure (.element (.consCall (.quotation (.kw word (f k))) part.expr))) := by
  refine .bind (ih.template depth false) fun part => ?_
  rw [Part.expr_mapMarks]
  exact .pure _

/-- an element of a list in a template, in front of the rest of the list -/
theorem listed_carries {head tail : Datum} {h : γ → γ} (make : Expr → γ) (depth : Nat) (hhead : Remarks f head)
    (htail : Remarks f tail) (hmake : ∀ e, h (make e) = make (e.mapMarks f)) :
    Carries h
      (templateRest tail depth >>= fun rest => template head depth true >>= fun part => pure (make (part.onto rest)))
      (templateRest (tail.mapMarks f) depth >>= fun rest => template (head.mapMarks f) depth true >>= fun part =>
        pure (make (part.onto rest))) := by
  refine .bind (htail.templateRest depth) fun rest => .bind (hhead.template depth true) fun part => ?_
  rw [← Part.onto_mapMarks, ← hmake]
  exact .pure _

theorem template_carries {d : Datum} (ih : d.Below (Remarks f)) (depth : Nat) (inList : Bool) :
    Carries (Part.mapMarks f) (template d depth inList) (template (d.mapMarks f) depth inList) := by
  rw [template_eq]
  split
  · rw [Datum.mapMarks, Datum.mapMarks, template, checkOperand_bind]
    split
    · exact Transfers.error _
    · rename_i hnone
      rw [operandFault?_mapMarks f hnone]
      obtain ⟨x, m', rfl⟩ := single_of_operandFault? hnone
      dsimp only
      split
      · exact .bind ih.inTail.head.expr fun _ => .pure _
      · exact nested_carries ih.tail
  · rw [Datum.mapMarks, Datum.mapMarks, template, checkOperand_bind]
    split
    · exact Transfers.error _
    · rename_i hnone
      rw [operandFault?_mapMarks f hnone]
      obtain ⟨x, m', rfl⟩ := single_of_operandFault? hnone
      dsimp only
      split
      · split
        · exact .bind ih.inTail.head.expr fun e => .pure (Part.splice e)
        · exact .reject
      · exact nested_carries ih.tail
  · rw [Datum.mapMarks, Datum.mapMarks, template, checkOperand_bind]
    split
    · exact Transfers.error _
    · rename_i hnone
      rw [operandFault?_mapMarks f hnone]
      exact nested_carries ih.tail
  · rename_i hunquote hsplice hquasi
    rw [Datum.mapMarks, template, ← Datum.mapMarks]
    · split
      · exact Transfers.error _
      · rename_i hnone
        rw [Datum.dottedFault?_mapMarks f hnone]
        exact listed_carries Part.element depth ih.head ih.tail fun _ => rfl
    · exact Datum.mapMarks_ne_kw f hunquote
    · exact Datum.mapMarks_ne_kw f hsplice
    · exact Datum.mapMarks_ne_kw f hquasi
  · rename_i hpair
    cases d with
    | pair head tail m => exact (hpair _ _ _ rfl).elim
    | _ => exact .pure _

theorem templateRest_carries {d : Datum} (ih : d.Below (Remarks f)) (depth : Nat) :
    Carries (Expr.mapMarks f) (templateRest d depth) (templateRest (d.mapMarks f) depth) := by
  rw [templateRest.eq_def]
  split
  · refine .bind (ih.inTail.head.template depth false) fun part => ?_
    rw [Part.expr_mapMarks]
    exact .pure _
  · rename_i hdot
    rw [Datum.mapMarks, templateRest]
    · exact listed_carries id depth ih.head ih.tail fun _ => rfl
    · exact isDotted_mapMarks hdot
  · rename_i hpair
    cases d with
    | pair head tail m => exact (hpair _ _ _ rfl).elim
    | _ => exact .pure _

theorem remarks (f : Mark → Mark) (d : Datum) : Remarks f d :=
  d.below_induct fun _ ih =>
    ⟨expr_carries ih, all_carries ih, bindings_carries ih, clauses_carries ih, template_carries ih,
    templateRest_carries ih, quote_transfers ih, quoteRest_transfers ih⟩

end Analysis

namespace Expr

variable (f : Mark → Mark)

/-- a form with other marks means the same expression with other marks -/
theorem ofDatum_mapMarks {d : Datum} {e : Expr} (h : ofDatum d = .ok e) : ofDatum (d.mapMarks f) = .ok (e.mapMarks f) :=
  (Analysis.remarks f d).expr e h

end Expr

end SchemeStack
