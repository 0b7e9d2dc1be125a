/-
The analysis by the shapes of forms.

The analysis takes lists apart with operations that fail where a list has no such part, and checks each list before.
Here each check is shown to suffice: behind it the parts are there, so the analysis never breaks down. What is left
are its clauses, one for each shape of a form:

- `expr_special`: a form that starts with a keyword is proper, and then the clause of its keyword applies (`special`);
- `expr_call`: any other list is a call;
- `bindings_eq`, `clauses_eq`: bindings and clauses, along their chains;
- `template_eq`: a template, whose unquotes have a single operand (`single_of_operandFault?`);
- `dottedFault?_eq`: a list with a dot in front of its last element has that element.

All later proofs about the analysis go by these clauses.
-/
import SchemeStack.Expr.Analysis

namespace SchemeStack

namespace Datum

variable {d : Datum}

/-- a proper list is empty, or an element in front of a proper list -/
theorem proper_cases (h : d.isProper = true) :
    d = nil ∨ ∃ head tail m, d = pair head tail m ∧ tail.isProper = true := by
  cases d with
  | nil => exact Or.inl rfl
  | pair head tail m => exact Or.inr ⟨head, tail, m, rfl, h⟩
  | _ => cases h

theorem length?_pair {head tail : Datum} {m : Source.Mark} (h : tail.isProper = true) :
    (pair head tail m).length? = .ok (tail.elements.length + 1) :=
  if_pos h

/-- what follows the dot of a dotted list is there -/
theorem dottedFault?_eq (form : Datum) : form.dottedFault? = match form.elements.findIdx? isDot with
    | none => none
    | some i =>
      if i = 0 ∨ i + 2 ≠ form.elements.length ∨ form.isProper = false then some (.ofForm .malformedDottedList form)
      else none := by
  unfold dottedFault?
  cases form.elements.findIdx? isDot with
  | none => rfl
  | some i =>
    dsimp only
    split
    · rfl
    · rename_i hplace
      have hlength : i + 1 < form.elements.length := by
        simp only [not_or, Decidable.not_not] at hplace
        omega
      rw [itemAt?, List.getElem?_eq_getElem hlength]

end Datum

namespace Analysis

variable {α : Type}

/-! ## Checks -/

/-- behind the check that a list is proper, it is -/
theorem checkProper_bind_congr {form : Datum} {x y : Analysis α} (h : form.isProper = true → x = y) :
    (checkProper form >>= fun _ => x) = (checkProper form >>= fun _ => y) := by
  unfold checkProper
  split
  · rename_i hproper
    rw [h hproper]
  · rfl

theorem elements_bind (d : Datum) (f : List Datum → Analysis α) :
    (elements d >>= f) = (checkProper d >>= fun _ => f d.elements) := by
  unfold elements checkProper Datum.toList?
  split
  · rfl
  · rfl

/-- a list that is a pair has a head to split off -/
theorem arguments_bind (head tail : Datum) (m : Source.Mark) (f : List Datum → Analysis α) :
    (arguments (.pair head tail m) >>= f) = (checkProper (.pair head tail m) >>= fun _ => f tail.elements) := by
  unfold arguments elements checkProper Datum.toList?
  split
  · rfl
  · rfl

theorem checkBindings_eq (d : Datum) :
    checkBindings d = if d.isList then checkProper d else reject (.wrongKind .list d.kind) d := by
  unfold checkBindings
  split
  · rw [elements_bind]
    unfold checkProper
    split <;> rfl
  · rfl

abbrev all : Datum → Analysis (List Expr) := allFrom 0

/-- rejects a form with too few or too many arguments -/
def miscounted {α : Type} (form args : Datum) (least most : Nat) : Analysis α :=
  let count := args.elements.length
  if count < least then reject .missingSubform form else reject (.tooManySubforms most count) form

/-! ## Special forms -/

/-- the clause of a keyword, for a form that is a proper list -/
def special (word : Keyword) (form args : Datum) : Analysis Expr :=
  match word with
  | .lambda =>
    match args with
    | .pair ps body _ => do
      let (names, rest) ← params ps
      checkBody form body.elements
      let es ← all body
      pure (.lambda names rest es)
    | _ => reject .missingSubform form
  | .letWord | .letStar | .letrec =>
    match args with
    | .pair (.sym name _) (.pair bs body _) _ => do
      checkBindings bs
      let bindings ← bindings bs
      checkBody form body.elements
      let es ← all body
      pure (.namedLet name bindings es)
    | .pair (.sym _ _) _ _ => reject .missingSubform form
    | .pair bs body _ => do
      checkBindings bs
      let bindings ← bindings bs
      checkBody form body.elements
      let es ← all body
      pure (letForm word bindings es)
    | _ => reject .missingSubform form
  | .ifWord =>
    match args with
    | .pair t (.pair c .nil _) _ => do
      let test ← expr t
      let consequent ← expr c
      pure (.branch test consequent none)
    | .pair t (.pair c (.pair a .nil _) _) _ => do
      let test ← expr t
      let consequent ← expr c
      let alternative ← expr a
      pure (.branch test consequent (some alternative))
    | _ => miscounted form args 2 3
  | .cond => do
    let (cs, otherwise) ← clauses args
    pure (.cond cs otherwise)
  | .define =>
    match args with
    | .pair (.pair target ps _) body _ => do
      let name ← identifier target
      let (names, rest) ← params ps
      checkBody form body.elements
      let es ← all body
      pure (.assign name (.lambda names rest es))
    | .pair (.sym name _) (.pair value .nil _) _ => do
      let e ← expr value
      pure (.assign name e)
    | .pair (.sym _ _) _ _ => miscounted form args 2 2
    | .pair target _ _ => reject (.wrongKind .identifier target.kind) target
    | _ => reject .missingSubform form
  | .set =>
    match args with
    | .pair target (.pair value .nil _) _ => do
      let name ← identifier target
      let e ← expr value
      pure (.assign name e)
    | _ => miscounted form args 2 2
  | .begin => do
    checkBody form args.elements
    let es ← all args
    pure (.sequence es)
  | .and => do
    let es ← all args
    pure (.conj es)
  | .or => do
    let es ← all args
    pure (.disj es)
  | .delay => do
    checkBody form args.elements
    let es ← all args
    pure (.lambda [] none es)
  | .quote =>
    match args with
    | .pair d .nil _ => .ofExcept d.quote
    | _ => miscounted form args 1 1
  | .quasiquote =>
    match args with
    | .pair d .nil _ => do
      let part ← template d 1 false
      pure (.template 1 part.expr)
    | _ => miscounted form args 1 1
  | .unquote | .unquoteSplicing => reject (.outsideQuasiquote word) form
  | .case | .doWord => reject (.unsupportedForm word) form
  | .elseWord | .dot => reject (.misplacedKeyword word) form

/-- a list whose head is a keyword is what the clause of the keyword says: each argument that is taken is there -/
theorem expr_special (word : Keyword) (args : Datum) (k m : Source.Mark) :
    expr (.pair (.kw word k) args m) = (checkProper (.pair (.kw word k) args m) >>= fun _ =>
      special word (.pair (.kw word k) args m) args) := by
  rw [expr, arguments_bind]
  refine checkProper_bind_congr fun hproper => ?_
  have hargs : args.isProper = true := hproper
  cases word with
  | lambda =>
    rcases Datum.proper_cases hargs with rfl | ⟨ps, body, _, rfl, -⟩
    · rfl
    · rfl
  | letWord | letStar | letrec =>
    rcases Datum.proper_cases hargs with rfl | ⟨first, rest, _, rfl, hrest⟩
    · rfl
    cases first with
    | sym name _ =>
      rcases Datum.proper_cases hrest with rfl | ⟨bs, body, _, rfl, -⟩
      · rfl
      · exact bind_assoc (checkBindings bs) (fun _ => bindings bs) _
    | pair head tail m' =>
      exact bind_assoc (checkBindings (.pair head tail m')) (fun _ => bindings (.pair head tail m')) _
    | _ => rfl
  | ifWord =>
    rcases Datum.proper_cases hargs with rfl | ⟨t, rest, _, rfl, hrest⟩
    · rfl
    rcases Datum.proper_cases hrest with rfl | ⟨c, others, _, rfl, hothers⟩
    · rfl
    rcases Datum.proper_cases hothers with rfl | ⟨a, extra, _, rfl, hextra⟩
    · rfl
    rcases Datum.proper_cases hextra with rfl | ⟨_, _, _, rfl, -⟩
    · rfl
    · rfl
  | define =>
    rcases Datum.proper_cases hargs with rfl | ⟨target, rest, _, rfl, hrest⟩
    · rfl
    cases target with
    | sym name _ =>
      rcases Datum.proper_cases hrest with rfl | ⟨value, extra, _, rfl, hextra⟩
      · rfl
      rcases Datum.proper_cases hextra with rfl | ⟨_, _, _, rfl, -⟩
      · rfl
      · rfl
    | _ => rfl
  | set =>
    rcases Datum.proper_cases hargs with rfl | ⟨target, rest, _, rfl, hrest⟩
    · rfl
    rcases Datum.proper_cases hrest with rfl | ⟨value, extra, _, rfl, hextra⟩
    · rfl
    rcases Datum.proper_cases hextra with rfl | ⟨_, _, _, rfl, -⟩
    · rfl
    · rfl
  | quote | quasiquote =>
    rcases Datum.proper_cases hargs with rfl | ⟨d, extra, _, rfl, hextra⟩
    · rfl
    rcases Datum.proper_cases hextra with rfl | ⟨_, _, _, rfl, -⟩
    · rfl
    · rfl
  | _ => rfl

/-- a list whose head is not a keyword is a call -/
theorem expr_call {head : Datum} (args : Datum) (m : Source.Mark) (hkw : ∀ word k, head ≠ .kw word k) :
    expr (.pair head args m) = (do
      checkProper (.pair head args m)
      let operator ← expr head
      if operator.isOperator then
        match args.elements.find? Datum.isDot with
        | some dot => reject .dotInCall dot
        | none => do
          let operands ← all args
          pure (.call operator operands)
      else reject (.invalidProcedure head) (.pair head args m)) := by
  rw [expr]
  · exact arguments_bind head args m _
  · exact hkw

/-! ## Bindings and clauses -/

/-- a binding that is not a list of a name and an expression binds no name -/
theorem boundName?_malformed {binding : Datum}
    (h : ∀ name k value k' m, binding ≠ .pair (.sym name k) (.pair value .nil k') m) :
    boundName? binding = pure none := by
  unfold boundName?
  split
  · rename_i hshape
    rw [Bool.and_eq_true] at hshape
    cases binding with
    | pair first tail m =>
      have htail : tail.isProper = true := hshape.2
      rcases Datum.proper_cases htail with rfl | ⟨value, rest, k', rfl, hrest⟩
      · rfl
      rcases Datum.proper_cases hrest with rfl | ⟨_, _, _, rfl, -⟩
      · cases first with
        | sym name k => exact absurd rfl (h name k value k' m)
        | _ => rfl
      · rw [Datum.length?_pair htail]
        rfl
    | _ => cases hshape.1
  · rfl

theorem bindings_malformed {malformed : Datum} (rest : Datum) (m : Source.Mark)
    (h : ∀ name k value k' m, malformed ≠ .pair (.sym name k) (.pair value .nil k') m) :
    bindings (.pair malformed rest m) = (.note malformed >>= fun _ => bindings rest) := by
  rw [bindings, boundName?_malformed h]
  rfl

/-- a binding that binds a name is a list of two, whose parts are there -/
theorem bindings_named (name : String) (value rest : Datum) (k k' k'' m : Source.Mark) :
    bindings (.pair (.pair (.sym name k) (.pair value .nil k') k'') rest m) = (do
      let e ← expr value
      let others ← bindings rest
      pure (⟨name, e⟩ :: others)) :=
  rfl

theorem bindings_eq (d : Datum) : bindings d = match d with
    | .pair (.pair (.sym name _) (.pair value .nil _) _) rest _ => do
      let e ← expr value
      let others ← bindings rest
      pure (⟨name, e⟩ :: others)
    | .pair malformed rest _ => do
      .note malformed
      bindings rest
    | _ => pure [] := by
  split
  · exact bindings_named _ _ _ _ _ _ _
  · rename_i h
    exact bindings_malformed _ _ h
  · rename_i h
    cases d with
    | pair binding rest m => exact (h binding rest m rfl).elim
    | _ => rfl

theorem clauses_eq (d : Datum) : clauses d = match d with
    | .pair (.pair (.kw .elseWord k) body m) _ _ => do
      checkProper (.pair (.kw .elseWord k) body m)
      let es ← all body
      pure ([], some es)
    | .pair (.pair t body m) rest _ => do
      checkProper (.pair t body m)
      let test ← expr t
      checkBody (.pair t body m) body.elements
      let es ← all body
      let (cs, otherwise) ← clauses rest
      pure (⟨test, es⟩ :: cs, otherwise)
    | _ => pure ([], none) := by
  have h := clauses.eq_def d
  simp only [arguments_bind] at h
  exact h

/-! ## Templates -/

/-- why the arguments of an unquote or a nested quasiquote are not a single operand, if they are not -/
def operandFault? (form : Datum) (word : Keyword) (args : Datum) : Option Diagnostic :=
  if args.isList && !args.isProper then some (.ofForm .improperList args)
  else if args.isProper && args.elements.length == 1 then none
  else some (.ofForm (.singleOperand word) form)

theorem checkOperand_bind (form args : Datum) (word : Keyword) (x : Analysis α) :
    (checkOperand form word args >>= fun _ => x) = match operandFault? form word args with
      | some fault => .fail fault
      | none => x := by
  cases args with
  | pair head tail m =>
    have hlist : (Datum.pair head tail m).isList = true := rfl
    rw [checkOperand, if_pos hlist, elements_bind, checkProper]
    by_cases hproper : (Datum.pair head tail m).isProper = true
    · rw [if_pos hproper, pure_bind]
      by_cases hlength : (Datum.pair head tail m).elements.length = 1
      · have hnone : operandFault? form word (.pair head tail m) = none := by simp [operandFault?, hproper, hlength]
        rw [if_pos hlength, hnone, pure_bind]
      · have hsome : operandFault? form word (.pair head tail m) = some (.ofForm (.singleOperand word) form) := by
          simp [operandFault?, hproper, hlength]
        rw [if_neg hlength, hsome]
        rfl
    · have hsome : operandFault? form word (.pair head tail m) = some (.ofForm .improperList (.pair head tail m)) := by
        simp [operandFault?, hproper, hlist]
      rw [if_neg hproper, hsome]
      rfl
  | _ => rfl

/-- a proper list of one element -/
theorem eq_single {d : Datum} (hproper : d.isProper = true) (hlength : d.elements.length = 1) :
    ∃ x m, d = .pair x .nil m := by
  rcases Datum.proper_cases hproper with rfl | ⟨x, rest, m, rfl, hrest⟩
  · cases hlength
  rcases Datum.proper_cases hrest with rfl | ⟨_, _, _, rfl, -⟩
  · exact ⟨x, m, rfl⟩
  · cases hlength

/-- what is not rejected for its operands has one -/
theorem single_of_operandFault? {form args : Datum} {word : Keyword} (h : operandFault? form word args = none) :
    ∃ x m, args = .pair x .nil m := by
  unfold operandFault? at h
  split at h
  · cases h
  · split at h
    · rename_i hsingle
      obtain ⟨hproper, hlength⟩ := Bool.and_eq_true_iff.1 hsingle
      exact eq_single hproper (beq_iff_eq.1 hlength)
    · cases h

theorem template_eq (d : Datum) (depth : Nat) (inList : Bool) : template d depth inList = match d, depth, inList with
    | .pair (.kw .unquote k) args m, depth, _ =>
      match operandFault? (.pair (.kw .unquote k) args m) .unquote args with
      | some fault => .fail fault
      | none =>
        if depth = 1 then do
          let e ← exprAt 0 args
          pure (.element e)
        else do
          let part ← template args (depth - 1) false
          pure (.element (.consCall (.quotation (.kw .unquote k)) part.expr))
    | .pair (.kw .unquoteSplicing k) args m, depth, inList =>
      match operandFault? (.pair (.kw .unquoteSplicing k) args m) .unquoteSplicing args with
      | some fault => .fail fault
      | none =>
        if depth = 1 then
          if inList then do
            let e ← exprAt 0 args
            pure (.splice e)
          else reject .spliceOutsideList (.pair (.kw .unquoteSplicing k) args m)
        else do
          let part ← template args (depth - 1) false
          pure (.element (.consCall (.quotation (.kw .unquoteSplicing k)) part.expr))
    | .pair (.kw .quasiquote k) args m, depth, _ =>
      match operandFault? (.pair (.kw .quasiquote k) args m) .quasiquote args with
      | some fault => .fail fault
      | none => do
        let part ← template args (depth + 1) false
        pure (.element (.consCall (.quotation (.kw .quasiquote k)) part.expr))
    | .pair head tail m, depth, _ =>
      match (Datum.pair head tail m).dottedFault? with
      | some fault => .fail fault
      | none => do
        let rest ← templateRest tail depth
        let part ← template head depth true
        pure (.element (part.onto rest))
    | d, _, _ => pure (.element (.quotation d)) := by
  have h := template.eq_def d depth inList
  simp only [checkOperand_bind] at h
  exact h

end Analysis

end SchemeStack
