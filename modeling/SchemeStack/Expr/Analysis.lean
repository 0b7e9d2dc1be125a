/-
Analysis: the expression that a form means.

A list whose head is a keyword is a special form; any other list is a call. The analysis goes by recursion on the
datum: on the form, and along the chains of its arguments, its bindings, its clauses and its templates. Sub-forms are
analysed from left to right, and the first fault found is reported, with the form that shows it.

A binding that is not a list of a name and an expression is passed over; the analysis notes it. Clauses after the first
that is no list are ignored.

Lists are taken apart with the partial operations of `Datum.Access`, and a position that a list does not have is a
breakdown. In front of each of them stands a check of the list (`checkProper`, `require`, `boundName?`, ...) that
rejects the form first; none of the breakdowns is met.

Templates. Inside a quasiquotation a list becomes calls that build it, as in quotation, except where an unquote brings
in the value of an expression. Each nested quasiquotation raises the level by one and each unquote lowers it; only at
level one is an operand evaluated. An unquote-splicing at level one must be an element of a list, whose other elements
its value is joined to (`Part`).

`Expr.ofDatum` is the analysis without its notes, `Expr.ofData` that of a sequence of forms.
-/
import SchemeStack.Expr.Printer
import SchemeStack.Expr.Quotation
import SchemeStack.Traced

namespace SchemeStack

/-- an analysis, with the bindings it passed over -/
abbrev Analysis := Traced Datum Diagnostic

/-- what a part of a template contributes to the list around it -/
inductive Part where
  | element (e : Expr)
  | splice (e : Expr)

namespace Part

def expr : Part → Expr
  | element e => e
  | splice e => e

/-- the part in front of the rest of its list -/
def onto : Part → Expr → Expr
  | element e, rest => .consCall e rest
  | splice e, rest => .appendCall e rest

end Part

namespace Analysis

def reject {α : Type} (cause : Cause) (form : Datum) : Analysis α := .fail (.ofForm cause form)

/-- takes a list apart; the analysis breaks down where that cannot be done -/
def access {α : Type} (r : Except DatumError α) : Analysis α := .ofExcept (r.mapError fun e => .broken (.access e))

/-- rejects a list that is not proper -/
def checkProper (form : Datum) : Analysis Unit :=
  if form.isProper then pure () else reject .improperList form

/-- the elements of a list, which must be proper -/
def elements (form : Datum) : Analysis (List Datum) := do
  checkProper form
  access form.toList?

def arguments (form : Datum) : Analysis (List Datum) := do
  let ds ← elements form
  access (rest? ds)

/-- rejects a form with fewer than `least` arguments -/
def require (form : Datum) (args : List Datum) (least : Nat) : Analysis Unit :=
  if args.length < least then reject .missingSubform form else pure ()

/-- rejects a form with more than `most` arguments -/
def noExtra (form : Datum) (args : List Datum) (most : Nat) : Analysis Unit :=
  if most < args.length then reject (.tooManySubforms most args.length) form else pure ()

def checkBody (form : Datum) (body : List Datum) : Analysis Unit :=
  if body.isEmpty then reject .emptySequence form else pure ()

def argument (args : List Datum) (i : Nat) : Analysis Datum := access (itemAt? args i)

def identifier : Datum → Analysis String
  | .sym name _ => pure name
  | d => reject (.wrongKind .identifier d.kind) d

/-- the parameters of a list in which a dot may come before the rest parameter -/
def paramNames (params : Datum) (rest : Option String) : List Datum → Analysis (List String × Option String)
  | [] => pure ([], rest)
  | .kw .dot _ :: [] => reject .missingSubform params
  | .kw .dot _ :: [last] => do pure ([], some (← identifier last))
  | .kw .dot _ :: last :: _ :: _ => do
    let _ ← identifier last
    reject .extraRestParameter params
  | d :: ds => do
    let name ← identifier d
    let (names, rest) ← paramNames params rest ds
    pure (name :: names, rest)

/-- the parameters of a procedure: a name for all arguments, or a list of names that may end in a rest parameter -/
def params : Datum → Analysis (List String × Option String)
  | .nil => pure ([], none)
  | .sym name _ => pure ([], some name)
  | d@(.pair _ _ _) => do
    let rest ← match d.improperEnd? with
      | none => pure none
      | some last => some <$> identifier last
    paramNames d rest d.elements
  | d => reject (.wrongKind .identifier d.kind) d

/-- rejects an unquote or a nested quasiquote whose arguments are not a single operand -/
def checkOperand (form : Datum) (word : Keyword) (args : Datum) : Analysis Unit :=
  if args.isList then do
    let ds ← elements args
    if ds.length = 1 then pure () else reject (.singleOperand word) form
  else reject (.singleOperand word) form

/-- bindings one inside the other, each in the scope of those before it -/
def nestLets (body : List Expr) : List (Binding Expr) → Expr
  | [] => .letIn [] body
  | [b] => .letIn [b] body
  | b :: bs => .letIn [b] [nestLets body bs]

/-- the expression of a form that binds names, by its keyword -/
def letForm (word : Keyword) (bindings : List (Binding Expr)) (body : List Expr) : Expr :=
  match word with
  | .letStar => nestLets body bindings
  | .letrec => .letRec bindings body
  | _ => .letIn bindings body

/-- rejects what should list bindings and does not -/
def checkBindings (d : Datum) : Analysis Unit :=
  if d.isList then do
    let _ ← elements d
    pure ()
  else reject (.wrongKind .list d.kind) d

/-- the name that a binding binds, if it is a list of a name and an expression -/
def boundName? (binding : Datum) : Analysis (Option String) :=
  if binding.isPair && binding.isProper then do
    let count ← access binding.length?
    if count = 2 then do
      let first ← access (binding.get? 0)
      pure first.symbol?
    else pure none
  else pure none

mutual

def expr : Datum → Analysis Expr
  | .sym name _ => pure (.var name)
  | .nil => reject .emptyApplication .nil
  | .pair (.kw word k) tail m => do
    let form := Datum.pair (.kw word k) tail m
    let args ← arguments form
    match word with
    | .lambda => do
      require form args 1
      let ps ← argument args 0
      let (names, rest) ← params ps
      checkBody form (args.drop 1)
      let es ← allFrom 1 tail
      pure (.lambda names rest es)
    | .letWord | .letStar | .letrec => do
      require form args 1
      let first ← argument args 0
      match first with
      | .sym name _ => do
        require form args 2
        let bindings ← bindingsAt 1 tail
        checkBody form (args.drop 2)
        let es ← allFrom 2 tail
        pure (.namedLet name bindings es)
      | _ => do
        let bindings ← bindingsAt 0 tail
        checkBody form (args.drop 1)
        let es ← allFrom 1 tail
        pure (letForm word bindings es)
    | .ifWord => do
      require form args 2
      noExtra form args 3
      let test ← exprAt 0 tail
      let consequent ← exprAt 1 tail
      if args.length = 3 then do
        let alternative ← exprAt 2 tail
        pure (.branch test consequent (some alternative))
      else pure (.branch test consequent none)
    | .cond => do
      let (cs, otherwise) ← clauses tail
      pure (.cond cs otherwise)
    | .define => do
      require form args 1
      let target ← argument args 0
      match target with
      | .pair target ps _ => do
        let name ← identifier target
        let (names, rest) ← params ps
        checkBody form (args.drop 1)
        let es ← allFrom 1 tail
        pure (.assign name (.lambda names rest es))
      | .sym name _ => do
        require form args 2
        noExtra form args 2
        let e ← exprAt 1 tail
        pure (.assign name e)
      | target => reject (.wrongKind .identifier target.kind) target
    | .set => do
      require form args 2
      noExtra form args 2
      let target ← argument args 0
      let name ← identifier target
      let e ← exprAt 1 tail
      pure (.assign name e)
    | .begin => do
      checkBody form args
      let es ← allFrom 0 tail
      pure (.sequence es)
    | .and => do
      let es ← allFrom 0 tail
      pure (.conj es)
    | .or => do
      let es ← allFrom 0 tail
      pure (.disj es)
    | .delay => do
      checkBody form args
      let es ← allFrom 0 tail
      pure (.lambda [] none es)
    | .quote => do
      require form args 1
      noExtra form args 1
      let d ← argument args 0
      .ofExcept d.quote
    | .quasiquote => do
      require form args 1
      noExtra form args 1
      let part ← templateAt 0 tail
      pure (.template 1 part.expr)
    | .unquote | .unquoteSplicing => reject (.outsideQuasiquote word) form
    | .case | .doWord => reject (.unsupportedForm word) form
    | .elseWord | .dot => reject (.misplacedKeyword word) form
  | .pair head tail m => do
    let args ← arguments (.pair head tail m)
    let operator ← expr head
    if operator.isOperator then
      match args.find? Datum.isDot with
      | some dot => reject .dotInCall dot
      | none => do
        let operands ← allFrom 0 tail
        pure (.call operator operands)
    else reject (.invalidProcedure head) (.pair head tail m)
  | d => pure (.literal d)

/-- the analysis of the element at a position of a chain -/
def exprAt : Nat → Datum → Analysis Expr
  | 0, .pair d _ _ => expr d
  | i + 1, .pair _ ds _ => exprAt i ds
  | _, _ => access (.error .positionOutOfRange)

/-- the analyses of the elements of a chain from a position on -/
def allFrom : Nat → Datum → Analysis (List Expr)
  | 0, .pair d ds _ => do
    let e ← expr d
    let es ← allFrom 0 ds
    pure (e :: es)
  | i + 1, .pair _ ds _ => allFrom i ds
  | _, _ => pure []

/-- the bindings listed by the element at a position of a chain -/
def bindingsAt : Nat → Datum → Analysis (List (Binding Expr))
  | 0, .pair d _ _ => do
    checkBindings d
    bindings d
  | i + 1, .pair _ ds _ => bindingsAt i ds
  | _, _ => access (.error .positionOutOfRange)

def bindings : Datum → Analysis (List (Binding Expr))
  | .pair binding rest _ => do
    let bound ← boundName? binding
    match bound with
    | some name => do
      let ds ← access binding.toList?
      let _ ← access (both? ds)
      let e ← exprAt 1 binding
      let others ← bindings rest
      pure (⟨name, e⟩ :: others)
    | none => do
      .note binding
      bindings rest
  | _ => pure []

/-- the clauses of a conditional along a chain, and the body of the final one -/
def clauses : Datum → Analysis (List (Clause Expr) × Option (List Expr))
  | .pair (.pair (.kw .elseWord k) body m) _ _ => do
    let _ ← arguments (.pair (.kw .elseWord k) body m)
    let es ← allFrom 0 body
    pure ([], some es)
  | .pair (.pair t body m) rest _ => do
    let args ← arguments (.pair t body m)
    let test ← expr t
    checkBody (.pair t body m) args
    let es ← allFrom 0 body
    let (cs, otherwise) ← clauses rest
    pure (⟨test, es⟩ :: cs, otherwise)
  | _ => pure ([], none)

/-- the part that a datum contributes to a template; `inList` tells whether it is an element of a list -/
def template : Datum → (depth : Nat) → (inList : Bool) → Analysis Part
  | .pair (.kw .unquote k) args m, depth, _ => do
    checkOperand (.pair (.kw .unquote k) args m) .unquote args
    if depth = 1 then do
      let e ← exprAt 0 args
      pure (.element e)
    else do
      let part ← template args (depth - 1) false
      pure (.element (.consCall (.quotation (.kw .unquote k)) part.expr))
  | .pair (.kw .unquoteSplicing k) args m, depth, inList => do
    checkOperand (.pair (.kw .unquoteSplicing k) args m) .unquoteSplicing args
    if depth = 1 then
      if inList then do
        let e ← exprAt 0 args
        pure (.splice e)
      else reject .spliceOutsideList (.pair (.kw .unquoteSplicing k) args m)
    else do
      let part ← template args (depth - 1) false
      pure (.element (.consCall (.quotation (.kw .unquoteSplicing k)) part.expr))
  | .pair (.kw .quasiquote k) args m, depth, _ => do
    checkOperand (.pair (.kw .quasiquote k) args m) .quasiquote args
    let part ← template args (depth + 1) false
    pure (.element (.consCall (.quotation (.kw .quasiquote k)) part.expr))
  | .pair head tail m, depth, _ =>
    match (Datum.pair head tail m).dottedFault? with
    | some fault => .fail fault
    | none => do
      let rest ← templateRest tail depth
      let part ← template head depth true
      pure (.element (part.onto rest))
  | d, _, _ => pure (.element (.quotation d))

/-- the part of the element at a position of a chain, as the whole of a template -/
def templateAt : Nat → Datum → Analysis Part
  | 0, .pair d _ _ => template d 1 false
  | i + 1, .pair _ ds _ => templateAt i ds
  | _, _ => access (.error .positionOutOfRange)

/-- the expression that builds the rest of a list in a template -/
def templateRest : Datum → (depth : Nat) → Analysis Expr
  | .pair (.kw .dot _) (.pair last .nil _) _, depth => do
    let part ← template last depth false
    pure part.expr
  | .pair head tail _, depth => do
    let rest ← templateRest tail depth
    let part ← template head depth true
    pure (part.onto rest)
  | d, _ => pure (.quotation d)

end

/-- the analysis of a list of forms, of which there must be one -/
def sequence : List Datum → Analysis (List Expr)
  | [] => .fail ⟨.emptySequence, .unknown, none, none⟩
  | ds => ds.mapM expr

end Analysis

def Expr.ofDatum (d : Datum) : Except Diagnostic Expr := (Analysis.expr d).outcome

def Expr.ofData (ds : List Datum) : Except Diagnostic (List Expr) := (Analysis.sequence ds).outcome

def Expr.ofListDatum (d : Datum) : Except Diagnostic (List Expr) := do
  let ds ← (Analysis.elements d).outcome
  Expr.ofData ds

end SchemeStack
