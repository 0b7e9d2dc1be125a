/-
Lowering: derived expressions explained in the core language.

- A binding form applies a procedure of the names to the values.
- A sequence of several expressions applies a procedure of as many parameters, which yields the last one. Arguments are
  evaluated from left to right, so the expressions take effect in order.
- A recursive binding form binds its names to false, then assigns the values in order and goes on with the body.
- A loop is a recursive binding of its procedure, called with the initial values.
- Conditionals nest from the last clause outwards; conjunction and disjunction yield booleans.

Expressions built in code can lack a body, or hold a list where a constant is needed. A lowering meets these faults in
the order of its work: the alternative of a conditional before its test, the last clause before the first, the values
of a binding form before its body. Analysis yields no such expression.
-/
import SchemeStack.Core.Basic
import SchemeStack.Expr.Basic

namespace SchemeStack

/-- why an expression has no core form -/
inductive LoweringError where
  | emptySequence
  | emptyLoop
  | quotedPair
  | value (error : DatumError)
  deriving DecidableEq

def LoweringError.message : LoweringError → String
  | .emptySequence => "empty sequence"
  | .emptyLoop => ""
  | .quotedPair => "quoted lists should have been expanded during analysis"
  | .value error => error.message

namespace Core

/-- the parameters of a procedure that runs a sequence -/
def stepNames (count : Nat) : List String := (List.range count).map fun i => "$s" ++ toString i

/-- the expression that evaluates others in order and yields the last -/
def inSequence : List Core → Except LoweringError Core
  | [] => .error .emptySequence
  | [e] => .ok e
  | es => .ok (app (lambda (stepNames es.length) none (var ("$s" ++ toString (es.length - 1)))) es)

/-- names bound to false around an expression, the first name outermost -/
def bindFalse (names : List String) (body : Core) : Core := names.foldr (fun name e => letIn name Core.falsity e) body

end Core

namespace Expr

mutual

def lower : Expr → Except LoweringError Core
  | literal d => ((Value.ofDatum? d).map Core.val).mapError .value
  | var name => .ok (.var name)
  | quotation (.pair _ _ _) => .error .quotedPair
  | quotation d => ((Value.ofDatum? d).map Core.quote).mapError .value
  | call operator operands => do
    let f ← operator.lower
    let as ← lowerAll operands
    pure (.app f as)
  | lambda params rest body => do
    let es ← lowerAll body
    let e ← Core.inSequence es
    pure (.lambda params rest e)
  | branch test consequent none => do
    let t ← test.lower
    let c ← consequent.lower
    pure (.branch t c none)
  | branch test consequent (some alternative) => do
    let a ← alternative.lower
    let t ← test.lower
    let c ← consequent.lower
    pure (.branch t c (some a))
  | assign name value => do
    let v ← value.lower
    pure (.assign name v)
  | letIn bindings body => do
    let vs ← lowerValues bindings
    let es ← lowerAll body
    let e ← Core.inSequence es
    pure (.app (.lambda (bindings.map (·.name)) none e) vs)
  | letRec bindings body => do
    let steps ← lowerAssigns bindings
    let es ← lowerAll body
    let e ← Core.inSequence (steps ++ es)
    pure (Core.bindFalse (bindings.map (·.name)) e)
  | namedLet _ _ [] => .error .emptyLoop
  | namedLet name bindings (first :: others) => do
    let e ← first.lower
    let es ← lowerAll others
    let body ← Core.inSequence (e :: es)
    let vs ← lowerValues bindings
    let loop := Core.assign name (.lambda (bindings.map (·.name)) none body)
    let e ← Core.inSequence [loop, .app (.var name) vs]
    pure (Core.bindFalse [name] e)
  | sequence body => do
    let es ← lowerAll body
    Core.inSequence es
  | cond clauses none => lowerClauses Core.falsity clauses
  | cond clauses (some []) => lowerClauses Core.falsity clauses
  | cond clauses (some (first :: others)) => do
    let e ← first.lower
    let es ← lowerAll others
    let otherwise ← Core.inSequence (e :: es)
    lowerClauses otherwise clauses
  | conj [] => .ok Core.falsity
  | conj (first :: others) => do
    let rest ← lowerConj others
    let t ← first.lower
    pure (.branch t rest (some Core.falsity))
  | disj body => lowerDisj body
  | template _ body => body.lower

def lowerAll : List Expr → Except LoweringError (List Core)
  | [] => .ok []
  | e :: es => do
    let c ← e.lower
    let cs ← lowerAll es
    pure (c :: cs)

def lowerValues : List (Binding Expr) → Except LoweringError (List Core)
  | [] => .ok []
  | ⟨_, value⟩ :: bs => do
    let v ← value.lower
    let vs ← lowerValues bs
    pure (v :: vs)

/-- the assignments of the values of bindings to their names -/
def lowerAssigns : List (Binding Expr) → Except LoweringError (List Core)
  | [] => .ok []
  | ⟨name, value⟩ :: bs => do
    let v ← value.lower
    let vs ← lowerAssigns bs
    pure (.assign name v :: vs)

/-- nested conditionals for clauses, around what is left if no test holds -/
def lowerClauses (otherwise : Core) : List (Clause Expr) → Except LoweringError Core
  | [] => .ok otherwise
  | ⟨test, body⟩ :: cs => do
    let rest ← lowerClauses otherwise cs
    let t ← test.lower
    let es ← lowerAll body
    let e ← Core.inSequence es
    pure (.branch t e (some rest))

/-- true if all tests hold, else false -/
def lowerConj : List Expr → Except LoweringError Core
  | [] => .ok Core.truth
  | e :: es => do
    let rest ← lowerConj es
    let t ← e.lower
    pure (.branch t rest (some Core.falsity))

/-- true if a test holds, else false -/
def lowerDisj : List Expr → Except LoweringError Core
  | [] => .ok Core.falsity
  | e :: es => do
    let rest ← lowerDisj es
    let t ← e.lower
    pure (.branch t Core.truth (some rest))

end

end Expr

end SchemeStack
