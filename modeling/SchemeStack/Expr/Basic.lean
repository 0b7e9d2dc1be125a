/-
Expressions of the surface language, as the analysis of a form yields them.

Seven kinds are primitive: literals, variables, quotations, calls, procedures, conditionals and assignments. The others
are derived, and lowering (`SchemeStack.Core.Lowering`) explains them by the primitive ones. A template is a quasiquoted
form whose parts have already become calls that build it.

A procedure and a sequence built in code must have a body (`lambda?`, `sequence?`). Data inside expressions carry marks
of their places; `same` compares expressions with the marks left out.
-/
import SchemeStack.Datum.Basic

namespace SchemeStack

structure Binding (α : Type) where
  name : String
  value : α

/-- a test and what follows if it holds -/
structure Clause (α : Type) where
  test : α
  body : List α

inductive Expr where
  | literal (d : Datum)
  | var (name : String)
  | quotation (d : Datum)
  | call (operator : Expr) (operands : List Expr)
  | lambda (params : List String) (rest : Option String) (body : List Expr)
  | branch (test consequent : Expr) (alternative : Option Expr)
  | assign (name : String) (value : Expr)
  | letIn (bindings : List (Binding Expr)) (body : List Expr)
  | letRec (bindings : List (Binding Expr)) (body : List Expr)
  | namedLet (name : String) (bindings : List (Binding Expr)) (body : List Expr)
  | sequence (body : List Expr)
  | cond (clauses : List (Clause Expr)) (otherwise : Option (List Expr))
  | conj (body : List Expr)
  | disj (body : List Expr)
  | template (depth : Int) (body : Expr)
  deriving Inhabited

namespace Expr

/-- the expression has a meaning of its own; the others are explained by lowering -/
def isPrimitive : Expr → Bool
  | literal _ => true
  | var _ => true
  | quotation _ => true
  | call _ _ => true
  | lambda _ _ _ => true
  | branch _ _ _ => true
  | assign _ _ => true
  | _ => false

/-- the expression may stand as the operator of a call -/
def isOperator : Expr → Bool
  | var _ => true
  | call _ _ => true
  | lambda _ _ _ => true
  | _ => false

/-- a procedure, if it has a body -/
def lambda? (params : List String) (rest : Option String) (body : List Expr) : Option Expr :=
  if body.isEmpty then none else some (lambda params rest body)

/-- a sequence, if it has a body -/
def sequence? (body : List Expr) : Option Expr := if body.isEmpty then none else some (sequence body)

mutual

/-- equal, with the marks of the data left out -/
def same : Expr → Expr → Bool
  | literal a, literal b => a.same b
  | var a, var b => a == b
  | quotation a, quotation b => a.same b
  | call f as, call g bs => f.same g && sameAll as bs
  | lambda ps r as, lambda qs s bs => ps == qs && r == s && sameAll as bs
  | branch t c none, branch u d none => t.same u && c.same d
  | branch t c (some a), branch u d (some b) => t.same u && c.same d && a.same b
  | assign x a, assign y b => x == y && a.same b
  | letIn xs as, letIn ys bs => sameBindings xs ys && sameAll as bs
  | letRec xs as, letRec ys bs => sameBindings xs ys && sameAll as bs
  | namedLet x xs as, namedLet y ys bs => x == y && sameBindings xs ys && sameAll as bs
  | sequence as, sequence bs => sameAll as bs
  | cond cs none, cond ds none => sameClauses cs ds
  | cond cs (some as), cond ds (some bs) => sameClauses cs ds && sameAll as bs
  | conj as, conj bs => sameAll as bs
  | disj as, disj bs => sameAll as bs
  | template m a, template n b => m == n && a.same b
  | _, _ => false

def sameAll : List Expr → List Expr → Bool
  | [], [] => true
  | a :: as, b :: bs => a.same b && sameAll as bs
  | _, _ => false

/-- the same names bound to the same expressions in the same order -/
def sameBindings : List (Binding Expr) → List (Binding Expr) → Bool
  | [], [] => true
  | ⟨x, a⟩ :: as, ⟨y, b⟩ :: bs => x == y && a.same b && sameBindings as bs
  | _, _ => false

def sameClauses : List (Clause Expr) → List (Clause Expr) → Bool
  | [], [] => true
  | ⟨t, as⟩ :: cs, ⟨u, bs⟩ :: ds => t.same u && sameAll as bs && sameClauses cs ds
  | _, _ => false

end

end Expr

end SchemeStack
