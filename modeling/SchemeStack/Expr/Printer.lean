/-
The printed form of surface expressions.

An expression is printed on one line in the syntax of the language, with a lambda for procedures. A bare rest parameter
stands without parentheses, as it is written.
-/
import SchemeStack.Datum.Printer
import SchemeStack.Expr.Basic
import SchemeStack.Text.Layout

namespace SchemeStack

open SchemeStack.Text

def printParams (params : List String) : Option String → String
  | none => "(" ++ joinWords params ++ ")"
  | some rest => if params.isEmpty then rest else "(" ++ joinWords params ++ " . " ++ rest ++ ")"

namespace Expr

mutual

def print : Expr → String
  | literal d => d.print
  | var name => name
  | quotation d => "'" ++ d.print
  | call f [] => "(" ++ f.print ++ ")"
  | call f (a :: as) => "(" ++ f.print ++ " " ++ joinWords (a.print :: printAll as) ++ ")"
  | lambda params rest body => "(λ " ++ printParams params rest ++ " " ++ joinWords (printAll body) ++ ")"
  | branch t c none => "(if " ++ t.print ++ " " ++ c.print ++ ")"
  | branch t c (some a) => "(if " ++ t.print ++ " " ++ c.print ++ " " ++ a.print ++ ")"
  | assign name value => "(set! " ++ name ++ " " ++ value.print ++ ")"
  | letIn bindings body =>
    "(let (" ++ joinWords (printBindings bindings) ++ ") " ++ joinWords (printAll body) ++ ")"
  | letRec bindings body =>
    "(letrec (" ++ joinWords (printBindings bindings) ++ ") " ++ joinWords (printAll body) ++ ")"
  | namedLet name bindings body =>
    "(let " ++ name ++ " (" ++ joinWords (printBindings bindings) ++ ") " ++ joinWords (printAll body) ++ ")"
  | sequence body => "(begin " ++ joinWords (printAll body) ++ ")"
  | cond clauses none => "(cond" ++ String.join (printClauses clauses) ++ ")"
  | cond clauses (some body) =>
    "(cond" ++ String.join (printClauses clauses) ++ " (else" ++ String.join ((printAll body).map (" " ++ ·)) ++ "))"
  | conj body => "(and" ++ String.join ((printAll body).map (" " ++ ·)) ++ ")"
  | disj body => "(or" ++ String.join ((printAll body).map (" " ++ ·)) ++ ")"
  | template depth body => "(quasiquoted " ++ toString depth ++ " " ++ body.print ++ ")"

def printAll : List Expr → List String
  | [] => []
  | e :: es => e.print :: printAll es

def printBindings : List (Binding Expr) → List String
  | [] => []
  | ⟨name, value⟩ :: bs => ("(" ++ name ++ " " ++ value.print ++ ")") :: printBindings bs

/-- each clause in parentheses, after a space -/
def printClauses : List (Clause Expr) → List String
  | [] => []
  | ⟨test, body⟩ :: cs => (" (" ++ test.print ++ " " ++ joinWords (printAll body) ++ ")") :: printClauses cs

end

def kindName : Expr → String
  | literal _ => "Literal"
  | var _ => "Variable"
  | quotation _ => "Quotation"
  | call _ _ => "Call"
  | lambda _ _ _ => "Lambda"
  | branch _ _ _ => "If"
  | assign _ _ => "Assignment"
  | letIn _ _ => "Let"
  | letRec _ _ => "LetRec"
  | namedLet _ _ _ => "NamedLet"
  | sequence _ => "Begin"
  | cond _ _ => "Cond"
  | conj _ => "And"
  | disj _ => "Or"
  | template _ _ => "Quasiquoted"

def display (e : Expr) : String := "<" ++ e.kindName ++ " " ++ e.print ++ ">"

end Expr

end SchemeStack
