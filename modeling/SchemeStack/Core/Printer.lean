/-
The printed form of core expressions.

Bodies and branches go on lines of their own, four spaces further in at each level. The value of a binding, the test of
a conditional and the parts of an application are printed as if they stood alone, at the left edge.
-/
import SchemeStack.Core.Basic
import SchemeStack.Expr.Printer

namespace SchemeStack.Core

open SchemeStack.Text

mutual

/-- the printed form of an expression at a level of nesting, with its indentation -/
def printAt (level : Nat) : Core → String
  | var name => spaces (4 * level) ++ name
  | val v => spaces (4 * level) ++ v.print
  | quote v => spaces (4 * level) ++ "'" ++ v.print
  | letIn name value body =>
    spaces (4 * level) ++ "(let ((" ++ name ++ " " ++ value.printAt 0 ++ "))\n" ++ body.printAt (level + 1) ++ ")"
  | lambda params rest body =>
    spaces (4 * level) ++ "(λ " ++ printParams params rest ++ "\n" ++ body.printAt (level + 1) ++ ")"
  | app operator operands =>
    spaces (4 * level) ++ "(" ++ joinWords (operator.printAt 0 :: printAll operands) ++ ")"
  | branch test consequent none =>
    spaces (4 * level) ++ "(if " ++ test.printAt 0 ++ "\n" ++ consequent.printAt (level + 1) ++ ")"
  | branch test consequent (some alternative) =>
    spaces (4 * level) ++ "(if " ++ test.printAt 0 ++ "\n" ++ consequent.printAt (level + 1) ++ "\n" ++
      alternative.printAt (level + 1) ++ ")"
  | assign name value => spaces (4 * level) ++ "(set! " ++ name ++ "\n" ++ value.printAt (level + 1) ++ ")"

def printAll : List Core → List String
  | [] => []
  | e :: es => e.printAt 0 :: printAll es

end

def print (e : Core) : String := e.printAt 0

def kindName : Core → String
  | var _ => "Var"
  | val _ => "Val"
  | quote _ => "Quote"
  | letIn _ _ _ => "Let"
  | lambda _ _ _ => "Lambda"
  | app _ _ => "App"
  | branch _ _ _ => "If"
  | assign _ _ => "Set"

def display (e : Core) : String := "<" ++ e.kindName ++ " " ++ e.print ++ ">"

end SchemeStack.Core
