/-
Quotation: the expression that builds a quoted datum.

There are no list constants, so a quoted list becomes calls of `cons` around the quotations of its atoms. A list may be
dotted: written with the dot marker in front of its last element, or built in code as a chain that does not end at the
empty list. `dottedFault?` rejects every other place of a dot.

The end of a list is quoted before its elements, and the elements from the last to the first: of several faults, the
one met first in that order is reported.
-/
import SchemeStack.Diagnostic.Basic
import SchemeStack.Expr.Basic

namespace SchemeStack

namespace Expr

def consCall (head tail : Expr) : Expr := call (var "cons") [head, tail]

def appendCall (front back : Expr) : Expr := call (var "append") [front, back]

end Expr

namespace Datum

/-- a dot stands elsewhere than in front of the last element of a proper list, with an element before it -/
def dottedFault? (form : Datum) : Option Diagnostic :=
  match form.elements.findIdx? isDot with
  | none => none
  | some i =>
    if i = 0 ∨ i + 2 ≠ form.elements.length ∨ form.isProper = false then some (.ofForm .malformedDottedList form)
    else
      -- what follows the dot ends the list
      match itemAt? form.elements (i + 1) with
      | .ok _ => none
      | .error e => some (.broken (.access e))

mutual

def quote : Datum → Except Diagnostic Expr
  | pair head tail m =>
    match dottedFault? (pair head tail m) with
    | some fault => .error fault
    | none => do
      let rest ← tail.quoteRest
      let first ← head.quote
      pure (.consCall first rest)
  | d => .ok (.quotation d)

/-- the expression that builds the rest of a quoted list; what follows a dot marker is its end -/
def quoteRest : Datum → Except Diagnostic Expr
  | pair (kw .dot _) (pair last nil _) _ => last.quote
  | pair head tail _ => do
    let rest ← tail.quoteRest
    let first ← head.quote
    pure (.consCall first rest)
  | d => .ok (.quotation d)

end

end Datum

end SchemeStack
