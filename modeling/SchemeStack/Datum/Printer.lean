/-
The written form of data.

A two-element list whose head has a sigil is written with the sigil. Other lists are written in parentheses with a
space between elements; a chain that does not end at the empty list has its end written after a dot. Strings are
written between double quotes as they are, for the reader knows no escapes.

A name may be empty in data built in code. As long as nothing but the open parenthesis has been written, no space is
put before an element.

`print` is the written form, `display` names the kind of an atom as well.
-/
import SchemeStack.Datum.Basic

namespace SchemeStack.Datum

/-- the written form of what is not a pair -/
def atomText : Datum → String
  | bool b _ => if b then "#t" else "#f"
  | int n _ => toString n
  | str text _ => "\"" ++ text ++ "\""
  | sym name _ => name
  | kw word _ => word.name
  | nil => "()"
  | pair _ _ _ => ""

mutual

def print : Datum → String
  | pair (kw word _) (pair operand nil _) _ =>
    match word.sigil? with
    | some sigil => sigil ++ operand.print
    | none => "(" ++ word.name ++ " " ++ operand.print ++ ")"
  | pair head tail _ =>
    let text := head.print
    "(" ++ text ++ tail.printTail (text != "") ++ ")"
  | d => d.atomText

/-- the rest of a list; `started` tells whether anything stands after the open parenthesis -/
def printTail : Datum → Bool → String
  | pair head tail _, started =>
    let text := head.print
    (if started then " " else "") ++ text ++ tail.printTail (started || text != "")
  | nil, _ => ""
  | d, _ => " . " ++ d.atomText

end

/-- an atom with the name of its kind; a pair as written -/
def display : Datum → String
  | bool b _ => "<Bool " ++ (if b then "true" else "false") ++ ">"
  | int n _ => "<Integer " ++ toString n ++ ">"
  | str text _ => "<String \"" ++ text ++ "\">"
  | sym name _ => "<Symbol " ++ name ++ ">"
  | kw word _ => "<Keyword " ++ word.name ++ ">"
  | nil => "<Nil>"
  | d => d.print

end SchemeStack.Datum
