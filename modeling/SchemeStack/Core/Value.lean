/-
Atomic values: the constants of a program.

The constants are strings, booleans, integers, symbols and the empty list. Every datum but a pair has a value; a
keyword counts as the symbol of its name. There are no list constants: lists are built when the program runs.
-/
import SchemeStack.Datum.Access

namespace SchemeStack

inductive Value where
  | string (text : String)
  | boolean (b : Bool)
  | integer (n : Int)
  | symbol (name : String)
  | nil
  deriving DecidableEq, Inhabited

namespace Value

def print : Value → String
  | string text => "\"" ++ text ++ "\""
  | boolean b => if b then "#t" else "#f"
  | integer n => toString n
  | symbol name => name
  | nil => "()"

def kindName : Value → String
  | string _ => "string"
  | boolean _ => "boolean"
  | integer _ => "integer"
  | symbol _ => "symbol"
  | nil => "nil"

def display (v : Value) : String := "<Value " ++ v.kindName ++ " " ++ v.print ++ ">"

/-- the constant that a datum writes; a pair writes none -/
def ofDatum? : Datum → Except DatumError Value
  | .bool b _ => .ok (boolean b)
  | .int n _ => .ok (integer n)
  | .str text _ => .ok (string text)
  | .sym name _ => .ok (symbol name)
  | .kw word _ => .ok (symbol word.name)
  | .nil => .ok nil
  | d => .error (.noAtomicValue d)

end Value

end SchemeStack
