/-
Data: what a program text reads as, before any meaning is given to it.

A datum is an atom, the empty list, or a pair. A list is a chain of pairs; it is proper if the chain ends in the empty
list. Every datum but the empty list carries a mark of its place in the source, and so does every pair of a chain,
though the reader marks only the first. Marks do not count when data are compared: `same` looks at the bare data.

The view of a list is `elements`, the heads along its chain, with `ending`, where the chain ends.
-/
import SchemeStack.Datum.Keyword
import SchemeStack.Source.Position

namespace SchemeStack

open SchemeStack.Source

/-- an atom, the empty list, or a pair, with marks of their places -/
inductive Datum where
  | bool (b : Bool) (mark : Mark)
  | int (n : Int) (mark : Mark)
  | str (text : String) (mark : Mark)
  | sym (name : String) (mark : Mark)
  | kw (word : Keyword) (mark : Mark)
  | nil
  | pair (head tail : Datum) (mark : Mark)
  deriving DecidableEq, Inhabited

/-- the kinds of data that messages speak of -/
inductive DatumKind where
  | boolean
  | integer
  | identifier
  | literal
  | keyword
  | list
  deriving DecidableEq, Inhabited

def DatumKind.name : DatumKind → String
  | .boolean => "boolean"
  | .integer => "integer"
  | .identifier => "identifier"
  | .literal => "literal"
  | .keyword => "keyword"
  | .list => "list"

def DatumKind.ofName? (name : String) : Option DatumKind :=
  [DatumKind.boolean, .integer, .identifier, .literal, .keyword, .list].find? (·.name == name)

namespace Datum

/-- the kind of a datum; a string is the literal -/
def kind : Datum → DatumKind
  | bool _ _ => .boolean
  | int _ _ => .integer
  | str _ _ => .literal
  | sym _ _ => .identifier
  | kw _ _ => .keyword
  | nil => .list
  | pair _ _ _ => .list

/-- what is known of the place of a datum; the empty list has none -/
def mark : Datum → Mark
  | bool _ m => m
  | int _ m => m
  | str _ m => m
  | sym _ m => m
  | kw _ m => m
  | nil => .unknown
  | pair _ _ m => m

/-- the datum with another mark; the empty list stays as it is -/
def withMark (m : Mark) : Datum → Datum
  | bool b _ => bool b m
  | int n _ => int n m
  | str text _ => str text m
  | sym name _ => sym name m
  | kw word _ => kw word m
  | nil => nil
  | pair head tail _ => pair head tail m

/-- the datum without any marks -/
def bare : Datum → Datum
  | bool b _ => bool b .unknown
  | int n _ => int n .unknown
  | str text _ => str text .unknown
  | sym name _ => sym name .unknown
  | kw word _ => kw word .unknown
  | nil => nil
  | pair head tail _ => pair head.bare tail.bare .unknown

def same (a b : Datum) : Bool := a.bare == b.bare

def isList : Datum → Bool
  | nil => true
  | pair _ _ _ => true
  | _ => false

def isPair : Datum → Bool
  | pair _ _ _ => true
  | _ => false

def symbol? : Datum → Option String
  | sym name _ => some name
  | _ => none

def elements : Datum → List Datum
  | pair head tail _ => head :: tail.elements
  | _ => []

/-- where the chain of a list ends: at the empty list if it is proper -/
def ending : Datum → Datum
  | pair _ tail _ => tail.ending
  | d => d

/-- the chain ends at the empty list -/
def isProper : Datum → Bool
  | nil => true
  | pair _ tail _ => tail.isProper
  | _ => false

/-- the end of an improper chain -/
def improperEnd? (d : Datum) : Option Datum := if d.isProper then none else some d.ending

/-- the chain of those elements that ends at `last`, without marks -/
def chain (elements : List Datum) (last : Datum) : Datum :=
  elements.foldr (fun head tail => pair head tail .unknown) last

def ofList (elements : List Datum) : Datum := chain elements nil

/-- the dot that marks the tail of a written list -/
def isDot : Datum → Bool
  | kw .dot _ => true
  | _ => false

/-- an identifier read as a keyword if it is a reserved word, else as a symbol -/
def ofIdentifier (name : String) (m : Mark) : Datum :=
  match Keyword.ofName? name with
  | some word => kw word m
  | none => sym name m

end Datum

end SchemeStack
