/-
Building and taking apart data from code, where it can fail.

An integer literal is a signed 64-bit number. Length, iteration and conversion ask for a proper list; each has its own
message for an improper one. An index asks for an element there, and a list can be split into a given number of parts
only if it has as many elements.

Who takes a list apart without looking at it first may break down here; the analysis looks first.
-/
import SchemeStack.Datum.Printer

namespace SchemeStack

inductive DatumError where
  | integerRange (n : Int)
  | lengthOfImproper
  | iterationOfImproper
  | conversionOfImproper
  | negativeIndex
  | indexOutOfRange
  /-- there is no element at a position of a list of data -/
  | positionOutOfRange
  /-- a list was split into a number of parts other than that of its elements -/
  | splitting (expected actual : Nat)
  /-- the first element was split off an empty list -/
  | splittingEmpty
  | noAtomicValue (d : Datum)
  deriving DecidableEq

def DatumError.message : DatumError → String
  | .integerRange n => "Integer out of 64-bit range: " ++ toString n
  | .lengthOfImproper => "Cannot calculate the length of an improper list"
  | .iterationOfImproper => "Cannot iterate over an improper list"
  | .conversionOfImproper => "Not a proper list"
  | .negativeIndex => "Negative indices not supported"
  | .indexOutOfRange => "List index out of range"
  | .positionOutOfRange => "list index out of range"
  | .splitting expected actual =>
    if actual < expected then
      "not enough values to unpack (expected " ++ toString expected ++ ", got " ++ toString actual ++ ")"
    else "too many values to unpack (expected " ++ toString expected ++ ")"
  | .splittingEmpty => "not enough values to unpack (expected at least 1, got 0)"
  | .noAtomicValue d => "No atomic value for: " ++ d.display

namespace Datum

def maxInteger : Int := Int.pow 2 63 - 1

def minInteger : Int := -Int.pow 2 63

/-- the literal of an integer, if 64 bits hold it -/
def integer? (n : Int) (m : Source.Mark) : Except DatumError Datum :=
  if minInteger ≤ n ∧ n ≤ maxInteger then .ok (int n m) else .error (.integerRange n)

/-- the length of a list or of a string; other atoms have none -/
def length? : Datum → Except DatumError Nat
  | str text _ => .ok text.length
  | d => if d.isProper then .ok d.elements.length else .error .lengthOfImproper

/-- false, zero and the empty string count as empty, every other atom does not; a pair is asked for its length -/
def isFilled? : Datum → Except DatumError Bool
  | bool b _ => .ok b
  | int n _ => .ok (n != 0)
  | str text _ => .ok (text != "")
  | d@(pair _ _ _) => d.length?.map (· != 0)
  | _ => .ok true

/-- the elements of a proper list, one after the other -/
def iterate? (d : Datum) : Except DatumError (List Datum) :=
  if d.isProper then .ok d.elements else .error .iterationOfImproper

def toList? (d : Datum) : Except DatumError (List Datum) :=
  if d.isProper then .ok d.elements else .error .conversionOfImproper

def get? (d : Datum) (i : Int) : Except DatumError Datum :=
  if i < 0 then .error .negativeIndex
  else match d.elements[i.toNat]? with
    | some e => .ok e
    | none => .error .indexOutOfRange

end Datum

/-- the element at a position of a list of data -/
def itemAt? (ds : List Datum) (i : Nat) : Except DatumError Datum :=
  match ds[i]? with
  | some d => .ok d
  | none => .error .positionOutOfRange

/-- the elements behind the first one -/
def rest? : List Datum → Except DatumError (List Datum)
  | [] => .error .splittingEmpty
  | _ :: ds => .ok ds

/-- the two elements of a list of two -/
def both? : List Datum → Except DatumError (Datum × Datum)
  | [a, b] => .ok (a, b)
  | ds => .error (.splitting 2 ds.length)

end SchemeStack
