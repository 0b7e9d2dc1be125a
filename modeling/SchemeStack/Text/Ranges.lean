/-
Character classes given as tables of code point ranges.

A table is a list of closed ranges, in increasing order. A look-up stops at the first range that begins above the code
point, so ASCII characters, which are nearly all of a program's text, are answered by the first entries.
-/
namespace SchemeStack.Text

/-- a class of characters: closed ranges of code points, in increasing order -/
abbrev Ranges := List (Nat × Nat)

/-- the code point lies in one of the ranges -/
def Ranges.covers : Ranges → Nat → Bool
  | [], _ => false
  | (first, last) :: rest, n => if n < first then false else n ≤ last || covers rest n

end SchemeStack.Text
