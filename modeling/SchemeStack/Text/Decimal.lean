/-
Decimal digits of every script, and the numerals written with them.

The decimal digits come in groups of ten consecutive code points, zero first, so a table of the zeros gives both the
class and the value of each digit. Digits of different scripts may be mixed in one numeral.

`readInt?` is the reading of a whole number from a setting: padding around it, a sign, and single underscores between
digits are accepted, and nothing else. A numeral of more than `maxDigits` digits is not converted.
-/
import SchemeStack.Text.Blank

namespace SchemeStack.Text

/-- the zero of each group of ten decimal digits -/
def digitZeros : List Nat :=
  [
    0x30, 0x660, 0x6f0, 0x7c0, 0x966, 0x9e6, 0xa66, 0xae6, 0xb66, 0xbe6, 0xc66, 0xce6,
    0xd66, 0xde6, 0xe50, 0xed0, 0xf20, 0x1040, 0x1090, 0x17e0, 0x1810, 0x1946, 0x19d0, 0x1a80,
    0x1a90, 0x1b50, 0x1bb0, 0x1c40, 0x1c50, 0xa620, 0xa8d0, 0xa900, 0xa9d0, 0xa9f0, 0xaa50, 0xabf0,
    0xff10, 0x104a0, 0x10d30, 0x11066, 0x110f0, 0x11136, 0x111d0, 0x112f0, 0x11450, 0x114d0, 0x11650, 0x116c0,
    0x11730, 0x118e0, 0x11950, 0x11c50, 0x11d50, 0x11da0, 0x16a60, 0x16ac0, 0x16b50, 0x1d7ce, 0x1d7d8, 0x1d7e2,
    0x1d7ec, 0x1d7f6, 0x1e140, 0x1e2f0, 0x1e950, 0x1fbf0]

/-- the value of a decimal digit, found by the group it stands in -/
def digitValueFrom : List Nat → Nat → Option Nat
  | [], _ => none
  | base :: bases, n => if n < base then none else if n < base + 10 then some (n - base) else digitValueFrom bases n

def digitValue? (c : Char) : Option Nat := digitValueFrom digitZeros c.toNat

/-- a decimal digit of any script -/
def isDigit (c : Char) : Bool := (digitValue? c).isSome

/-- the number that a run of decimal digits writes; other characters count as zero -/
def numeralValue (digits : List Char) : Nat :=
  digits.foldl (fun n c => 10 * n + (digitValue? c).getD 0) 0

/-- the most digits that are converted to a number -/
def maxDigits : Nat := 4300

/-- the digits of a numeral in which an underscore may stand between two digits -/
def digitsOf? : List Char → Option (List Char)
  | [] => none
  | [c] => if isDigit c then some [c] else none
  | c :: '_' :: rest => if isDigit c then (digitsOf? rest).map (c :: ·) else none
  | c :: rest => if isDigit c then (digitsOf? rest).map (c :: ·) else none

/-- reads an unsigned numeral -/
def readNat? (cs : List Char) : Option Nat :=
  (digitsOf? cs).bind fun digits => if digits.length ≤ maxDigits then some (numeralValue digits) else none

/-- reads a numeral with an optional sign in front -/
def readSigned? : List Char → Option Int
  | '-' :: cs => (readNat? cs).map fun n => -(n : Int)
  | '+' :: cs => (readNat? cs).map fun n => (n : Int)
  | cs => (readNat? cs).map fun n => (n : Int)

/-- a blank that may stand around a number; the information separators may not -/
def isPadding (c : Char) : Bool := isBlank c && !(0x1c ≤ c.toNat && c.toNat ≤ 0x1f)

/-- the characters without the padding at their two ends -/
def trimPadding (cs : List Char) : List Char :=
  ((cs.dropWhile isPadding).reverse.dropWhile isPadding).reverse

/-- reads a whole number from the text of a setting -/
def readInt? (text : String) : Option Int := readSigned? (trimPadding text.toList)

end SchemeStack.Text
