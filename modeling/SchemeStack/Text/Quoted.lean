/-
Quoted text: a text between quotation marks, on one line, with every character visible.

The marks are single quotes, unless the text has a single quote and no double quote: then double quotes save the
escape. A backslash and the mark in use are escaped, the line feed, carriage return and tab have their letters, and a
hidden character (`isHidden`) is spelled by its code point with two, four or eight hexadecimal digits, the fewest of
these that suffice.
-/
import SchemeStack.Text.Hidden

namespace SchemeStack.Text

/-- the digits of a number in base sixteen, padded with zeros to a width -/
def hexPadded (width n : Nat) : String :=
  let digits := Nat.toDigits 16 n
  String.ofList (List.replicate (width - digits.length) '0' ++ digits)

/-- a character spelled by its code point -/
def spelled (c : Char) : String :=
  if c.toNat < 0x100 then "\\x" ++ hexPadded 2 c.toNat
  else if c.toNat < 0x10000 then "\\u" ++ hexPadded 4 c.toNat
  else "\\U" ++ hexPadded 8 c.toNat

/-- a character as it stands between two marks -/
def quotedChar (mark c : Char) : String :=
  if c = '\\' then "\\\\"
  else if c = mark then String.ofList ['\\', mark]
  else if c = '\n' then "\\n"
  else if c = '\r' then "\\r"
  else if c = '\t' then "\\t"
  else if isHidden c then spelled c
  else c.toString

/-- the mark that a text is quoted with -/
def quotationMark (cs : List Char) : Char :=
  if cs.contains '\'' && !cs.contains '"' then '"' else '\''

def quoted (text : String) : String :=
  let mark := quotationMark text.toList
  mark.toString ++ String.join (text.toList.map (quotedChar mark)) ++ mark.toString

end SchemeStack.Text
