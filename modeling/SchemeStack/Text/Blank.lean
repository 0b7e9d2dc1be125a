/-
Blank characters: what separates tokens and what is trimmed from the ends of a line.

The class is wider than the blanks of ASCII: it has the information separators, the next-line control and the space
separators of Unicode. Only the line feed ends a line (`SchemeStack.Source.Pos`); the others are blank all the same.
-/
import SchemeStack.Text.Ranges

namespace SchemeStack.Text

def blankRanges : Ranges :=
  [(0x9, 0xd), (0x1c, 0x20), (0x85, 0x85), (0xa0, 0xa0), (0x1680, 0x1680), (0x2000, 0x200a), (0x2028, 0x2029),
    (0x202f, 0x202f), (0x205f, 0x205f), (0x3000, 0x3000)]

/-- a character that separates tokens and stands for nothing else -/
def isBlank (c : Char) : Bool := blankRanges.covers c.toNat

def allBlank (text : String) : Bool := text.toList.all isBlank

end SchemeStack.Text
