/-
Laying out text: padding, lines and line endings.

A text's lines are what stands between its line feeds, so the text `"a\n"` has two lines, the second empty. Files may
end their lines in other ways; `unifyLineEnds` brings them to this form.
-/
namespace SchemeStack.Text

def spaces (n : Nat) : String := String.ofList (List.replicate n ' ')

/-- a text moved to the right end of a column -/
def alignRight (width : Nat) (text : String) : String := spaces (width - text.length) ++ text

def linesOf : List Char → List (List Char)
  | [] => [[]]
  | '\n' :: cs => [] :: linesOf cs
  | c :: cs =>
    match linesOf cs with
    | [] => [[c]]
    | line :: rest => (c :: line) :: rest

def joinLines (lines : List String) : String := "\n".intercalate lines

/-- texts put together, with a space between two -/
def joinWords (words : List String) : String := " ".intercalate words

/-- each text on a line of its own -/
def printLines (lines : List String) : String := String.join (lines.map (· ++ "\n"))

/-- turns a carriage return, with or without a line feed after it, into a line feed -/
def unifyLineEnds : List Char → List Char
  | [] => []
  | '\r' :: '\n' :: cs => '\n' :: unifyLineEnds cs
  | '\r' :: cs => '\n' :: unifyLineEnds cs
  | c :: cs => c :: unifyLineEnds cs

end SchemeStack.Text
