/-
Excerpts: the lines of a source that lead up to a place, numbered from one, and a caret below the place.

    |1| (define (f x)
    |2|   (g x)))
                ^

The line numbers are aligned to the width of the last one, and a place below the last line of the text is shown on
empty lines added for it. A place above or to the left of the text leaves only what there is to show: no lines for a
negative line, and a caret at the left edge for a column too far to the left.
-/
import SchemeStack.Text.Layout

namespace SchemeStack.Source

open SchemeStack.Text

/-- the terminal codes put around the caret -/
structure CaretStyle where
  before : String
  after : String
  deriving DecidableEq

def CaretStyle.plain : CaretStyle := ⟨"", ""⟩

/-- one numbered line of an excerpt -/
def excerptLine (width number : Nat) (line : List Char) : String :=
  "|" ++ alignRight width (toString number) ++ "| " ++ String.ofList line

/-- the excerpt of a text at a place, with up to `before` lines in front of the line of the place -/
def excerpt (text : String) (line column before : Int) (style : CaretStyle) : String :=
  let lines := linesOf text.toList
  let width := (toString (line + 1)).length
  let first := (line - before).toNat
  let count := (line + 1 - (first : Int)).toNat
  let numbered := (List.range count).map fun i => excerptLine width (first + i + 1) (lines.getD (first + i) [])
  let caret := spaces ((width : Int) + 3 + column).toNat ++ style.before ++ "^" ++ style.after
  joinLines (numbered ++ [caret])

end SchemeStack.Source
