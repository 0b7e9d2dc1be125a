/-
Positions in a source text, counted from zero.

`Pos` is where a cursor stands: each line feed passed starts a new line, every other character moves one column on.
`Mark` is what a datum or an error knows of its place. Data built in code have no place, or only a part of one, and
may name a place outside the text, so a mark's two numbers are optional integers.
-/
namespace SchemeStack.Source

/-- a place in a text: lines before it, characters before it on its line -/
structure Pos where
  line : Nat
  column : Nat
  deriving DecidableEq, Inhabited

def Pos.start : Pos := ⟨0, 0⟩

/-- the place after one more character -/
def Pos.step (p : Pos) (c : Char) : Pos :=
  if c = '\n' then ⟨p.line + 1, 0⟩ else ⟨p.line, p.column + 1⟩

/-- the place after a run of characters -/
def Pos.after (p : Pos) (run : List Char) : Pos := run.foldl Pos.step p

@[simp] theorem Pos.after_nil (p : Pos) : p.after [] = p := rfl

@[simp] theorem Pos.after_cons (p : Pos) (c : Char) (run : List Char) :
    p.after (c :: run) = (p.step c).after run := rfl

theorem Pos.after_append (p : Pos) (a b : List Char) : p.after (a ++ b) = (p.after a).after b :=
  List.foldl_append

/-- what is known of a thing's place in its source -/
structure Mark where
  line : Option Int
  column : Option Int
  deriving DecidableEq, Inhabited

/-- nothing is known of the place -/
def Mark.unknown : Mark := ⟨none, none⟩

def Pos.mark (p : Pos) : Mark := ⟨some p.line, some p.column⟩

/-- the place, if both its line and its column are known -/
def Mark.place? (m : Mark) : Option (Int × Int) :=
  match m.line, m.column with
  | some line, some column => some (line, column)
  | _, _ => none

/-- both line and column are known -/
def Mark.isKnown (m : Mark) : Bool := m.place?.isSome

@[simp] theorem Pos.place?_mark (p : Pos) : p.mark.place? = some ((p.line : Int), (p.column : Int)) := rfl

@[simp] theorem Mark.place?_unknown : Mark.unknown.place? = none := rfl

end SchemeStack.Source
