/-
Sessions: texts entered one after the other, each taken to a chosen stage and shown.

A session keeps its symbol table from one entry to the next, so a fresh name is fresh for the whole session. Each form
of an entry goes through all stages before the next form; a fault ends the entry, and what the forms before it did to
the table stays.

`isComplete` tells whether a text can be read, or should be continued on another line: lists and strings are closed.
A close parenthesis too many does not make it wait, unless more lists are opened behind it than were closed too many.
Where the scan of the text breaks down, so does the question.
-/
import SchemeStack.Pipeline

namespace SchemeStack

open SchemeStack.Text

inductive Stage where
  | data
  | exprs
  | cores
  | normalForms
  | code
  deriving DecidableEq, Inhabited

def Stage.name : Stage → String
  | .data => "parse"
  | .exprs => "analyze"
  | .cores => "expand"
  | .normalForms => "normalize"
  | .code => "compile"

def Stage.all : List Stage := [.data, .exprs, .cores, .normalForms, .code]

def Stage.ofName? (name : String) : Option Stage := all.find? (·.name == name)

/-- what a session shows, and the names it knows -/
structure Session where
  shows : Stage
  optimize : Bool
  table : SymbolTable

namespace Session

def start (shows : Stage) (optimize : Bool) : Session := ⟨shows, optimize, .empty⟩

/-- a unit of code with its constants, one to a line -/
def listUnit (u : CodeUnit) : List String :=
  listCode u.code ++ u.gen.constants.zipIdx.map fun (c, n) => "   [" ++ toString n ++ "] " ++ c.print

/-- takes one form of an entry to the stage shown: the lines to show, and the table after it -/
def enterForm (s : Session) (text : String) (d : Datum) : Run (List String × SymbolTable) :=
  if s.shows = .data then pure ([d.print], s.table)
  else do
    let e ← Run.expr text d
    if s.shows = .exprs then pure ([e.print], s.table)
    else do
      let c ← Run.core e
      if s.shows = .cores then pure ([c.print], s.table)
      else do
        let (n, table) ← Run.normal s.optimize s.table c
        if s.shows = .normalForms then pure ([n.print], table)
        else
          let u := (CodeUnit.ofTable table).add n
          pure (listUnit u, u.gen.table)

/-- takes the forms of an entry to the stage shown, one after the other -/
def enterForms (text : String) : Session → List Datum → Run (List String) × Session
  | s, [] => (pure [], s)
  | s, d :: ds =>
    let r := s.enterForm text d
    match r.outcome with
    | .error failure => (⟨r.notes, .error failure⟩, s)
    | .ok (lines, table) =>
      let (rest, after) := enterForms text { s with table } ds
      (⟨r.notes ++ rest.notes, rest.outcome.map (lines ++ ·)⟩, after)

/-- takes an entry to the stage shown: the lines to show, and the session after it -/
def enter (s : Session) (text : String) : Run (List String) × Session :=
  let r := Run.data text
  match r.outcome with
  | .error failure => (⟨r.notes, .error failure⟩, s)
  | .ok ds =>
    let (rest, after) := enterForms text s ds
    (⟨r.notes ++ rest.notes, rest.outcome⟩, after)

end Session

/-- whether a text that ends in a fault can be read as far as more text is concerned -/
def completeAtFault (fault : Diagnostic) : Except Diagnostic Bool :=
  if fault.kind.isBreakdown then .error fault else .ok (fault.kind != .lexUnbalanced)

/-- no list is open after these events, or a fault comes first that more text does not mend -/
def isCompleteFrom (ending : Ending) : List Event → (depth : Int) → Except Diagnostic Bool
  | [], depth =>
    match ending with
    | .finished _ => .ok (depth ≤ 0)
    | .stuck fault => completeAtFault fault
  | .error fault :: _, _ => completeAtFault fault
  | .ok t :: events, depth =>
    match t.lexeme with
    | .leftParen => isCompleteFrom ending events (depth + 1)
    | .rightParen => isCompleteFrom ending events (depth - 1)
    | _ => isCompleteFrom ending events depth

/-- the text can be read as it is -/
def isComplete (text : String) : Except Diagnostic Bool :=
  let feed := Feed.ofText text
  isCompleteFrom feed.ending feed.events 0

end SchemeStack
