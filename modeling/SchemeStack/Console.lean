/-
The console: a session held line by line.

A line is added to those pending. When together they are complete, they are one entry: it is processed, its lines are
shown, and the console asks anew. A fault is reported and the session goes on. An interrupt abandons the pending lines;
with none pending, it ends the session, as the end of input does. A breakdown of the compiler is not reported: it ends
the dialogue, and nothing is left to say.

`Console.step` is the answer to one input and `Console.run` the transcript of a whole dialogue. Prompts are part of the
output; what the user types is not.
-/
import SchemeStack.Session
import SchemeStack.Settings

namespace SchemeStack

open SchemeStack.Text

/-- what was written to the output and to the error output -/
structure Transcript where
  out : String
  err : String
  deriving DecidableEq

namespace Transcript

def empty : Transcript := ⟨"", ""⟩

def append (a b : Transcript) : Transcript := ⟨a.out ++ b.out, a.err ++ b.err⟩

instance : Append Transcript := ⟨append⟩

def say (text : String) : Transcript := ⟨text, ""⟩

def complain (text : String) : Transcript := ⟨"", text⟩

end Transcript

def DiagnosticKind.heading : DiagnosticKind → String
  | .lexEnd | .lexInvalid | .lexUnbalanced | .parseEnd | .parseUnbalanced | .parseExpected => "Read error: "
  | .wrongKind | .arity | .emptySequence | .malformed => "Analysis error: "
  | _ => "Compile error: "

/-- the report of a fault: its message with its place, and the excerpt below -/
def Diagnostic.report (d : Diagnostic) (before : Int) : String := d.kind.heading ++ d.render before ++ "\n"

/-- the report of a failure; there is none of a breakdown -/
def Failure.report? (f : Failure) (before : Int) : Except Failure String :=
  match f with
  | .diagnostic d => if d.kind.isBreakdown then .error f else .ok (d.report before)
  | .lowering _ => .error f

/-- how much a console says -/
structure Verbosity where
  /-- the notes of every stage are logged -/
  log : Bool
  /-- the lines in front of an excerpt -/
  excerptLines : Int

/-- the notes of a run, if they are wanted -/
def Verbosity.logged (v : Verbosity) (notes : List Note) : String :=
  if v.log then String.join (notes.map Note.record) else ""

/-- what comes from the user -/
inductive Input where
  | line (text : String)
  | interrupt
  | endOfInput
  deriving DecidableEq

structure Console where
  session : Session
  pending : List String

namespace Console

def prompt (c : Console) : String := if c.pending.isEmpty then "> " else ". "

def enter (v : Verbosity) (s : Session) (text : String) : Except Failure (Transcript × Session) :=
  if allBlank text then pure (.empty, s)
  else
    let (r, after) := s.enter text
    match r.outcome with
    | .ok lines => pure (⟨printLines lines, v.logged r.notes⟩, after)
    | .error failure => do
      let report ← failure.report? v.excerptLines
      pure (.complain (v.logged r.notes ++ report), after)

/-- the answer to one input, and the console after it unless the session ends -/
def step (v : Verbosity) (c : Console) : Input → Except Failure (Transcript × Option Console)
  | .endOfInput => pure (.say "\n", none)
  | .interrupt => pure (.say "\n", if c.pending.isEmpty then none else some { c with pending := [] })
  | .line line => do
    let lines := c.pending ++ [line]
    if ← (isComplete (joinLines lines)).mapError .diagnostic then
      let (said, session) ← enter v c.session (joinLines lines)
      pure (said, some ⟨session, []⟩)
    else pure (.empty, some { c with pending := lines })

/-- the transcript of a dialogue; after the last input comes the end of input -/
def run (v : Verbosity) : Console → List Input → Except Failure Transcript
  | c, [] => do
    let (said, _) ← c.step v .endOfInput
    pure (.say c.prompt ++ said)
  | c, input :: inputs => do
    let (said, next) ← c.step v input
    let rest ← match next with
      | some c => run v c inputs
      | none => pure .empty
    pure (.say c.prompt ++ said ++ rest)

def banner : String := "Zymogen v" ++ Settings.version ++ ". Press Ctrl-D to exit.\n"

end Console

end SchemeStack
