/-
From a source text to each form of it: tokens, data, surface expressions, core expressions, A-normal forms, a program.

Every function takes a text through all stages up to its own. A stage is run on all forms of the text before the next
one starts; only A-normal form and the removal of dead bindings alternate, form by form. The first fault ends the run.

A run notes what each stage yields, for whoever wants to follow it. `Note.record` is the text of a note.
-/
import SchemeStack.Core.DeadBinding
import SchemeStack.Core.Lowering
import SchemeStack.Core.NormalForm
import SchemeStack.Core.Printer
import SchemeStack.Datum.Reader
import SchemeStack.Expr.Analysis
import SchemeStack.Machine.Codegen

namespace SchemeStack

inductive Failure where
  | diagnostic (d : Diagnostic)
  | lowering (error : LoweringError)
  deriving DecidableEq

def Failure.message : Failure → String
  | .diagnostic d => d.message
  | .lowering error => error.message

/-- something that a stage did -/
inductive Note where
  | scanned (ts : List Token)
  | read (d : Datum)
  | skippedBinding (d : Datum)
  | analyzed (e : Expr)
  | lowered (e : Core)
  | normalStep (event : NormalEvent)
  | normalized (e : Core)
  | droppedBinding (name : String)
  | compiled (instructions constants : Nat)

namespace Note

def origin : Note → String
  | scanned _ => "lexer"
  | read _ => "read"
  | skippedBinding _ => "analyze"
  | analyzed _ => "analyze"
  | lowered _ => "desugar"
  | normalStep _ => "normalize"
  | normalized _ => "normalize"
  | droppedBinding _ => "optimize"
  | compiled _ _ => "bytecode"

def text : Note → String
  | scanned ts => "Tokens: [" ++ ", ".intercalate (ts.map Token.display) ++ "]"
  | read d => "Parsed: " ++ d.print
  | skippedBinding d => "Skipping malformed binding: " ++ d.print
  | analyzed e => "Analyzed: " ++ e.print
  | lowered e => "Desugared: " ++ e.print
  | normalStep (.named .test g) => "Hoisting if test into " ++ g
  | normalStep (.named .operator g) => "Hoisting operator into " ++ g
  | normalStep (.named .operand g) => "Hoisting operand into " ++ g
  | normalStep (.renamed old g) => "Renaming " ++ old ++ " to " ++ g ++ " while lifting let"
  | normalized e => "Normalized: " ++ e.print
  | droppedBinding name => "Eliminating dead binding: " ++ name
  | compiled n m => "Compiled " ++ toString n ++ " instruction(s), " ++ toString m ++ " constant(s)"

def record (n : Note) : String := "DEBUG:zymogen." ++ n.origin ++ ":" ++ n.text ++ "\n"

end Note

/-- a run through stages, with its notes -/
abbrev Run := Traced Note Failure

namespace Run

def noteAll (notes : List Note) : Run Unit := ⟨notes, .ok ()⟩

/-- a run without notes that may be rejected -/
def ofReading {α : Type} (r : Except Diagnostic α) : Run α := .ofExcept (r.mapError .diagnostic)

def tokens (text : String) : Run (List Token) := do
  let ts ← ofReading (SchemeStack.tokens text)
  .note (.scanned ts)
  pure ts

def data (text : String) : Run (List Datum) := do
  let ds ← ofReading (readText text)
  noteAll (ds.map .read)
  pure ds

def expr (text : String) (d : Datum) : Run Expr := do
  let e ← (Analysis.expr d).relabel .skippedBinding fun fault => .diagnostic (fault.withSource text)
  .note (.analyzed e)
  pure e

def exprs (text : String) : Run (List Expr) := do
  let ds ← data text
  ds.mapM (expr text)

def core (e : Expr) : Run Core := do
  let c ← .ofExcept (e.lower.mapError .lowering)
  .note (.lowered c)
  pure c

def cores (text : String) : Run (List Core) := do
  let es ← exprs text
  es.mapM core

/-- the A-normal form of a core expression, without its dead bindings if asked for, and the table after it -/
def normal (optimize : Bool) (table : SymbolTable) (c : Core) : Run (Core × SymbolTable) := do
  let (e, supply) := c.normalForm (.ofTable table)
  noteAll (supply.events.reverse.map .normalStep)
  .note (.normalized e)
  if optimize then
    noteAll (e.deadNames.map .droppedBinding)
    pure (e.dropDead, supply.table)
  else pure (e, supply.table)

/-- the A-normal forms of core expressions, one after the other -/
def normals (optimize : Bool) : SymbolTable → List Core → Run (List Core × SymbolTable)
  | table, [] => pure ([], table)
  | table, c :: cs => do
    let (e, table) ← normal optimize table c
    let (es, table) ← normals optimize table cs
    pure (e :: es, table)

def normalized (optimize : Bool) (table : SymbolTable) (text : String) : Run (List Core × SymbolTable) := do
  let cs ← cores text
  normals optimize table cs

def program (optimize : Bool) (text : String) : Run Program := do
  let (es, table) ← normalized optimize .empty text
  let p := Program.ofCore es table
  .note (.compiled p.code.length p.constants.length)
  pure p

end Run

def analyzeText (text : String) : Except Failure (List Expr) := (Run.exprs text).outcome

def expandText (text : String) : Except Failure (List Core) := (Run.cores text).outcome

def normalizeText (optimize : Bool) (table : SymbolTable) (text : String) : Except Failure (List Core × SymbolTable) :=
  (Run.normalized optimize table text).outcome

def compileText (optimize : Bool) (text : String) : Except Failure Program := (Run.program optimize text).outcome

end SchemeStack
