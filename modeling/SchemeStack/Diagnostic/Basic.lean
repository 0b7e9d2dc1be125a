/-
Diagnostics: a cause of rejection with its place, and the messages made of them.

A diagnostic that knows its line and column writes them, counted from one, after the cause; if it has the source text
too, an excerpt follows. A diagnostic about a form whose place is not known writes the form instead. The source is
attached once: a later text does not replace the first (`withSource`). A breakdown has neither place nor source.
-/
import SchemeStack.Diagnostic.Cause
import SchemeStack.Source.Excerpt

namespace SchemeStack

open SchemeStack.Source

/-- why a text or a form was rejected, and where -/
structure Diagnostic where
  cause : Cause
  mark : Mark
  form : Option Datum
  source : Option String
  deriving DecidableEq

namespace Diagnostic

def atPos (cause : Cause) (pos : Pos) : Diagnostic := ⟨cause, pos.mark, none, none⟩

/-- a breakdown, which has no place -/
def broken (cause : Cause) : Diagnostic := ⟨cause, .unknown, none, none⟩

/-- a fault of the token that starts at a place -/
def ofToken (cause : Cause) (pos : Pos) : Diagnostic := if cause.kind.isBreakdown then broken cause else atPos cause pos

def ofForm (cause : Cause) (form : Datum) : Diagnostic := ⟨cause, form.mark, some form, none⟩

def kind (d : Diagnostic) : DiagnosticKind := d.cause.kind

def message (d : Diagnostic) : String := d.cause.message

/-- the diagnostic with the source text, unless it has one already -/
def withSource (d : Diagnostic) (text : String) : Diagnostic :=
  if d.kind.isBreakdown then d else { d with source := d.source.or (some text) }

@[simp] theorem kind_withSource (d : Diagnostic) (text : String) : (d.withSource text).kind = d.kind := by
  unfold withSource
  split <;> rfl

theorem withSource_of_fault {d : Diagnostic} (h : d.kind.isBreakdown = false) (text : String) :
    d.withSource text = { d with source := d.source.or (some text) } := by
  rw [withSource, h]
  rfl

/-- the message with its place, or with its form if the place is not known -/
def brief (d : Diagnostic) : String :=
  match d.mark.place? with
  | some (line, column) =>
    d.message ++ " (line " ++ toString (line + 1) ++ ", column " ++ toString (column + 1) ++ ")"
  | none =>
    match d.form with
    | some form => d.message ++ " in: " ++ form.print
    | none => d.message

/-- the excerpt of the source at the place, if both are known; `before` lines lead up to it -/
def excerpt? (d : Diagnostic) (before : Int) : Option String :=
  match d.source, d.mark.place? with
  | some text, some (line, column) => some (excerpt text line column before .plain)
  | _, _ => none

def render (d : Diagnostic) (before : Int) : String :=
  match d.excerpt? before with
  | some shown => d.brief ++ "\n" ++ shown
  | none => d.brief

end Diagnostic

end SchemeStack
