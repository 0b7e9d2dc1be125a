/-
Reading: from tokens to data.

    form ::= atom | ( element* ) | sigil form        element ::= form | .

The reader keeps a stack of what is open: lists that wait for more elements, and sigils that wait for their operand.
`Reader.step` is one token's effect on the stack. A finished datum goes to the innermost open thing: it becomes an
element of a list, or it completes a sigil and with it a datum of its own, which goes on outwards; with nothing open it
is the result (`Reader.deliver`). A dot in a list stays as an element, the dot keyword.

A fault may leave the token that showed it unread: a close parenthesis after a sigil is still there for the next read.
The end of the text is never used up.

A list is closed by the token that is expected there (`Token.expect`). A reader comes to that only after it has seen a
close parenthesis, so it never finds another token.

`Feed.readForm` reads one form and `Feed.readForms` all forms up to the end, both by recursion on the events to come;
`readText` reads the forms of a text.
-/
import SchemeStack.Datum.Access
import SchemeStack.Token.Scanner

namespace SchemeStack

open SchemeStack.Source

/-- the token, if it is of a given kind -/
def Token.expect (kind : LexemeKind) (t : Token) : Event :=
  if t.kind = kind then .ok t
  else .error (.atPos (.expectedToken (some kind.name) (some t.describe)) t.pos)

/-- something that is open while a form is read -/
inductive Opening where
  /-- a list that began at a place, with its elements so far, the last one first -/
  | list (start : Pos) (elements : List Datum)
  /-- a sigil at a place, which stands for a keyword -/
  | sigil (start : Pos) (word : Keyword)
  deriving DecidableEq

/-- what one token does to a reader -/
inductive ReadStep where
  /-- the form goes on, with these things open -/
  | more (stack : List Opening)
  | done (form : Datum)
  /-- the form cannot go on; `unread` tells whether the token stays for the next read -/
  | fault (fault : Diagnostic) (unread : Bool)

namespace Reader

/-- the list of a sigil's keyword and its operand -/
def sigilForm (start : Pos) (word : Keyword) (operand : Datum) : Datum :=
  (Datum.ofList [.kw word start.mark, operand]).withMark start.mark

/-- the list of the elements read, the last one first -/
def closedList (start : Pos) (elements : List Datum) : Datum :=
  (Datum.ofList elements.reverse).withMark start.mark

/-- hands a finished datum to the innermost open thing -/
def deliver (d : Datum) : List Opening → ReadStep
  | [] => .done d
  | .list start elements :: stack => .more (.list start (d :: elements) :: stack)
  | .sigil start word :: stack => deliver (sigilForm start word d) stack

/-- the datum that an atom's lexeme writes -/
def atom? (m : Mark) : Lexeme → Option Datum
  | .boolean b => some (.bool b m)
  | .integer n => some (.int n m)
  | .string text => some (.str text m)
  | .identifier name => some (.ofIdentifier name m)
  | _ => none

/-- the keyword that a sigil's lexeme stands for -/
def sigilWord? : Lexeme → Option Keyword
  | .quote => some .quote
  | .quasiquote => some .quasiquote
  | .unquote => some .unquote
  | .unquoteSplicing => some .unquoteSplicing
  | _ => none

/-- what the end of the text says of an open thing -/
def unfinished : Opening → Diagnostic
  | .list start _ => .atPos .unclosedList start
  | .sigil start word => .atPos (.missingOperand word) start

def close (t : Token) : List Opening → ReadStep
  | [] => .fault (.atPos .strayParen t.pos) false
  | .list start elements :: stack =>
    match t.expect .rightParen with
    | .ok _ => deliver (closedList start elements) stack
    | .error fault => .fault fault false
  | .sigil start word :: _ => .fault (.atPos (.missingOperand word) start) true

def dot (pos : Pos) : List Opening → ReadStep
  | .list start elements :: stack => .more (.list start (.kw .dot pos.mark :: elements) :: stack)
  | _ => .fault (.atPos .strayDot pos) false

/-- the effect of one token; the end of the text is no token here -/
def step (stack : List Opening) (t : Token) : ReadStep :=
  match t.lexeme with
  | .leftParen => .more (.list t.pos [] :: stack)
  | .rightParen => close t stack
  | .dot => dot t.pos stack
  | lexeme =>
    match sigilWord? lexeme, atom? t.pos.mark lexeme with
    | some word, _ => .more (.sigil t.pos word :: stack)
    | none, some d => deliver d stack
    | none, none => .more stack

/-- the answer at the end of the events: nothing if nothing is open -/
def atEnd (ending : Ending) : List Opening → Except Diagnostic Unit
  | [] =>
    match ending with
    | .finished _ => .ok ()
    | .stuck fault => .error fault
  | opening :: _ =>
    match ending with
    | .finished _ => .error (unfinished opening)
    | .stuck fault => .error fault

/-- reads one form: nothing at the end of the text; with the events that are left -/
def readForm (ending : Ending) : List Opening → List Event → Except Diagnostic (Option Datum) × List Event
  | stack, [] => ((atEnd ending stack).map fun _ => none, [])
  | _, .error fault :: events => (.error fault, events)
  | stack, .ok t :: events =>
    match step stack t with
    | .more stack => readForm ending stack events
    | .done d => (.ok (some d), events)
    | .fault fault unread => (.error fault, if unread then .ok t :: events else events)

/-- reads all forms up to the end of the text, with the events that are left after a fault -/
def readForms (ending : Ending) : List Opening → List Event → Except Diagnostic (List Datum) × List Event
  | stack, [] => ((atEnd ending stack).map fun _ => [], [])
  | _, .error fault :: events => (.error fault, events)
  | stack, .ok t :: events =>
    match step stack t with
    | .more stack => readForms ending stack events
    | .done d =>
      let (forms, left) := readForms ending [] events
      (forms.map (d :: ·), left)
    | .fault fault unread => (.error fault, if unread then .ok t :: events else events)

end Reader

namespace Feed

def next (feed : Feed) : Event × Feed :=
  match feed.events with
  | [] => (feed.ending.answer, feed)
  | event :: events => (event, { feed with events })

/-- looks at the next token and leaves it there; a fault is passed -/
def peek (feed : Feed) : Event × Feed :=
  match feed.next with
  | (.ok t, _) => (.ok t, feed)
  | (.error fault, left) => (.error fault, left)

/-- takes a token of a given kind; a token of another kind is taken too -/
def expect (feed : Feed) (kind : LexemeKind) : Event × Feed :=
  match feed.next with
  | (.ok t, left) => (t.expect kind, left)
  | (.error fault, left) => (.error fault, left)

def readForm (feed : Feed) : Except Diagnostic (Option Datum) × Feed :=
  let (form, events) := Reader.readForm feed.ending [] feed.events
  (form, { feed with events })

def readForms (feed : Feed) : Except Diagnostic (List Datum) × Feed :=
  let (forms, events) := Reader.readForms feed.ending [] feed.events
  (forms, { feed with events })

end Feed

/-- the forms of a text; a fault knows the text -/
def readText (text : String) : Except Diagnostic (List Datum) :=
  (Feed.ofText text).readForms.1.mapError (·.withSource text)

end SchemeStack
