/-
Tokens: the words of a program text.

A token is a lexeme with the place of its first character. Lexemes are the two parentheses, the four sigils that
abbreviate quotation forms, the dot, the atoms, and the end of the text.

Two texts are made of a token: `describe` names it in messages, `display` shows it with its place. Both are texts of
the token as a term, `TokenTerm`: a kind, a mark and maybe a value. Terms can also be built in code, and then a value
may be missing, or stand where the scanner puts none, and a place may lie outside every text.
-/
import SchemeStack.Source.Position
import SchemeStack.Text.Quoted

namespace SchemeStack

open SchemeStack.Source SchemeStack.Text

/-- what a token says -/
inductive Lexeme where
  | leftParen
  | rightParen
  | quote
  | quasiquote
  | unquote
  | unquoteSplicing
  | dot
  | boolean (b : Bool)
  | integer (n : Int)
  | string (text : String)
  | identifier (name : String)
  | endOfInput
  deriving DecidableEq, Inhabited

inductive LexemeKind where
  | leftParen
  | rightParen
  | quote
  | quasiquote
  | unquote
  | unquoteSplicing
  | dot
  | boolean
  | integer
  | string
  | identifier
  | endOfInput
  deriving DecidableEq, Inhabited

def Lexeme.kind : Lexeme → LexemeKind
  | .leftParen => .leftParen
  | .rightParen => .rightParen
  | .quote => .quote
  | .quasiquote => .quasiquote
  | .unquote => .unquote
  | .unquoteSplicing => .unquoteSplicing
  | .dot => .dot
  | .boolean _ => .boolean
  | .integer _ => .integer
  | .string _ => .string
  | .identifier _ => .identifier
  | .endOfInput => .endOfInput

def LexemeKind.name : LexemeKind → String
  | .leftParen => "left-paren"
  | .rightParen => "right-paren"
  | .quote => "quote"
  | .quasiquote => "quasiquote"
  | .unquote => "unquote"
  | .unquoteSplicing => "unquote-splicing"
  | .dot => "dot"
  | .boolean => "boolean"
  | .integer => "integer"
  | .string => "string"
  | .identifier => "identifier"
  | .endOfInput => "eof"

def LexemeKind.all : List LexemeKind :=
  [.leftParen, .rightParen, .quote, .quasiquote, .unquote, .unquoteSplicing, .dot, .boolean, .integer, .string,
    .identifier, .endOfInput]

def LexemeKind.ofName? (name : String) : Option LexemeKind := LexemeKind.all.find? (·.name == name)

/-- the values that tokens carry -/
inductive Payload where
  | boolean (b : Bool)
  | integer (n : Int)
  | text (text : String)
  deriving DecidableEq

def Payload.display : Payload → String
  | boolean b => if b then "True" else "False"
  | integer n => toString n
  | text s => quoted s

/-- the value that a lexeme carries, if it carries one -/
def Lexeme.payload? : Lexeme → Option Payload
  | .boolean b => some (.boolean b)
  | .integer n => some (.integer n)
  | .string text => some (.text text)
  | .identifier name => some (.text name)
  | _ => none

/-- a token as it is written: its kind, its place and its value -/
structure TokenTerm where
  kind : LexemeKind
  mark : Mark
  payload : Option Payload
  deriving DecidableEq

namespace TokenTerm

/-- a number of a place that may be missing -/
def coordinate (n : Option Int) : String := n.elim "None" toString

/-- the place of a token, as the line and column counted from zero -/
def place (t : TokenTerm) : String := coordinate t.mark.line ++ ":" ++ coordinate t.mark.column

/-- what a message calls the token -/
def describe (t : TokenTerm) : String :=
  match t.kind with
  | .leftParen => "'('"
  | .rightParen => "')'"
  | .quote => "quote (')"
  | .quasiquote => "quasiquote (`)"
  | .unquote => "unquote (,)"
  | .unquoteSplicing => "unquote-splicing (,@)"
  | .dot => "dot (.)"
  | .endOfInput => "end of input"
  | kind => kind.name ++ " " ++ t.payload.elim "None" Payload.display

/-- the token with its kind, its value and its place -/
def display (t : TokenTerm) : String :=
  match t.payload with
  | none => "<Token " ++ t.kind.name ++ " " ++ t.place ++ ">"
  | some value => "<Token " ++ t.kind.name ++ " " ++ value.display ++ " " ++ t.place ++ ">"

end TokenTerm

/-- a lexeme and the place where it starts -/
structure Token where
  lexeme : Lexeme
  pos : Pos
  deriving DecidableEq, Inhabited

namespace Token

def kind (t : Token) : LexemeKind := t.lexeme.kind

def term (t : Token) : TokenTerm := ⟨t.kind, t.pos.mark, t.lexeme.payload?⟩

def describe (t : Token) : String := t.term.describe

def place (t : Token) : String := t.term.place

def display (t : Token) : String := t.term.display

end Token

end SchemeStack
