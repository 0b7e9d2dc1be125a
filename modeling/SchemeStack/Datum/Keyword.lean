/-
The reserved words of the language.

An identifier that spells a reserved word is read as a keyword (`Keyword.ofName?`). Assignment may be written with or
without its exclamation mark. The dot is a keyword too, but no identifier spells it: only the dot token does.
-/
namespace SchemeStack

inductive Keyword where
  | quote
  | lambda
  | ifWord
  | set
  | begin
  | cond
  | and
  | or
  | case
  | letWord
  | letStar
  | letrec
  | doWord
  | delay
  | quasiquote
  | elseWord
  | define
  | unquote
  | unquoteSplicing
  | dot
  deriving DecidableEq, Inhabited

def Keyword.name : Keyword → String
  | .quote => "quote"
  | .lambda => "lambda"
  | .ifWord => "if"
  | .set => "set!"
  | .begin => "begin"
  | .cond => "cond"
  | .and => "and"
  | .or => "or"
  | .case => "case"
  | .letWord => "let"
  | .letStar => "let*"
  | .letrec => "letrec"
  | .doWord => "do"
  | .delay => "delay"
  | .quasiquote => "quasiquote"
  | .elseWord => "else"
  | .define => "define"
  | .unquote => "unquote"
  | .unquoteSplicing => "unquote-splicing"
  | .dot => "."

/-- the keywords that an identifier can spell: all but the dot -/
def Keyword.words : List Keyword :=
  [.quote, .lambda, .ifWord, .set, .begin, .cond, .and, .or, .case, .letWord, .letStar, .letrec, .doWord, .delay,
    .quasiquote, .elseWord, .define, .unquote, .unquoteSplicing]

def Keyword.ofName? (name : String) : Option Keyword :=
  if name = "set" then some .set else Keyword.words.find? (·.name == name)

/-- the keyword written exactly so, the dot included -/
def Keyword.written? (name : String) : Option Keyword :=
  (Keyword.words ++ [Keyword.dot]).find? (·.name == name)

/-- the sigil that abbreviates a two-element list with this head -/
def Keyword.sigil? : Keyword → Option String
  | .quote => some "'"
  | .quasiquote => some "`"
  | .unquote => some ","
  | .unquoteSplicing => some ",@"
  | _ => none

end SchemeStack
