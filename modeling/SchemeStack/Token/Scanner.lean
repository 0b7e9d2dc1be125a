/-
Scanning: from the characters of a text to its tokens.

A cursor stands between two characters of the text. `Cursor.next` passes over blanks and comments and takes the
longest token that starts there:
- a parenthesis, a quote, a backquote or a dot is a token of its own, a comma too, and with an at sign after it the
  splicing sigil;
- a double quote starts a string, which runs to the next double quote and has no escapes;
- a decimal digit starts an integer, the whole run of digits;
- any other identifier character starts an identifier, the whole run of such characters, four of which spell the
  booleans.
A fault leaves the cursor where the scan stopped: before a character that starts no token, after a numeral that is too
large or too long, at the end of the text after a string that is not closed. A scan can go on from there. A numeral of
more than `maxDigits` digits is not converted, whatever its value: the scan breaks down there.

An identifier without characters would be the end of the text inside a token. It has its fault, which no scan meets: an
identifier is taken only where one of its characters stands (`munch_split`).

`Cursor.feed` is the whole future of a cursor: finitely many events, each a token or a fault that the cursor passed,
then an ending that repeats for ever. `tokens` is the list of tokens of a text without fault.

Every event of a feed shortens the text that is left (`length_munch_lt`), so a feed is a total function of its cursor.
-/
import SchemeStack.Diagnostic.Basic
import SchemeStack.Text.Alphanumeric
import SchemeStack.Text.Decimal
import SchemeStack.Token.Basic

namespace SchemeStack

open SchemeStack.Source SchemeStack.Text

/-- the punctuation that may stand in an identifier -/
def identifierPunctuation : List Char := "~!@#$%^&*-_+=|?.<>/".toList

def isIdentifierChar (c : Char) : Bool := isAlphanumeric c || identifierPunctuation.contains c

def booleanOfName? (name : String) : Option Bool :=
  if name = "#t" ∨ name = "true" then some true
  else if name = "#f" ∨ name = "false" then some false
  else none

def identifierLexeme (name : String) : Lexeme :=
  match booleanOfName? name with
  | some b => .boolean b
  | none => .identifier name

/-- the lexeme of a character that is a token by itself -/
def soloLexeme? (c : Char) : Option Lexeme :=
  if c = '(' then some .leftParen
  else if c = ')' then some .rightParen
  else if c = '\'' then some .quote
  else if c = '`' then some .quasiquote
  else if c = '.' then some .dot
  else none

/-- the largest integer that a numeral may write -/
def maxNumeral : Nat := Nat.pow 2 63 - 1

/-- splits off the blanks and comments at the start; a comment runs from a semicolon to the end of its line -/
def splitTrivia : (inComment : Bool) → List Char → List Char × List Char
  | _, [] => ([], [])
  | true, c :: cs =>
    let (trivia, rest) := splitTrivia (c != '\n') cs
    (c :: trivia, rest)
  | false, c :: cs =>
    if isBlank c then
      let (trivia, rest) := splitTrivia false cs
      (c :: trivia, rest)
    else if c = ';' then
      let (trivia, rest) := splitTrivia true cs
      (c :: trivia, rest)
    else ([], c :: cs)

/-- what stands at the start of a text that begins with neither a blank nor a comment -/
inductive Munch where
  /-- a lexeme, spelled by `run` -/
  | lexeme (lexeme : Lexeme) (run rest : List Char)
  /-- a fault that was passed over -/
  | fault (cause : Cause) (run rest : List Char)
  /-- a character that starts no token -/
  | stuck (c : Char)
  | finished

/-- takes the longest token at the start of a text -/
def munch : List Char → Munch
  | [] => .finished
  | c :: cs =>
    match soloLexeme? c with
    | some lexeme => .lexeme lexeme [c] cs
    | none =>
      if c = ',' then
        match cs with
        | '@' :: rest => .lexeme .unquoteSplicing [c, '@'] rest
        | rest => .lexeme .unquote [c] rest
      else if c = '"' then
        let body := cs.takeWhile (· != '"')
        match cs.dropWhile (· != '"') with
        | close :: rest => .lexeme (.string (String.ofList body)) (c :: body ++ [close]) rest
        | [] => .fault .unterminatedString (c :: body) []
      else if isDigit c then
        let digits := c :: cs.takeWhile isDigit
        let rest := cs.dropWhile isDigit
        if maxDigits < digits.length then .fault (.numeralLength digits.length) digits rest
        else if numeralValue digits ≤ maxNumeral then .lexeme (.integer (numeralValue digits)) digits rest
        else .fault (.integerRange (String.ofList digits)) digits rest
      else if isIdentifierChar c then
        let rest := (c :: cs).dropWhile isIdentifierChar
        match (c :: cs).takeWhile isIdentifierChar with
        | [] => .fault .unexpectedEnd [] rest
        | name => .lexeme (identifierLexeme (String.ofList name)) name rest
      else .stuck c

/-- a place between two characters of a text -/
structure Cursor where
  /-- the characters after the cursor -/
  rest : List Char
  /-- the number of characters before the cursor -/
  offset : Nat
  pos : Pos
  deriving DecidableEq

namespace Cursor

def ofText (text : String) : Cursor := ⟨text.toList, 0, .start⟩

/-- the cursor after a run of characters -/
def pass (c : Cursor) (run rest : List Char) : Cursor := ⟨rest, c.offset + run.length, c.pos.after run⟩

/-- the cursor after the blanks and comments that follow it -/
def skipTrivia (c : Cursor) : Cursor :=
  let (trivia, rest) := splitTrivia false c.rest
  c.pass trivia rest

/-- the next token, or why there is none, and the cursor after it -/
def next (c : Cursor) : Except Diagnostic Token × Cursor :=
  let start := c.skipTrivia
  match munch start.rest with
  | .lexeme lexeme run rest => (.ok ⟨lexeme, start.pos⟩, start.pass run rest)
  | .fault cause run rest => (.error (.ofToken cause start.pos), start.pass run rest)
  | .stuck ch => (.error (.atPos (.invalidCharacter (some ch.toString)) start.pos), start)
  | .finished => (.ok ⟨.endOfInput, start.pos⟩, start)

end Cursor

/-- splitting off the trivia loses nothing -/
theorem splitTrivia_append (inComment : Bool) (cs : List Char) :
    (splitTrivia inComment cs).1 ++ (splitTrivia inComment cs).2 = cs := by
  fun_induction splitTrivia inComment cs <;> simp_all

theorem length_splitTrivia_le (inComment : Bool) (cs : List Char) :
    (splitTrivia inComment cs).2.length ≤ cs.length := by
  have h := congrArg List.length (splitTrivia_append inComment cs)
  simp only [List.length_append] at h
  omega

/-- the characters that a step passed over, and those left -/
def Munch.split? : Munch → Option (List Char × List Char)
  | .lexeme _ run rest => some (run, rest)
  | .fault _ run rest => some (run, rest)
  | .stuck _ => none
  | .finished => none

/-- a step passes over at least one character and loses none -/
theorem munch_split {cs run rest : List Char} (h : (munch cs).split? = some (run, rest)) :
    run ≠ [] ∧ run ++ rest = cs := by
  cases cs with
  | nil => simp [munch, Munch.split?] at h
  | cons c cs =>
    simp only [munch] at h
    split at h
    · cases h
      simp
    · split at h
      · split at h <;> cases h <;> simp_all
      · split at h
        · have hcs := List.takeWhile_append_dropWhile (p := (· != '"')) (l := cs)
          split at h <;> rename_i heq <;> rw [heq] at hcs <;> cases h
          · simp [hcs]
          · simpa using hcs
        · split at h
          · split at h
            · cases h
              simp
            · split at h <;> cases h <;> simp
          · split at h
            · rename_i hident
              have hcs := List.takeWhile_append_dropWhile (p := isIdentifierChar) (l := c :: cs)
              split at h <;> rename_i hname <;> cases h
              · simp [hident] at hname
              · exact ⟨hname, hcs⟩
            · cases h

theorem length_munch_lt {cs run rest : List Char} (h : (munch cs).split? = some (run, rest)) :
    rest.length < cs.length := by
  obtain ⟨hne, happ⟩ := munch_split h
  rw [← happ, List.length_append]
  have := List.length_pos_iff.mpr hne
  omega

theorem Cursor.length_skipTrivia_le (c : Cursor) : c.skipTrivia.rest.length ≤ c.rest.length :=
  length_splitTrivia_le false c.rest

/-- what a text answers for ever after its last event -/
inductive Ending where
  /-- the end of the text, at this place -/
  | finished (pos : Pos)
  /-- a character that starts no token -/
  | stuck (fault : Diagnostic)
  deriving DecidableEq

/-- what the ending answers when it is asked for a token -/
def Ending.answer : Ending → Except Diagnostic Token
  | .finished pos => .ok ⟨.endOfInput, pos⟩
  | .stuck fault => .error fault

/-- one answer to the request for a token -/
abbrev Event := Except Diagnostic Token

/-- the tokens and faults still to come -/
structure Feed where
  events : List Event
  ending : Ending

/-- the feed with one more event in front -/
def Feed.cons (event : Event) (feed : Feed) : Feed := { feed with events := event :: feed.events }

/-- all that a cursor will answer -/
def Cursor.feed (c : Cursor) : Feed :=
  let start := c.skipTrivia
  match _h : munch start.rest with
  | .lexeme lexeme run rest => (start.pass run rest).feed.cons (.ok ⟨lexeme, start.pos⟩)
  | .fault cause run rest => (start.pass run rest).feed.cons (.error (.ofToken cause start.pos))
  | .stuck ch => ⟨[], .stuck (.atPos (.invalidCharacter (some ch.toString)) start.pos)⟩
  | .finished => ⟨[], .finished start.pos⟩
termination_by c.rest.length
decreasing_by
  all_goals
    exact Nat.lt_of_lt_of_le (@length_munch_lt _ run _ (by rw [_h]; rfl)) c.length_skipTrivia_le

def Feed.ofText (text : String) : Feed := (Cursor.ofText text).feed

/-- all tokens up to the end of the text, and the cursor there; or the first fault and the cursor after it -/
def Cursor.drain (c : Cursor) : Except Diagnostic (List Token) × Cursor :=
  let start := c.skipTrivia
  match _h : munch start.rest with
  | .lexeme lexeme run rest =>
    let (tokens, last) := (start.pass run rest).drain
    (tokens.map (⟨lexeme, start.pos⟩ :: ·), last)
  | .fault cause run rest => (.error (.ofToken cause start.pos), start.pass run rest)
  | .stuck ch => (.error (.atPos (.invalidCharacter (some ch.toString)) start.pos), start)
  | .finished => (.ok [], start)
termination_by c.rest.length
decreasing_by
  exact Nat.lt_of_lt_of_le (@length_munch_lt _ run _ (by rw [_h]; rfl)) c.length_skipTrivia_le

/-- the tokens of a text; a fault knows the text -/
def tokens (text : String) : Except Diagnostic (List Token) :=
  (Cursor.ofText text).drain.1.mapError (·.withSource text)

end SchemeStack
