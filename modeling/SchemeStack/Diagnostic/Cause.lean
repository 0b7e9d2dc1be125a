/-
Causes of rejection: why a text or a form is not a program.

Each way in which reading or analysis can fail is one constructor, and `Cause.message` holds all their wordings. The
kinds (`DiagnosticKind`) group the causes: three kinds of lexical fault, three of reading, four of analysis, then
faults of compilation and any other. A cause may also be `stated`: a message given by the caller for a kind.

Three more kinds are breakdowns: a value, an index or an assertion that an operation of the compiler does not stand.
They say nothing about the text, so they have no place and nobody reports them. One of them is met: a numeral of more
than `Text.maxDigits` digits is not converted to a number.
-/
import SchemeStack.Datum.Access
import SchemeStack.Text.Decimal
import SchemeStack.Text.Quoted

namespace SchemeStack

open SchemeStack.Text

/-- the groups of causes -/
inductive DiagnosticKind where
  | lexEnd
  | lexInvalid
  | lexUnbalanced
  | parseEnd
  | parseUnbalanced
  | parseExpected
  | wrongKind
  | arity
  | emptySequence
  | malformed
  | compile
  | general
  | badValue
  | badIndex
  | failedAssertion
  deriving DecidableEq, Inhabited

/-- the kinds that tell of a breakdown of the compiler, not of a fault of the text -/
def DiagnosticKind.isBreakdown : DiagnosticKind → Bool
  | .badValue => true
  | .badIndex => true
  | .failedAssertion => true
  | _ => false

/-- why a text or a form was rejected -/
inductive Cause where
  /-- the text ended inside a token -/
  | unexpectedEnd
  /-- no token starts with this character -/
  | invalidCharacter (text : Option String)
  /-- the numeral, as written, is above the largest integer -/
  | integerRange (digits : String)
  /-- the numeral has this many digits, more than are converted -/
  | numeralLength (count : Nat)
  | unterminatedString
  | unclosedList
  | strayParen
  | strayDot
  /-- nothing follows the sigil of this keyword -/
  | missingOperand (word : Keyword)
  | expectedToken (expected actual : Option String)
  | wrongKind (expected actual : DatumKind)
  | missingSubform
  | emptySequence
  | improperList
  | emptyApplication
  | invalidProcedure (head : Datum)
  | dotInCall
  | extraRestParameter
  | tooManySubforms (expected actual : Nat)
  | outsideQuasiquote (word : Keyword)
  | unsupportedForm (word : Keyword)
  | misplacedKeyword (word : Keyword)
  | malformedDottedList
  | singleOperand (word : Keyword)
  | spliceOutsideList
  /-- an analysis failed for a reason that is not given -/
  | analysisFailed
  /-- a list could not be taken apart -/
  | access (error : DatumError)
  | stated (kind : DiagnosticKind) (message : String)
  deriving DecidableEq

def DatumError.kind : DatumError → DiagnosticKind
  | .integerRange _ => .failedAssertion
  | .negativeIndex => .badIndex
  | .indexOutOfRange => .badIndex
  | .positionOutOfRange => .badIndex
  | _ => .badValue

def Cause.kind : Cause → DiagnosticKind
  | .unexpectedEnd => .lexEnd
  | .invalidCharacter _ => .lexInvalid
  | .integerRange _ => .lexInvalid
  | .numeralLength _ => .badValue
  | .unterminatedString => .lexUnbalanced
  | .unclosedList => .parseEnd
  | .strayParen => .parseUnbalanced
  | .strayDot => .parseUnbalanced
  | .missingOperand _ => .parseUnbalanced
  | .expectedToken _ _ => .parseExpected
  | .wrongKind _ _ => .wrongKind
  | .missingSubform => .arity
  | .emptySequence => .emptySequence
  | .improperList => .malformed
  | .emptyApplication => .malformed
  | .invalidProcedure _ => .malformed
  | .dotInCall => .malformed
  | .extraRestParameter => .malformed
  | .tooManySubforms _ _ => .malformed
  | .outsideQuasiquote _ => .malformed
  | .unsupportedForm _ => .malformed
  | .misplacedKeyword _ => .malformed
  | .malformedDottedList => .malformed
  | .singleOperand _ => .malformed
  | .spliceOutsideList => .malformed
  | .analysisFailed => .malformed
  | .access error => error.kind
  | .stated kind _ => kind

/-- what a message writes for something that was not given -/
def absentText : String := "None"

def Cause.message : Cause → String
  | .unexpectedEnd => "Unexpected end of input"
  | .invalidCharacter text => "Invalid character: " ++ (text.map quoted).getD absentText
  | .integerRange digits => "Integer literal out of 64-bit range: " ++ digits
  | .numeralLength count =>
    "Exceeds the limit (" ++ toString maxDigits ++ " digits) for integer string conversion: value has " ++
      toString count ++ " digits; use sys.set_int_max_str_digits() to increase the limit"
  | .unterminatedString => "Unterminated string literal"
  | .unclosedList => "List not closed"
  | .strayParen => "Unbalanced parentheses"
  | .strayDot => "Unexpected dot (.)"
  | .missingOperand word => "Missing expression after " ++ word.name
  | .expectedToken expected actual =>
    "Expected " ++ expected.getD absentText ++ ", got " ++ actual.getD absentText
  | .wrongKind expected actual => "Expected " ++ expected.name ++ ", got " ++ actual.name
  | .missingSubform => "Missing required sub-form"
  | .emptySequence => "Empty sequence"
  | .improperList => "Improper list in expression"
  | .emptyApplication => "Cannot evaluate empty list"
  | .invalidProcedure head => "Invalid procedure: " ++ head.print
  | .dotInCall => "Unexpected dot in procedure call"
  | .extraRestParameter => "Only one rest parameter allowed after dot"
  | .tooManySubforms expected actual =>
    "Too many sub-forms (expected " ++ toString expected ++ ", got " ++ toString actual ++ ")"
  | .outsideQuasiquote word => word.name ++ " outside of quasiquote"
  | .unsupportedForm word => "Unsupported special form: " ++ word.name
  | .misplacedKeyword word => "Misplaced keyword: " ++ word.name
  | .malformedDottedList => "Malformed dotted list"
  | .singleOperand word => word.name ++ " takes exactly one operand"
  | .spliceOutsideList => "unquote-splicing outside of a list"
  | .analysisFailed => "Analysis error"
  | .access error => error.message
  | .stated _ message => message

end SchemeStack
