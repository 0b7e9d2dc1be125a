/-
The grammar of command line arguments.

An argument is an option, an operand, or the separator `--`, after which all arguments are operands. Options are known
by their names, one dash and a letter or two dashes and a word:
- a word may be cut short as long as it fits one name only;
- a value follows as the next argument, after an equals sign, or, for a letter, directly;
- letters of options without a value may be written together after one dash, an equals sign behind the first of them
  left out of account;
- two dashes attached as a value are no value: the option is given without one.
Options take effect in the order they are written, those written together only when all of them are well formed.
An argument with a dash in front is an operand all the same if it is a lone dash, a negative number, or unknown with a
space in it. A value given as the next argument must be an operand.

How operands are used is up to the rule of the parser: as one operand, as a command with all that follows, or not at
all. `Arguments.parse` yields the options in order and the operand, or refuses the arguments.
-/
import SchemeStack.Text.Decimal

namespace SchemeStack

inductive OptionKey where
  | help
  | version
  | debug
  | expr
  | optimize
  | shows
  deriving DecidableEq, Inhabited

/-- the values that an option takes -/
inductive ValueRule where
  | absent
  | free
  | among (choices : List String)
  deriving DecidableEq

/-- an option: its names, and the values it takes -/
structure OptionSpec where
  key : OptionKey
  names : List String
  values : ValueRule
  deriving DecidableEq

def OptionSpec.takesValue (spec : OptionSpec) : Bool := spec.values != .absent

def OptionSpec.admits (spec : OptionSpec) : Option String → Bool
  | none => true
  | some value =>
    match spec.values with
    | .among choices => choices.contains value
    | _ => true

/-- what operands are for -/
inductive OperandRule where
  | forbidden
  | single
  | command
  deriving DecidableEq

/-- an option as it is called -/
structure CalledOption where
  spec : OptionSpec
  /-- the name is a dash and a letter -/
  isLetter : Bool
  /-- the text attached to the name, without the equals sign between them -/
  attached : Option (List Char)
  deriving DecidableEq

inductive ArgClass where
  | operand
  | separator
  /-- an option, unless it is not known -/
  | option (called : Option CalledOption)
  deriving DecidableEq

structure Argument where
  text : String
  argClass : ArgClass
  deriving DecidableEq

/-- why arguments are not parsed to their end -/
inductive ArgumentStop where
  | refused
  | help
  deriving DecidableEq

/-- what arguments say -/
structure ParsedArguments where
  options : List (OptionKey × Option String)
  operand : Option String
  /-- a command and the arguments that belong to it -/
  command : Option (String × List String)
  /-- arguments that nothing takes -/
  leftOver : List String
  deriving DecidableEq

namespace Arguments

def named? (specs : List OptionSpec) (name : List Char) : Option OptionSpec :=
  specs.find? (·.names.contains (String.ofList name))

def splitEquals? (cs : List Char) : Option (List Char × List Char) :=
  match cs.dropWhile (· != '=') with
  | [] => none
  | _ :: value => some (cs.takeWhile (· != '='), value)

def isLetterName (name : List Char) : Bool := name.length == 2

/-- the options that a word after two dashes may mean, one for each name it fits -/
def longReadings (specs : List OptionSpec) (cs : List Char) : List CalledOption :=
  let (word, attached) := match splitEquals? cs with
    | some (word, value) => (word, some value)
    | none => (cs, none)
  specs.flatMap fun spec => (spec.names.filter (word.isPrefixOf ·.toList)).map fun _ => ⟨spec, false, attached⟩

/-- the option that the first letter after one dash means -/
def shortReadings (specs : List OptionSpec) (cs : List Char) : List CalledOption :=
  ((named? specs (cs.take 2)).map fun spec => ⟨spec, true, some (cs.drop 2)⟩).toList

/-- one or more digits, up to the end or to a line feed there -/
def isNumeral (cs : List Char) : Bool :=
  !(cs.takeWhile Text.isDigit).isEmpty && (cs.dropWhile Text.isDigit == [] || cs.dropWhile Text.isDigit == ['\n'])

/-- digits, or a decimal fraction, after a minus sign -/
def isNegativeNumber : List Char → Bool
  | '-' :: number =>
    isNumeral number ||
      match number.dropWhile Text.isDigit with
      | '.' :: fraction => isNumeral fraction
      | _ => false
  | _ => false

/-- the class of an argument in front of the separator; an ambiguous option has none -/
def classify? (specs : List OptionSpec) (text : String) : Option ArgClass :=
  let cs := text.toList
  if cs.head? ≠ some '-' then some .operand
  else match named? specs cs with
    | some spec => some (.option (some ⟨spec, isLetterName cs, none⟩))
    | none =>
      if cs.length = 1 then some .operand
      else
        let joined := (splitEquals? cs).bind fun (name, value) =>
          (named? specs name).map fun spec => (⟨spec, isLetterName name, some value⟩ : CalledOption)
        match joined with
        | some called => some (.option (some called))
        | none =>
          match if cs[1]? = some '-' then longReadings specs cs else shortReadings specs cs with
          | [called] => some (.option (some called))
          | _ :: _ :: _ => none
          | [] => some (if isNegativeNumber cs || cs.contains ' ' then .operand else .option none)

/-- the classes of arguments; after the separator, all are operands -/
def classifyAll? (specs : List OptionSpec) : List String → Option (List Argument)
  | [] => some []
  | text :: texts =>
    if text = "--" then some (⟨text, .separator⟩ :: texts.map fun t => ⟨t, .operand⟩)
    else do
      let argClass ← classify? specs text
      let others ← classifyAll? specs texts
      pure (⟨text, argClass⟩ :: others)

/-- the options written together, in order -/
structure Cluster where
  options : List (OptionSpec × Option String)
  /-- the last option, if it takes its value from the next argument -/
  wantsValue : Option OptionSpec

namespace Cluster

/-- an option with nothing attached -/
def alone (spec : OptionSpec) : Cluster :=
  if spec.takesValue then ⟨[], some spec⟩ else ⟨[(spec, none)], none⟩

/-- an option with its value attached; two dashes are no value -/
def withValue (spec : OptionSpec) (value : List Char) : Cluster :=
  ⟨[(spec, if value = ['-', '-'] then none else some (String.ofList value))], none⟩

/-- the option of `spec` and those whose letters follow its own -/
def ofLetters? (specs : List OptionSpec) (spec : OptionSpec) : (letters : List Char) → Option Cluster
  | [] => some (alone spec)
  | c :: cs =>
    if spec.takesValue then some (withValue spec (c :: cs))
    else match named? specs ['-', c] with
      | none => none
      | some next => (ofLetters? specs next cs).map fun r => { r with options := (spec, none) :: r.options }

def ofCalled? (specs : List OptionSpec) (called : CalledOption) : Option Cluster :=
  match called.attached with
  | none => some (alone called.spec)
  | some text =>
    if called.spec.takesValue then some (withValue called.spec text)
    else if called.isLetter && !text.isEmpty then ofLetters? specs called.spec text
    else none

end Cluster

/-- lets options take effect, in order -/
def take : ParsedArguments → List (OptionSpec × Option String) → Except ArgumentStop ParsedArguments
  | p, [] => .ok p
  | p, (spec, value) :: rest =>
    if spec.key = .help then .error .help
    else if spec.admits value then take { p with options := p.options ++ [(spec.key, value)] } rest
    else .error .refused

/-- parses classified arguments; `canTake` tells whether an operand can still be taken -/
def parseClassified (specs : List OptionSpec) (rule : OperandRule) :
    (canTake : Bool) → ParsedArguments → List Argument → Except ArgumentStop ParsedArguments
  | _, p, [] => .ok p
  | canTake, p, ⟨text, .option none⟩ :: rest =>
    parseClassified specs rule canTake { p with leftOver := p.leftOver ++ [text] } rest
  | canTake, p, ⟨_, .option (some called)⟩ :: rest =>
    match Cluster.ofCalled? specs called with
    | none => .error .refused
    | some cluster =>
      match cluster.wantsValue, rest with
      | none, rest => do
        let p ← take p cluster.options
        parseClassified specs rule canTake p rest
      | some spec, ⟨value, .operand⟩ :: rest => do
        let p ← take p (cluster.options ++ [(spec, some value)])
        parseClassified specs rule canTake p rest
      | some _, _ => .error .refused
  | true, p, ⟨text, .operand⟩ :: rest =>
    match rule with
    | .forbidden => parseClassified specs rule false { p with leftOver := p.leftOver ++ [text] } rest
    | .command => .ok { p with command := some (text, rest.map (·.text)) }
    | .single =>
      match rest with
      | ⟨_, .separator⟩ :: rest => parseClassified specs rule false { p with operand := some text } rest
      | rest => parseClassified specs rule false { p with operand := some text } rest
  | true, p, ⟨text, .separator⟩ :: rest =>
    match rule, rest with
    | .single, [] => parseClassified specs rule false p []
    | .single, ⟨operand, _⟩ :: rest => parseClassified specs rule false { p with operand := some operand } rest
    | _, rest => parseClassified specs rule false { p with leftOver := p.leftOver ++ [text] } rest
  | false, p, ⟨text, .operand⟩ :: rest =>
    parseClassified specs rule false { p with leftOver := p.leftOver ++ [text] } rest
  | false, p, ⟨text, .separator⟩ :: rest =>
    parseClassified specs rule false { p with leftOver := p.leftOver ++ [text] } rest

def parse (specs : List OptionSpec) (rule : OperandRule) (texts : List String) :
    Except ArgumentStop ParsedArguments :=
  match classifyAll? specs texts with
  | none => .error .refused
  | some arguments => parseClassified specs rule (rule != .forbidden) ⟨[], none, none, []⟩ arguments

end Arguments

end SchemeStack
