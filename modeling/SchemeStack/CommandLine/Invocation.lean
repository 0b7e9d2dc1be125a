/-
Invocations: what a command line asks for.

The options in front of the command ask for the version or for a log. A command shows one form of its input: the text
of an expression given as an option, or a file, or the standard input. Without a command the console starts.
-/
import SchemeStack.CommandLine.Arguments
import SchemeStack.Session

namespace SchemeStack

/-- where the text of a command comes from -/
inductive TextOrigin where
  | given (text : String)
  /-- an expression was asked for, without a value -/
  | withheld
  | standardInput
  | file (name : String)
  deriving DecidableEq

/-- what is shown of a text -/
inductive Product where
  | tokens
  | data
  | exprs
  | cores
  | normalForms
  | program
  deriving DecidableEq

def Product.canOptimize : Product → Bool
  | .normalForms => true
  | .program => true
  | _ => false

inductive Command where
  /-- shows one form of a text; `optimize` asks for the removal of dead bindings -/
  | print (product : Product) (origin : TextOrigin) (optimize : Bool)
  /-- holds a session that shows a stage -/
  | console (shows : Stage)
  deriving DecidableEq

/-- what a command line asks for -/
structure Invocation where
  version : Bool
  debug : Bool
  command : Command
  deriving DecidableEq

namespace Invocation

/-- the options in front of the command -/
def generalOptions : List OptionSpec :=
  [⟨.help, ["-h", "--help"], .absent⟩, ⟨.version, ["--version", "-V"], .absent⟩, ⟨.debug, ["--debug", "-d"], .absent⟩]

def textOptions : List OptionSpec := [⟨.help, ["-h", "--help"], .absent⟩, ⟨.expr, ["--expr", "-e"], .free⟩]

def optimizeOption : OptionSpec := ⟨.optimize, ["--optimize", "-O"], .absent⟩

def consoleOptions : List OptionSpec :=
  [⟨.help, ["-h", "--help"], .absent⟩, ⟨.shows, ["--show", "-s"], .among (Stage.all.map Stage.name)⟩]

def product? (name : String) : Option Product :=
  [("lex", Product.tokens), ("parse", .data), ("analyze", .exprs), ("expand", .cores), ("normalize", .normalForms),
    ("compile", .program)].lookup name

/-- the last use of an option: its value, if it was given one -/
def lastUse? (key : OptionKey) (options : List (OptionKey × Option String)) : Option (Option String) :=
  (options.reverse.find? (·.1 == key)).map (·.2)

def isGiven (key : OptionKey) (options : List (OptionKey × Option String)) : Bool := options.any (·.1 == key)

/-- where the text comes from: an expression goes before a file, and a dash is the standard input -/
def originOf (p : ParsedArguments) : TextOrigin :=
  match lastUse? .expr p.options, p.operand with
  | some (some text), _ => .given text
  | some none, _ => .withheld
  | none, none => .standardInput
  | none, some name => if name = "-" then .standardInput else .file name

def commandOf (name : String) (arguments : List String) : Except ArgumentStop Command :=
  match product? name with
  | some product => do
    let specs := textOptions ++ if product.canOptimize then [optimizeOption] else []
    let p ← Arguments.parse specs .single arguments
    if p.leftOver.isEmpty then pure (.print product (originOf p) (isGiven .optimize p.options))
    else .error .refused
  | none =>
    if name = "repl" then do
      let p ← Arguments.parse consoleOptions .forbidden arguments
      if p.leftOver.isEmpty then pure (.console (((lastUse? .shows p.options).join.bind Stage.ofName?).getD .code))
      else .error .refused
    else .error .refused

def ofArguments (arguments : List String) : Except ArgumentStop Invocation := do
  let p ← Arguments.parse generalOptions .command arguments
  let c ← match p.command with
    | none => pure (.console .code)
    | some (name, rest) => commandOf name rest
  if p.leftOver.isEmpty then pure ⟨isGiven .version p.options, isGiven .debug p.options, c⟩
  else .error .refused

end Invocation

end SchemeStack
