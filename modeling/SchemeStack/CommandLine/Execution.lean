/-
Executing an invocation: what it writes, and its exit code.

The surroundings of an execution are its standard input, a look-up of files, the settings, and the lines typed at the
console. Refused arguments give exit code two. A text that is rejected, or cannot be read, is reported on the error
output with exit code one. A file's line ends are unified; the standard input and a given expression stay as they are.

Two invocations break down, since there is no text to speak of: one that asks for an expression without giving it, and
one whose file name holds a null character, which no file's name does. Others do where the compiler does.
-/
import SchemeStack.CommandLine.Folder
import SchemeStack.CommandLine.Invocation
import SchemeStack.Console

namespace SchemeStack

open SchemeStack.Text

/-- why there is no text in a file, if there is none -/
def FileEntry.complaint (name : String) : FileEntry → String
  | .directory => "[Errno 21] Is a directory: " ++ quoted name
  | .notDirectory => "[Errno 20] Not a directory: " ++ quoted name
  | .nameTooLong => "[Errno 36] File name too long: " ++ quoted name
  | .denied => "[Errno 13] Permission denied: " ++ quoted name
  | _ => "[Errno 2] No such file or directory: " ++ quoted name

/-- what an execution can see -/
structure Surroundings where
  standardInput : String
  file : String → FileEntry
  settings : Settings
  typed : List Input

/-- why an execution has no text to work on, or cannot go on -/
inductive Breakdown where
  | withheldExpression
  | nullInName
  | failure (f : Failure)
  deriving DecidableEq

/-- the wording of a breakdown; there is none for an expression that was not given -/
def Breakdown.message : Breakdown → String
  | .withheldExpression => ""
  | .nullInName => "embedded null byte"
  | .failure f => f.message

/-- how an execution ends -/
inductive Exit where
  | refused
  | broken (cause : Breakdown)
  | done (code : Nat) (said : Transcript)
  deriving DecidableEq

namespace Execution

/-- the text that a command is about, or how the execution ends without it -/
def textOf (world : Surroundings) : TextOrigin → Except Exit String
  | .given text => .ok text
  | .withheld => .error (.broken .withheldExpression)
  | .standardInput => .ok world.standardInput
  | .file name =>
    if name.toList.contains '\x00' then .error (.broken .nullInName)
    else match world.file name with
      | .text content => .ok (String.ofList (unifyLineEnds content.toList))
      | entry => .error (.done 1 (.complain ("Error reading input: " ++ entry.complaint name ++ "\n")))

/-- the lines that show a form of a text -/
def linesOf (optimize : Bool) (text : String) : Product → Run (List String)
  | .tokens => do
    let ts ← Run.tokens text
    pure (ts.map fun t => t.place ++ "\t" ++ t.describe)
  | .data => do
    let ds ← Run.data text
    pure (ds.map Datum.print)
  | .exprs => do
    let es ← Run.exprs text
    pure (es.map Expr.print)
  | .cores => do
    let cs ← Run.cores text
    pure (cs.map Core.print)
  | .normalForms => do
    let (cs, _) ← Run.normalized optimize .empty text
    pure (cs.map Core.print)
  | .program => do
    let p ← Run.program optimize text
    pure [p.listing]

def command (world : Surroundings) (v : Verbosity) : Command → Exit
  | .print product origin optimize =>
    match textOf world origin with
    | .error exit => exit
    | .ok text =>
      let r := linesOf (optimize || world.settings.optimize) text product
      match r.outcome with
      | .ok lines => .done 0 ⟨printLines lines, v.logged r.notes⟩
      | .error failure =>
        match failure.report? v.excerptLines with
        | .ok report => .done 1 (.complain (v.logged r.notes ++ report))
        | .error failure => .broken (.failure failure)
  | .console shows =>
    let console : Console := ⟨.start shows world.settings.optimize, []⟩
    match console.run v world.typed with
    | .ok said => .done 0 (.say Console.banner ++ said)
    | .error failure => .broken (.failure failure)

def versionText : String := "Zymogen Version: v" ++ Settings.version ++ "\n"

/-- how the program is called -/
def usage : String :=
  "usage: [--debug] lex|parse|analyze|expand|normalize|compile [--expr EXPR] [--optimize] [FILE]\n" ++
    "       [--debug] [repl [--show STAGE]]\n       --version\n"

/-- how much an invocation says -/
def verbosity (world : Surroundings) (i : Invocation) : Verbosity :=
  ⟨i.debug || world.settings.debug, world.settings.excerptLines⟩

def run (world : Surroundings) (arguments : List String) : Exit :=
  match Invocation.ofArguments arguments with
  | .error .refused => .refused
  | .error .help => .done 0 (.say usage)
  | .ok i =>
    if i.version then .done 0 (.say versionText)
    else command world (verbosity world i) i.command

end Execution

end SchemeStack
