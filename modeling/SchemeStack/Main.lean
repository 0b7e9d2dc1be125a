/-
The program: it gives an execution its surroundings, and writes what the execution says.

Only what a command asks for is read: its file, or the standard input. The console is held with the user line by line,
each answered by `Console.step`; in every other case `Execution.run` decides what is written and the exit code.
-/
import SchemeStack.CommandLine.Execution

open SchemeStack

namespace SchemeStack.Program

def settings : IO Settings := do
  let values ← Settings.variableNames.mapM fun name => do pure (name, ← IO.getEnv name)
  pure (.ofEnvironment fun name => (values.lookup name).join)

/-- all text up to the end of a stream, behind the text read before -/
partial def readAll (stream : IO.FS.Stream) (before : String) : IO String := do
  let line ← stream.getLine
  if line.isEmpty then pure before else readAll stream (before ++ line)

/-- the code of a system error is this number, maybe with a minus sign -/
def isNumber (code number : UInt32) : Bool := code == number || code + number == 0

def fileEntry (name : String) : IO FileEntry := do
  try
    pure (.text (← IO.FS.readFile name))
  catch
    | .inappropriateType _ code _ => pure (if isNumber code 20 then .notDirectory else .directory)
    | .invalidArgument _ code _ => pure (if isNumber code 36 then .nameTooLong else .missing)
    | .permissionDenied .. => pure .denied
    | _ => pure .missing

/-- what an execution can see of the origin of its text -/
def surroundings (settings : Settings) : TextOrigin → IO Surroundings
  | .given _ | .withheld => pure ⟨"", fun _ => .missing, settings, []⟩
  | .standardInput => do pure ⟨← readAll (← IO.getStdin) "", fun _ => .missing, settings, []⟩
  | .file name => do
    let entry ← fileEntry name
    pure ⟨"", fun _ => entry, settings, []⟩

def write (said : Transcript) : IO Unit := do
  (← IO.getStderr).putStr said.err
  (← IO.getStdout).putStr said.out
  (← IO.getStdout).flush

def input : IO Input := do
  let line ← (← IO.getStdin).getLine
  pure (if line.isEmpty then .endOfInput else .line (line.dropEndWhile (· == '\n')).toString)

/-- writes what an execution says; the exit code -/
def finish : Exit → IO UInt32
  | .refused => do
    write (.complain Execution.usage)
    pure 2
  | .broken cause => do
    write (.complain (cause.message ++ "\n"))
    pure 1
  | .done code said => do
    write said
    pure code.toUInt32

/-- holds a session with the user, to its end; the exit code -/
partial def converse (v : Verbosity) (c : Console) : IO UInt32 := do
  write (.say c.prompt)
  match c.step v (← input) with
  | .error failure => finish (.broken (.failure failure))
  | .ok (said, next) => do
    write said
    match next with
    | some c => converse v c
    | none => pure 0

end SchemeStack.Program

/-- runs the compiler on the arguments of the program -/
def main (arguments : List String) : IO UInt32 := do
  let settings ← Program.settings
  match Invocation.ofArguments arguments with
  | .ok ⟨false, debug, .console shows⟩ => do
    Program.write (.say Console.banner)
    Program.converse ⟨debug || settings.debug, settings.excerptLines⟩ ⟨.start shows settings.optimize, []⟩
  | .ok ⟨false, _, .print _ origin _⟩ => do
    let world ← Program.surroundings settings origin
    Program.finish (Execution.run world arguments)
  | _ => Program.finish (Execution.run ⟨"", fun _ => .missing, settings, []⟩ arguments)
