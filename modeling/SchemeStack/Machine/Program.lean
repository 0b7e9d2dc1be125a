/-
Compiled programs: top-level code, a pool of constants, and the names used.

The pool holds the constants and the compiled procedures of the whole program, its procedures' own included. A
procedure's frame starts with the captured values, followed by the parameters and the rest parameter, then the local
bindings.

`Program.listing` is the text of a program: the code of the top level, the pool, and the code of each procedure.
-/
import SchemeStack.Core.Value
import SchemeStack.Machine.Instr
import SchemeStack.SymbolTable

namespace SchemeStack

open SchemeStack.Text

structure Procedure where
  code : List Instr
  params : Nat
  rest : Bool
  captured : List String
  frameSize : Nat
  deriving DecidableEq, Inhabited

structure ProcedureTerm where
  code : List InstrTerm
  params : Int
  rest : Bool
  captured : List String
  frameSize : Int
  deriving DecidableEq

def Procedure.term (p : Procedure) : ProcedureTerm := ⟨p.code.map Instr.term, p.params, p.rest, p.captured, p.frameSize⟩

/-- a procedure in one line -/
def Procedure.print (p : Procedure) : String :=
  "<Procedure nparams=" ++ toString p.params ++ " rest=" ++ (if p.rest then "True" else "False") ++ " captured=[" ++
    ", ".intercalate (p.captured.map quoted) ++ "] frame=" ++ toString p.frameSize ++ ">"

inductive Constant where
  | value (v : Value)
  | procedure (p : Procedure)
  deriving DecidableEq, Inhabited

def Constant.print : Constant → String
  | .value v => v.print
  | .procedure p => p.print

structure Program where
  code : List Instr
  constants : List Constant
  frameSize : Nat
  table : SymbolTable

def listCode (code : List Instr) : List String :=
  code.zipIdx.map fun (i, n) => alignRight 4 (toString n) ++ "  " ++ i.print

namespace Program

def procedures (p : Program) : List (Nat × Procedure) :=
  p.constants.zipIdx.filterMap fun (c, n) =>
    match c with
    | .procedure proc => some (n, proc)
    | .value _ => none

def listConstants (p : Program) : List String :=
  p.constants.zipIdx.map fun (c, n) => alignRight 4 (toString n) ++ ": " ++ c.print

def procedureHeading (index : Nat) (p : Procedure) : String :=
  "; procedure " ++ toString index ++ ": " ++ toString p.params ++ " param(s)" ++ (if p.rest then " + rest" else "") ++
    ", captured: " ++ (let names := joinWords p.captured; if names = "" then "-" else names) ++
    ", frame size: " ++ toString p.frameSize

def listing (p : Program) : String :=
  joinLines <|
    ["; frame size: " ++ toString p.frameSize] ++ listCode p.code ++ ["", "; constants"] ++ p.listConstants ++
      p.procedures.flatMap fun (n, proc) => ["", procedureHeading n proc] ++ listCode proc.code

end Program

end SchemeStack
