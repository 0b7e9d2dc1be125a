/-
Instructions of the stack machine.

A frame has numbered slots and a stack of operands. Variables that are bound nowhere are global and go by their names.
A slot may hold a cell, a place that several closures share.

- `bind` pops the top of the stack into a slot; `load` pushes a slot, `store` copies the top into it.
- `loadGlobal` and `storeGlobal` do the same for a global variable.
- `makeCell` replaces the top by a new cell that holds it; `loadCell` pushes what the cell in a slot holds, `storeCell`
  copies the top into that cell.
- `constant` pushes an entry of the constant pool.
- `jumpIfFalse` pops the top and jumps if it is false; `jump` always does. A target may be missing while code is made.
- `call` calls the procedure on the top with the operands below it; `closure` takes the captured values from the stack
  and pushes a closure of the procedure at an index of the pool; `ret` ends the procedure.

An instruction is written as its kind and its operands (`Instr.term`). It is listed as its name in lower case with its
operands (`print`), or shown as a term (`display`).
-/
import SchemeStack.Text.Layout
import SchemeStack.Text.Quoted

namespace SchemeStack

open SchemeStack.Text

inductive Instr where
  | bind (slot : Nat)
  | loadGlobal (name : String)
  | load (slot : Nat)
  | constant (index : Nat)
  | jumpIfFalse (target : Option Nat)
  | jump (target : Option Nat)
  | call (arity : Nat)
  | closure (index captured : Nat)
  | store (slot : Nat)
  | storeGlobal (name : String)
  | makeCell
  | loadCell (slot : Nat)
  | storeCell (slot : Nat)
  | ret
  deriving DecidableEq, Inhabited

inductive Opcode where
  | bind
  | loadGlobal
  | load
  | constant
  | jumpIfFalse
  | jump
  | call
  | closure
  | store
  | storeGlobal
  | makeCell
  | loadCell
  | storeCell
  | ret
  deriving DecidableEq, Inhabited

namespace Opcode

def name : Opcode → String
  | bind => "Bind"
  | loadGlobal => "Var"
  | load => "Bound"
  | constant => "Constant"
  | jumpIfFalse => "JumpNotEqual"
  | jump => "Jump"
  | call => "Call"
  | closure => "Closure"
  | store => "StoreBound"
  | storeGlobal => "StoreVar"
  | makeCell => "MakeCell"
  | loadCell => "BoundCell"
  | storeCell => "StoreCell"
  | ret => "Return"

def all : List Opcode :=
  [bind, loadGlobal, load, constant, jumpIfFalse, jump, call, closure, store, storeGlobal, makeCell, loadCell,
    storeCell, ret]

def ofName? (name : String) : Option Opcode := all.find? (·.name == name)

def arity : Opcode → Nat
  | closure => 2
  | makeCell => 0
  | ret => 0
  | _ => 1

/-- the complaint about a wrong number of operands -/
def arityMessage (op : Opcode) : String := op.name ++ " takes " ++ toString op.arity ++ " argument(s)"

end Opcode

/-- an operand as it is written -/
inductive Operand where
  | number (n : Int)
  | name (text : String)
  | missing
  deriving DecidableEq

namespace Operand

def print : Operand → String
  | number n => toString n
  | name text => text
  | missing => "None"

def display : Operand → String
  | number n => toString n
  | name text => quoted text
  | missing => "None"

/-- the operand for a jump's target -/
def ofTarget : Option Nat → Operand
  | some n => number n
  | none => missing

end Operand

structure InstrTerm where
  opcode : Opcode
  operands : List Operand
  deriving DecidableEq

namespace InstrTerm

/-- there are as many operands as the kind takes -/
def isComplete (t : InstrTerm) : Bool := t.operands.length == t.opcode.arity

/-- an instruction as it is listed; operands whose text is empty leave the bare name -/
def print (t : InstrTerm) : String :=
  let name := t.opcode.name.toLower
  let text := joinWords (t.operands.map Operand.print)
  if text = "" then name else name ++ " " ++ text

def display (t : InstrTerm) : String :=
  t.opcode.name ++ "(" ++ ", ".intercalate (t.operands.map Operand.display) ++ ")"

end InstrTerm

namespace Instr

def term : Instr → InstrTerm
  | bind slot => ⟨.bind, [.number slot]⟩
  | loadGlobal name => ⟨.loadGlobal, [.name name]⟩
  | load slot => ⟨.load, [.number slot]⟩
  | constant index => ⟨.constant, [.number index]⟩
  | jumpIfFalse target => ⟨.jumpIfFalse, [.ofTarget target]⟩
  | jump target => ⟨.jump, [.ofTarget target]⟩
  | call arity => ⟨.call, [.number arity]⟩
  | closure index captured => ⟨.closure, [.number index, .number captured]⟩
  | store slot => ⟨.store, [.number slot]⟩
  | storeGlobal name => ⟨.storeGlobal, [.name name]⟩
  | makeCell => ⟨.makeCell, []⟩
  | loadCell slot => ⟨.loadCell, [.number slot]⟩
  | storeCell slot => ⟨.storeCell, [.number slot]⟩
  | ret => ⟨.ret, []⟩

def print (i : Instr) : String := i.term.print

def display (i : Instr) : String := i.term.display

end Instr

end SchemeStack
