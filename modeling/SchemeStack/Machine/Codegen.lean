/-
Code generation: core expressions to instructions.

Every expression leaves one value on the stack. A binding gets a slot of its frame before its value is evaluated, and no
slot is used twice. A variable in scope is found in its slot; any other is global and its name is interned. A variable
that is both assigned and captured by a procedure inside its scope is kept in a cell, so that the frame and the closures
share it.

A procedure captures the variables in scope that are free in it, in increasing order of their names. A variable kept in
a cell is captured with its cell. Parameters that need a cell are put into one before the body runs.

`Gen` is what code generation leaves behind: the slots of the frame, which of them hold cells, the constant pool and the
symbol table. `genCode` yields the code of an expression that is placed at an index; jumps go to indices after it.
-/
import SchemeStack.Core.Variables
import SchemeStack.Machine.Program

namespace SchemeStack

/-- the variables in scope with their slots, the innermost first -/
abbrev Scope := List (String × Nat)

def Scope.slot? (scope : Scope) (name : String) : Option Nat := scope.lookup name

/-- what code generation leaves behind -/
structure Gen where
  /-- the names that slots were given for -/
  locals : List String
  /-- the slots that hold cells -/
  cells : List Nat
  constants : List Constant
  table : SymbolTable

namespace Gen

def ofTable (table : SymbolTable) : Gen := ⟨[], [], [], table⟩

def nextSlot (g : Gen) : Nat := g.locals.length

def nextIndex (g : Gen) : Nat := g.constants.length

def allocate (g : Gen) (name : String) : Gen := { g with locals := g.locals ++ [name] }

def addCell (g : Gen) (slot : Nat) : Gen := { g with cells := slot :: g.cells }

def addConstant (g : Gen) (c : Constant) : Gen := { g with constants := g.constants ++ [c] }

def addGlobal (g : Gen) (name : String) : Gen := { g with table := g.table.intern name }

end Gen

/-- the variable needs a cell in this scope: it is assigned, and a procedure captures it -/
def needsCell (name : String) (body : Core) : Bool :=
  body.assignedNames.contains name && body.capturedNames.contains name

def loadCode (scope : Scope) (g : Gen) (name : String) : List Instr × Gen :=
  match scope.slot? name with
  | none => ([.loadGlobal name], g.addGlobal name)
  | some slot => ([if g.cells.contains slot then .loadCell slot else .load slot], g)

/-- the code that assigns the top of the stack to a variable -/
def storeCode (scope : Scope) (g : Gen) (name : String) : List Instr × Gen :=
  match scope.slot? name with
  | none => ([.storeGlobal name], g.addGlobal name)
  | some slot => ([if g.cells.contains slot then .storeCell slot else .store slot], g)

def constantCode (g : Gen) (v : Value) : List Instr × Gen :=
  ([.constant g.nextIndex], g.addConstant (.value v))

/-- the variables in scope that are free in a procedure -/
def capturedBy (scope : Scope) (procedure : Core) : List String :=
  (sortedNames procedure.freeNames).filter fun name => (scope.slot? name).isSome

/-- the scope inside a procedure: the captured variables, then the parameters, of which the last hides those before -/
def frameScope (names : List String) : Scope := names.zipIdx.reverse

/-- the slots of captured variables whose cells are passed on -/
def capturedCells (scope : Scope) (cells : List Nat) (captured : List String) : List Nat :=
  captured.zipIdx.filterMap fun (name, slot) =>
    if (scope.slot? name).any cells.contains then some slot else none

/-- the slots, after the first `offset`, of parameters that need cells -/
def paramCells (offset : Nat) (params : List String) (body : Core) : List Nat :=
  (params.zipIdx offset).filterMap fun (name, slot) => if needsCell name body then some slot else none

/-- the code that puts an argument into a cell -/
def cellArgument (slot : Nat) : List Instr := [.load slot, .makeCell, .bind slot]

/-- the code that pushes the captured variables as they are, cells included -/
def captureCode (scope : Scope) (captured : List String) : List Instr :=
  captured.map fun name => .load ((scope.slot? name).getD 0)

mutual

/-- the code of an expression placed at index `start` -/
def genCode (scope : Scope) (start : Nat) : Core → Gen → List Instr × Gen
  | .var name, g => loadCode scope g name
  | .val v, g => constantCode g v
  | .quote v, g => constantCode g v
  | .letIn name value body, g =>
    let slot := g.nextSlot
    let v := genCode scope start value (g.allocate name)
    let boxed := needsCell name body
    let front := v.1 ++ (if boxed then [.makeCell] else []) ++ [.bind slot]
    let b := genCode ((name, slot) :: scope) (start + front.length) body (if boxed then v.2.addCell slot else v.2)
    (front ++ b.1, b.2)
  | .lambda params rest body, g =>
    let captured := capturedBy scope (.lambda params rest body)
    let names := captured ++ Core.binders params rest
    let boxed := paramCells captured.length (Core.binders params rest) body
    let prologue := boxed.flatMap cellArgument
    let inner : Gen := { g with locals := names, cells := boxed ++ capturedCells scope g.cells captured }
    let b := genCode (frameScope names) prologue.length body inner
    let procedure : Procedure :=
      { code := prologue ++ b.1 ++ [.ret], params := params.length, rest := rest.isSome, captured
        frameSize := b.2.locals.length }
    let outer : Gen := { b.2 with locals := g.locals, cells := g.cells }
    (captureCode scope captured ++ [.closure outer.nextIndex captured.length], outer.addConstant (.procedure procedure))
  | .app operator operands, g =>
    let as := genAll scope start operands g
    let f := genCode scope (start + as.1.length) operator as.2
    (as.1 ++ f.1 ++ [.call operands.length], f.2)
  | .branch test consequent none, g =>
    let t := genCode scope start test g
    let c := genCode scope (start + t.1.length + 1) consequent t.2
    let elseAt := start + t.1.length + 1 + c.1.length + 1
    let a := constantCode c.2 (.boolean false)
    let endAt := elseAt + a.1.length
    (t.1 ++ [.jumpIfFalse (some elseAt)] ++ c.1 ++ [.jump (some endAt)] ++ a.1, a.2)
  | .branch test consequent (some alternative), g =>
    let t := genCode scope start test g
    let c := genCode scope (start + t.1.length + 1) consequent t.2
    let elseAt := start + t.1.length + 1 + c.1.length + 1
    let a := genCode scope elseAt alternative c.2
    let endAt := elseAt + a.1.length
    (t.1 ++ [.jumpIfFalse (some elseAt)] ++ c.1 ++ [.jump (some endAt)] ++ a.1, a.2)
  | .assign name value, g =>
    let v := genCode scope start value g
    let s := storeCode scope v.2 name
    (v.1 ++ s.1, s.2)

def genAll (scope : Scope) (start : Nat) : List Core → Gen → List Instr × Gen
  | [], g => ([], g)
  | e :: es, g =>
    let c := genCode scope start e g
    let cs := genAll scope (start + c.1.length) es c.2
    (c.1 ++ cs.1, cs.2)

end

/-- a unit of code under construction: what was generated, and the code so far -/
structure CodeUnit where
  code : List Instr
  scope : Scope
  gen : Gen

namespace CodeUnit

/-- a unit without code, over a symbol table -/
def ofTable (table : SymbolTable) : CodeUnit := ⟨[], [], .ofTable table⟩

def add (u : CodeUnit) (e : Core) : CodeUnit :=
  let c := genCode u.scope u.code.length e u.gen
  { u with code := u.code ++ c.1, gen := c.2 }

def slot? (u : CodeUnit) (name : String) : Option Nat := u.scope.slot? name

end CodeUnit

/-- the complaint about an expression of the surface language, which has no code -/
def notCoreMessage (shown : String) : String := "Cannot compile expression: " ++ shown

def Program.ofCore (exprs : List Core) (table : SymbolTable) : Program :=
  let c := genAll [] 0 exprs (.ofTable table)
  { code := c.1 ++ [.ret], constants := c.2.constants, frameSize := c.2.locals.length, table := c.2.table }

end SchemeStack
