/-
The stack machine: what each instruction does.

The current frame has its code, the index of the next instruction, numbered slots and a stack of operands; the frames of
the callers wait below it. All frames share the memory, which holds the cells and the global variables. A slot is empty
until something is bound to it. Slots and stack hold values or cells (`Item`).

A closure has the captured items of its procedure. Its frame starts with these, followed by the values of the parameters
and of the rest parameter; the slots after them are empty.

The machine is strict about cells: a cell is no value, so it cannot be called, passed, tested, assigned, returned or
put into a cell. It only goes into slots and into closures. An instruction without its operands, a slot that is not
there or empty, an index that the pool does not have, and a jump without target are faults: the machine stops there
(`step` yields nothing). It also stops at a `ret` when no caller is left, which is how a program ends (`Halted`).
-/
import Mathlib.Logic.Relation
import SchemeStack.Machine.Program
import SchemeStack.Proofs.RunValue

namespace SchemeStack

/-- what slots and the stack hold: a value, or a cell of the memory -/
inductive Item (ν : Type) where
  | value (v : ν)
  | cell (address : Nat)

namespace Item

variable {ν : Type}

def value? : Item ν → Option ν
  | value v => some v
  | cell _ => none

theorem mapM_value? (vs : List ν) : (vs.map value).mapM value? = some vs := by
  induction vs with
  | nil => rfl
  | cons v vs ih => simp [List.mapM_cons, ih, value?]

end Item

/-- a procedure with the items it has captured -/
inductive MachineClosure (α : Type) where
  | mk (procedure : Procedure) (captured : List (Item (RunValue α (MachineClosure α))))

abbrev MachineValue (α : Type) := RunValue α (MachineClosure α)

/-- the cells and the global variables of the machine -/
abbrev MachineMemory (α : Type) := Memory (MachineValue α)

/-- an activation of some code -/
structure Frame (α : Type) where
  code : List Instr
  pc : Nat
  slots : List (Option (Item (MachineValue α)))
  stack : List (Item (MachineValue α))

structure MachineState (α : Type) where
  frame : Frame α
  callers : List (Frame α)
  memory : MachineMemory α

namespace Frame

variable {α : Type}

def next (f : Frame α) (stack : List (Item (MachineValue α))) : Frame α := { f with pc := f.pc + 1, stack }

def jump (f : Frame α) (target : Nat) (stack : List (Item (MachineValue α))) : Frame α := { f with pc := target, stack }

/-- what a slot holds, if it is there and not empty -/
def slot? (f : Frame α) (slot : Nat) : Option (Item (MachineValue α)) := f.slots[slot]?.join

/-- the frame with an item in a slot, if the slot is there -/
def setSlot (f : Frame α) (slot : Nat) (item : Item (MachineValue α)) : Option (Frame α) :=
  if slot < f.slots.length then some { f with slots := f.slots.set slot (some item) } else none

/-- items in the first slots, and empty slots up to a number of them -/
def layOut (items : List (Item (MachineValue α))) (size : Nat) : List (Option (Item (MachineValue α))) :=
  items.map some ++ List.replicate (size - items.length) none

end Frame

namespace MachineState

variable {α : Type}

def withFrame (s : MachineState α) (f : Frame α) : MachineState α := { s with frame := f }

/-- goes on with an item pushed onto a stack -/
def push (s : MachineState α) (stack : List (Item (MachineValue α))) (item : Item (MachineValue α)) : MachineState α :=
  s.withFrame (s.frame.next (item :: stack))

/-- calls a value with arguments; `stack` is what is left of the caller's stack -/
def enter (builtins : Builtins α) (s : MachineState α) (stack : List (Item (MachineValue α))) (callee : MachineValue α)
    (args : List (MachineValue α)) : Option (MachineState α) :=
  match callee with
  | .closure (.mk p captured) =>
    (RunValue.arguments? p.params p.rest args).map fun vs =>
      { s with
        frame := ⟨p.code, 0, Frame.layOut (captured ++ vs.map .value) p.frameSize, []⟩
        callers := s.frame.next stack :: s.callers }
  | callee => (RunValue.answer builtins callee args).map fun d => s.push stack (.value (RunValue.embed d))

def exec (builtins : Builtins α) (pool : List Constant) (s : MachineState α) : Instr → Option (MachineState α)
  | .bind slot =>
    match s.frame.stack with
    | item :: stack => (s.frame.setSlot slot item).map fun f => s.withFrame (f.next stack)
    | [] => none
  | .loadGlobal name => (s.memory.globals name).map fun v => s.push s.frame.stack (.value v)
  | .load slot => (s.frame.slot? slot).map fun item => s.push s.frame.stack item
  | .constant index =>
    match pool[index]? with
    | some (.value v) => some (s.push s.frame.stack (.value (.atom v)))
    | _ => none
  | .jumpIfFalse (some target) =>
    match s.frame.stack with
    | .value v :: stack => some (s.withFrame (if v.isFalse then s.frame.jump target stack else s.frame.next stack))
    | _ => none
  | .jump (some target) => some (s.withFrame (s.frame.jump target s.frame.stack))
  | .call arity =>
    match s.frame.stack with
    | .value callee :: stack =>
      if arity ≤ stack.length then
        ((stack.take arity).reverse.mapM Item.value?).bind fun args => s.enter builtins (stack.drop arity) callee args
      else none
    | _ => none
  | .closure index captured =>
    match pool[index]? with
    | some (.procedure p) =>
      if captured ≤ s.frame.stack.length then
        some (s.push (s.frame.stack.drop captured) (.value (.closure (.mk p (s.frame.stack.take captured).reverse))))
      else none
    | _ => none
  | .store slot =>
    match s.frame.stack with
    | item :: stack => (s.frame.setSlot slot item).map fun f => s.withFrame (f.next (item :: stack))
    | [] => none
  | .storeGlobal name =>
    match s.frame.stack with
    | .value v :: stack =>
      some { s with frame := s.frame.next (.value v :: stack), memory := s.memory.setGlobal name v }
    | _ => none
  | .makeCell =>
    match s.frame.stack with
    | .value v :: stack =>
      some { s with frame := s.frame.next (.cell s.memory.heap.length :: stack), memory := s.memory.alloc v }
    | _ => none
  | .loadCell slot =>
    match s.frame.slot? slot with
    | some (.cell address) => s.memory.heap[address]?.map fun v => s.push s.frame.stack (.value v)
    | _ => none
  | .storeCell slot =>
    match s.frame.slot? slot, s.frame.stack with
    | some (.cell address), .value v :: stack =>
      (s.memory.write address v).map fun m => { s with frame := s.frame.next (.value v :: stack), memory := m }
    | _, _ => none
  | .ret =>
    match s.frame.stack, s.callers with
    | .value v :: _, caller :: callers =>
      some { s with frame := { caller with stack := .value v :: caller.stack }, callers }
    | _, _ => none
  | .jumpIfFalse none => none
  | .jump none => none

/-- one step: executes the next instruction -/
def step (builtins : Builtins α) (pool : List Constant) (s : MachineState α) : Option (MachineState α) :=
  s.frame.code[s.frame.pc]?.bind (s.exec builtins pool)

/-- the machine goes from one state to the other in some steps -/
def Steps (builtins : Builtins α) (pool : List Constant) : MachineState α → MachineState α → Prop :=
  Relation.ReflTransGen fun s t => s.step builtins pool = some t

/-- the machine is at the `ret` of its outermost frame, with a value on top of the stack -/
def Halted (s : MachineState α) (v : MachineValue α) : Prop :=
  s.frame.code[s.frame.pc]? = some .ret ∧ s.callers = [] ∧ s.frame.stack.head? = some (.value v)

def start (p : Program) (m : MachineMemory α) : MachineState α :=
  ⟨⟨p.code, 0, Frame.layOut [] p.frameSize, []⟩, [], m⟩

section Lemmas

variable {builtins : Builtins α} {pool : List Constant} {s t u : MachineState α}

theorem Steps.refl (s : MachineState α) : Steps builtins pool s s := Relation.ReflTransGen.refl

theorem Steps.trans (h : Steps builtins pool s t) (h' : Steps builtins pool t u) : Steps builtins pool s u :=
  Relation.ReflTransGen.trans h h'

/-- one instruction is one step -/
theorem Steps.exec {i : Instr} (hi : s.frame.code[s.frame.pc]? = some i) (h : s.exec builtins pool i = some t) :
    Steps builtins pool s t :=
  Relation.ReflTransGen.single (by simp only [step, hi, Option.bind_some, h])

variable {code : List Instr} {pc slot index n : Nat} {name : String} {slots : List (Option (Item (MachineValue α)))}
  {stack : List (Item (MachineValue α))} {callers : List (Frame α)} {m : MachineMemory α} {item : Item (MachineValue α)}
  {v : MachineValue α}

theorem Steps.bind (hi : code[pc]? = some (.bind slot)) (h : slot < slots.length) :
    Steps builtins pool ⟨⟨code, pc, slots, item :: stack⟩, callers, m⟩
      ⟨⟨code, pc + 1, slots.set slot (some item), stack⟩, callers, m⟩ :=
  .exec hi (by simp [MachineState.exec, Frame.setSlot, h, withFrame, Frame.next])

theorem Steps.load (hi : code[pc]? = some (.load slot)) (h : slots[slot]? = some (some item)) :
    Steps builtins pool ⟨⟨code, pc, slots, stack⟩, callers, m⟩ ⟨⟨code, pc + 1, slots, item :: stack⟩, callers, m⟩ :=
  .exec hi (by simp [MachineState.exec, Frame.slot?, h, push, withFrame, Frame.next])

theorem Steps.loadGlobal (hi : code[pc]? = some (.loadGlobal name)) (h : m.globals name = some v) :
    Steps builtins pool ⟨⟨code, pc, slots, stack⟩, callers, m⟩
      ⟨⟨code, pc + 1, slots, .value v :: stack⟩, callers, m⟩ :=
  .exec hi (by simp [MachineState.exec, h, push, withFrame, Frame.next])

theorem Steps.constant {a : Value} (hi : code[pc]? = some (.constant index)) (h : pool[index]? = some (.value a)) :
    Steps builtins pool ⟨⟨code, pc, slots, stack⟩, callers, m⟩
      ⟨⟨code, pc + 1, slots, .value (.atom a) :: stack⟩, callers, m⟩ :=
  .exec hi (by simp [MachineState.exec, h, push, withFrame, Frame.next])

theorem Steps.jumpIfFalse (hi : code[pc]? = some (.jumpIfFalse (some n))) :
    Steps builtins pool ⟨⟨code, pc, slots, .value v :: stack⟩, callers, m⟩
      ⟨⟨code, if v.isFalse then n else pc + 1, slots, stack⟩, callers, m⟩ :=
  .exec hi (by cases hv : v.isFalse <;> simp [MachineState.exec, hv, withFrame, Frame.next, Frame.jump])

theorem Steps.jump (hi : code[pc]? = some (.jump (some n))) :
    Steps builtins pool ⟨⟨code, pc, slots, stack⟩, callers, m⟩ ⟨⟨code, n, slots, stack⟩, callers, m⟩ :=
  .exec hi rfl

theorem Steps.closure {p : Procedure} {items : List (Item (MachineValue α))}
    (hi : code[pc]? = some (.closure index items.length)) (h : pool[index]? = some (.procedure p)) :
    Steps builtins pool ⟨⟨code, pc, slots, items.reverse ++ stack⟩, callers, m⟩
      ⟨⟨code, pc + 1, slots, .value (.closure (.mk p items)) :: stack⟩, callers, m⟩ := by
  have htake : (items.reverse ++ stack).take items.length = items.reverse := List.take_left' (by simp)
  have hdrop : (items.reverse ++ stack).drop items.length = stack := List.drop_left' (by simp)
  exact .exec hi (by simp [MachineState.exec, h, htake, hdrop, push, withFrame, Frame.next])

theorem Steps.store (hi : code[pc]? = some (.store slot)) (h : slot < slots.length) :
    Steps builtins pool ⟨⟨code, pc, slots, item :: stack⟩, callers, m⟩
      ⟨⟨code, pc + 1, slots.set slot (some item), item :: stack⟩, callers, m⟩ :=
  .exec hi (by simp [MachineState.exec, Frame.setSlot, h, withFrame, Frame.next])

theorem Steps.storeGlobal (hi : code[pc]? = some (.storeGlobal name)) :
    Steps builtins pool ⟨⟨code, pc, slots, .value v :: stack⟩, callers, m⟩
      ⟨⟨code, pc + 1, slots, .value v :: stack⟩, callers, m.setGlobal name v⟩ :=
  .exec hi rfl

theorem Steps.makeCell (hi : code[pc]? = some .makeCell) :
    Steps builtins pool ⟨⟨code, pc, slots, .value v :: stack⟩, callers, m⟩
      ⟨⟨code, pc + 1, slots, .cell m.heap.length :: stack⟩, callers, m.alloc v⟩ :=
  .exec hi rfl

theorem Steps.loadCell (hi : code[pc]? = some (.loadCell slot)) (h : slots[slot]? = some (some (.cell n)))
    (hv : m.heap[n]? = some v) :
    Steps builtins pool ⟨⟨code, pc, slots, stack⟩, callers, m⟩
      ⟨⟨code, pc + 1, slots, .value v :: stack⟩, callers, m⟩ :=
  .exec hi (by simp [MachineState.exec, Frame.slot?, h, hv, push, withFrame, Frame.next])

theorem Steps.storeCell {m' : MachineMemory α} (hi : code[pc]? = some (.storeCell slot))
    (h : slots[slot]? = some (some (.cell n))) (hm : m.write n v = some m') :
    Steps builtins pool ⟨⟨code, pc, slots, .value v :: stack⟩, callers, m⟩
      ⟨⟨code, pc + 1, slots, .value v :: stack⟩, callers, m'⟩ :=
  .exec hi (by simp [MachineState.exec, Frame.slot?, h, hm, Frame.next])

theorem Steps.ret {caller : Frame α} (hi : code[pc]? = some .ret) :
    Steps builtins pool ⟨⟨code, pc, slots, .value v :: stack⟩, caller :: callers, m⟩
      ⟨{ caller with stack := .value v :: caller.stack }, callers, m⟩ :=
  .exec hi rfl

/-- a call takes the callee and its arguments from the stack -/
theorem Steps.call {callee : MachineValue α} {args : List (MachineValue α)}
    (hi : code[pc]? = some (.call args.length))
    (h : enter builtins ⟨⟨code, pc, slots, .value callee :: ((args.map .value).reverse ++ stack)⟩, callers, m⟩
      stack callee args = some t) :
    Steps builtins pool ⟨⟨code, pc, slots, .value callee :: ((args.map .value).reverse ++ stack)⟩, callers, m⟩ t := by
  have htake : (((args.map Item.value).reverse ++ stack).take args.length).reverse = args.map .value := by
    rw [List.take_left' (by simp), List.reverse_reverse]
  have hdrop : ((args.map Item.value).reverse ++ stack).drop args.length = stack := List.drop_left' (by simp)
  have hle : args.length ≤ ((args.map Item.value).reverse ++ stack).length := by simp
  exact .exec hi (by simp only [MachineState.exec, if_pos hle, htake, hdrop, Item.mapM_value?, Option.bind_some, h])

end Lemmas

end MachineState

end SchemeStack
