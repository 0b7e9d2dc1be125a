/-
The symbol table: the names of a program, numbered in the order of their first use, and the supply of fresh names.

Interning a name gives it the next number, unless it has one. A minted name is `$g` with a running count; if the table
holds that name, a tilde and the first number that makes it new are added. It is interned at once, so no later name
equals it.

A register keeps its names twice (`NameRegister`): in a list, which leads from numbers to names, and in a dictionary,
which leads from names to numbers. Each operation reads one of the two, and interning writes both. They are in step if
the dictionary has the names of the list in their order, each with its place in the list (`InStep`). A symbol table is
a register in step (`SymbolTable`); `inStep_handle` and `inStep_mint` say that no operation gets it out of step.

The search for a suffix tries as many as the dictionary has names, one more than can be taken.
-/
namespace SchemeStack

/-- names by their numbers, numbers by their names, and how many names were minted -/
structure NameRegister where
  names : List String
  numbers : List (String × Nat)
  minted : Nat
  deriving DecidableEq

namespace NameRegister

def empty : NameRegister := ⟨[], [], 0⟩

def indexOf? (r : NameRegister) (name : String) : Option Nat := r.numbers.lookup name

def contains (r : NameRegister) (name : String) : Bool := (r.indexOf? name).isSome

def nameAt? (r : NameRegister) (index : Int) : Option String :=
  if 0 ≤ index ∧ index < r.names.length then r.names[index.toNat]? else none

def size (r : NameRegister) : Nat := r.names.length

/-- the number of a name, which is given one if it has none -/
def handle (r : NameRegister) (name : String) : Nat × NameRegister :=
  match r.indexOf? name with
  | some n => (n, r)
  | none =>
    let names := r.names ++ [name]
    let n := names.length - 1
    (n, { r with names, numbers := r.numbers ++ [(name, n)] })

/-- the first of `base~i`, `base~(i+1)`, ... that the register does not have, at most `tries` steps on -/
def suffixed (r : NameRegister) (base : String) : (tries : Nat) → (i : Nat) → String
  | 0, i => base ++ "~" ++ toString i
  | tries + 1, i =>
    if r.contains (base ++ "~" ++ toString i) then r.suffixed base tries (i + 1) else base ++ "~" ++ toString i

/-- a name that the register does not have -/
def freshName (r : NameRegister) : String :=
  let base := "$g" ++ toString r.minted
  if r.contains base then r.suffixed base r.numbers.length 0 else base

def mint (r : NameRegister) : String × NameRegister :=
  let name := r.freshName
  (name, ({ r with minted := r.minted + 1 }.handle name).2)

/-- the dictionary has the names of the list, each with its place there -/
def InStep (r : NameRegister) : Prop := r.numbers = r.names.zipIdx

theorem inStep_handle {r : NameRegister} (h : r.InStep) (name : String) : (r.handle name).2.InStep := by
  unfold handle
  split
  · exact h
  · have hnumbers : r.numbers = r.names.zipIdx := h
    simp [InStep, hnumbers, List.zipIdx_append]

theorem inStep_mint {r : NameRegister} (h : r.InStep) : r.mint.2.InStep :=
  inStep_handle (r := { r with minted := r.minted + 1 }) h _

end NameRegister

/-- a register whose names and numbers are in step -/
structure SymbolTable extends NameRegister where
  inStep : toNameRegister.InStep
  deriving DecidableEq

namespace SymbolTable

def empty : SymbolTable := ⟨.empty, rfl⟩

instance : Inhabited SymbolTable := ⟨empty⟩

/-- gives a name a number, unless it has one -/
def intern (t : SymbolTable) (name : String) : SymbolTable :=
  ⟨(t.toNameRegister.handle name).2, NameRegister.inStep_handle t.inStep name⟩

def internAll (t : SymbolTable) (names : List String) : SymbolTable := names.foldl intern t

def mint (t : SymbolTable) : String × SymbolTable :=
  (t.freshName, ⟨t.toNameRegister.mint.2, NameRegister.inStep_mint t.inStep⟩)

end SymbolTable

end SchemeStack
