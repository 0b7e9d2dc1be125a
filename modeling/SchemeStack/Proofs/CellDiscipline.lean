/-
The discipline of slots and cells in generated code.

A slot is empty, or holds a value or a cell, and so does each place of the stack (`Shape`). What an instruction does
to a shape (`Instr.reshape`) is what it does to a frame, with all values taken for one. So each control path through
some code (`ControlPath`) leads from the shape on entry to one shape, as long as the path finds what it needs.

Code is disciplined (`CellDisciplined`) if every control path finds what it needs, and wherever it leads
- a slot in use is one that was filled on entry, or by a `bind` on the path;
- the instructions for cells have cells, and `store` has none;
- a slot with a cell is pushed for a closure only, right before the closure is made;
- the captured slots that get a cell are those that the procedure of the closure uses as cells (`UsesCell`);
- all operands and operators, tests, stored values, contents of new cells and results are values.

`program_cellDisciplined`: the code of a program is disciplined, from an empty frame, and so is the code of every
procedure in its pool, from the frame that a closure of it starts with.

That code can be run from a shape (`Safe`) is shown from its end to its start. The code of an expression can be run if
what stands behind it can be run with one value more on the stack and the slots known before as they were
(`genCode_safe`).
-/
import Mathlib.Logic.Function.Basic
import SchemeStack.Proofs.CellUse
import SchemeStack.Proofs.StackDiscipline

namespace SchemeStack

/-! ## Shapes -/

inductive Kind where
  | value
  | cell
  deriving DecidableEq

/-- the kinds of what is in a frame; an empty slot has none -/
structure Shape where
  slots : Nat → Option Kind
  stack : List Kind

namespace Shape

def empty : Shape := ⟨fun _ => none, []⟩

def push (sh : Shape) (kind : Kind) : Shape := ⟨sh.slots, kind :: sh.stack⟩

/-- the shape with a slot filled and another stack -/
def fill (sh : Shape) (slot : Nat) (kind : Kind) (stack : List Kind) : Shape :=
  ⟨Function.update sh.slots slot (some kind), stack⟩

end Shape

namespace Instr

/-- what an instruction makes of a shape, if it finds the slots and the places of the stack that it needs -/
def reshape (sh : Shape) : Instr → Option Shape
  | bind slot =>
    match sh.stack with
    | kind :: stack => some (sh.fill slot kind stack)
    | [] => none
  | loadGlobal _ => some (sh.push .value)
  | load slot => (sh.slots slot).map sh.push
  | constant _ => some (sh.push .value)
  | jumpIfFalse _ =>
    match sh.stack with
    | _ :: stack => some { sh with stack }
    | [] => none
  | jump _ => some sh
  | call arity =>
    if arity < sh.stack.length then some { sh with stack := .value :: sh.stack.drop (arity + 1) } else none
  | closure _ captured =>
    if captured ≤ sh.stack.length then some { sh with stack := .value :: sh.stack.drop captured } else none
  | store slot =>
    match sh.slots slot, sh.stack with
    | some _, kind :: stack => some (sh.fill slot kind (kind :: stack))
    | _, _ => none
  | storeGlobal _ => if sh.stack = [] then none else some sh
  | makeCell =>
    match sh.stack with
    | _ :: stack => some { sh with stack := .cell :: stack }
    | [] => none
  | loadCell slot => (sh.slots slot).map fun _ => sh.push .value
  | storeCell slot => if sh.slots slot = none ∨ sh.stack = [] then none else some sh
  | ret => some sh

/-- the slots that an instruction finds filled -/
def slotsUsed : Instr → List Nat
  | load slot => [slot]
  | store slot => [slot]
  | loadCell slot => [slot]
  | storeCell slot => [slot]
  | _ => []

/-- the slots that it takes for cells -/
def cellsUsed : Instr → List Nat
  | loadCell slot => [slot]
  | storeCell slot => [slot]
  | _ => []

/-- how many places on top of the stack it takes for values: operands and operator, test, stored value, content,
result -/
def valuesUsed : Instr → Nat
  | jumpIfFalse _ => 1
  | call arity => arity + 1
  | store _ => 1
  | storeGlobal _ => 1
  | makeCell => 1
  | storeCell _ => 1
  | ret => 1
  | _ => 0

end Instr

/-! ## Control paths -/

/-- the control goes from one index of the code to another and executes these instructions -/
inductive ControlPath (code : List Instr) : Nat → List Instr → Nat → Prop
  | nil (i : Nat) : ControlPath code i [] i
  | cons {i j k : Nat} {instr : Instr} {path : List Instr} : code[i]? = some instr → j ∈ instr.successors i →
    ControlPath code j path k → ControlPath code i (instr :: path) k

/-- the shape at the end of a path -/
def Shape.after (sh : Shape) : List Instr → Option Shape
  | [] => some sh
  | instr :: path => (instr.reshape sh).bind fun sh' => sh'.after path

/-- the index is at one of the slots that are pushed right before a closure is made, and captured by it -/
def PushedForClosure (code : List Instr) (i : Nat) : Prop :=
  ∃ first count index, code[first + count]? = some (.closure index count) ∧ first ≤ i ∧ i < first + count ∧
    ∀ k < count, ∃ slot, code[first + k]? = some (.load slot)

/-- the instruction at an index finds in a shape what it should -/
structure Proper (pool : List Constant) (code : List Instr) (i : Nat) (instr : Instr) (sh : Shape) : Prop where
  slots : ∀ s ∈ instr.slotsUsed, sh.slots s ≠ none
  cells : ∀ s ∈ instr.cellsUsed, sh.slots s = some .cell
  store : ∀ s, instr = .store s → sh.slots s ≠ some .cell
  load : ∀ s, instr = .load s → sh.slots s = some .cell → PushedForClosure code i
  closure : ∀ index count, instr = .closure index count → ∃ p, pool[index]? = some (.procedure p) ∧
    p.captured.length = count ∧ count ≤ sh.stack.length ∧
      ∀ k < count, (sh.stack.take count).reverse[k]? = some .cell ↔ UsesCell pool p.code k
  values : ∀ kind ∈ sh.stack.take instr.valuesUsed, kind = .value

/-- how many slots are filled when a procedure starts: those of what it captures, of its parameters and of the rest -/
def Procedure.slotsGiven (p : Procedure) : Nat := p.captured.length + p.params + p.rest.toNat

open Classical in
/-- the shape of a frame when a procedure starts: it has captured cells where it uses cells, all else are values -/
noncomputable def Procedure.entry (pool : List Constant) (p : Procedure) : Shape where
  slots s :=
    if s < p.captured.length then some (if UsesCell pool p.code s then .cell else .value)
    else if s < p.slotsGiven then some .value
    else none
  stack := []

/-- every control path from the start finds what it needs, whatever instruction it leads to -/
def CellDisciplined (pool : List Constant) (code : List Instr) (given : Nat) (entry : Shape) : Prop :=
  ∀ path i instr, ControlPath code 0 path i → code[i]? = some instr →
    ∃ sh, entry.after path = some sh ∧ Proper pool code i instr sh ∧
      ∀ s ∈ instr.slotsUsed, s < given ∨ .bind s ∈ path

section Entry

variable {pool : List Constant} {p : Procedure} {s : Nat}

theorem Procedure.entry_cell (hs : s < p.captured.length) (h : UsesCell pool p.code s) :
    (p.entry pool).slots s = some .cell := by
  simp [entry, hs, h]

theorem Procedure.entry_value (hs : s < p.captured.length) (h : ¬UsesCell pool p.code s) :
    (p.entry pool).slots s = some .value := by
  simp [entry, hs, h]

theorem Procedure.entry_given (hle : p.captured.length ≤ s) (hlt : s < p.slotsGiven) :
    (p.entry pool).slots s = some .value := by
  simp [entry, Nat.not_lt.2 hle, hlt]

theorem Procedure.entry_empty (h : p.slotsGiven ≤ s) : (p.entry pool).slots s = none := by
  have hs : ¬s < p.captured.length := fun hs => by
    unfold slotsGiven at h
    omega
  simp [entry, hs, Nat.not_lt.2 h]

end Entry

/-! ## Slots that are filled -/

section Filled

variable {sh sh' : Shape} {instr : Instr} {s : Nat}

theorem Shape.filled_of_fill {slot : Nat} {kind : Kind} {stack : List Kind}
    (h : (sh.fill slot kind stack).slots s ≠ none) :
    sh.slots s ≠ none ∨ slot = s := by
  by_cases heq : s = slot
  · exact Or.inr heq.symm
  · exact Or.inl (by simpa [fill, heq] using h)

/-- an instruction fills no slot that was empty, unless it is a `bind` -/
theorem filled_of_reshape (h : instr.reshape sh = some sh') (hs : sh'.slots s ≠ none) :
    sh.slots s ≠ none ∨ instr = .bind s := by
  cases instr with
  | bind slot =>
    simp only [Instr.reshape] at h
    split at h
    · cases h
      exact (Shape.filled_of_fill hs).imp_right (congrArg Instr.bind)
    · cases h
  | store slot =>
    simp only [Instr.reshape] at h
    split at h
    · next hslot _ =>
      cases h
      rcases Shape.filled_of_fill hs with hs | rfl
      · exact Or.inl hs
      · exact Or.inl (by simp [hslot])
    · cases h
  | load slot | loadCell slot =>
    obtain ⟨kind, -, rfl⟩ := Option.map_eq_some_iff.1 h
    exact Or.inl hs
  | loadGlobal name | constant index | jump target | ret =>
    cases h
    exact Or.inl hs
  | jumpIfFalse target | makeCell | call arity | closure index captured =>
    simp only [Instr.reshape] at h
    split at h
    · cases h
      exact Or.inl hs
    · cases h
  | storeGlobal name | storeCell slot =>
    simp only [Instr.reshape] at h
    split at h
    · cases h
    · cases h
      exact Or.inl hs

theorem filled_of_after {path : List Instr} (h : sh.after path = some sh') (hs : sh'.slots s ≠ none) :
    sh.slots s ≠ none ∨ .bind s ∈ path := by
  induction path generalizing sh with
  | nil =>
    cases h
    exact Or.inl hs
  | cons instr path ih =>
    obtain ⟨sh₁, hshape, hafter⟩ := Option.bind_eq_some_iff.1 h
    rcases ih hafter with hs | hmem
    · rcases filled_of_reshape hshape hs with hs | rfl
      · exact Or.inl hs
      · exact Or.inr List.mem_cons_self
    · exact Or.inr (List.mem_cons_of_mem _ hmem)

end Filled

/-! ## Code that can be run -/

/-- whatever control path is taken from an index with a shape, it finds what it needs -/
def Safe (pool : List Constant) (code : List Instr) (i : Nat) (sh : Shape) : Prop :=
  ∀ path j, ControlPath code i path j →
    ∃ sh', sh.after path = some sh' ∧ ∀ instr, code[j]? = some instr → Proper pool code j instr sh'

namespace Safe

variable {pool : List Constant} {code : List Instr} {i : Nat} {instr : Instr} {sh sh' : Shape} {stack : List Kind}

/-- what an instruction finds and leaves; the rest is up to its successors -/
theorem step (hi : code[i]? = some instr) (hproper : Proper pool code i instr sh) (hshape : instr.reshape sh = some sh')
    (h : ∀ j ∈ instr.successors i, Safe pool code j sh') : Safe pool code i sh := by
  intro path j hpath
  cases hpath with
  | nil =>
    refine ⟨sh, rfl, fun instr' hi' => ?_⟩
    cases hi.symm.trans hi'
    exact hproper
  | cons hi' hj hpath =>
    cases hi.symm.trans hi'
    obtain ⟨sh'', hafter, hlast⟩ := h _ hj _ _ hpath
    refine ⟨sh'', ?_, hlast⟩
    rw [Shape.after, hshape]
    exact hafter

theorem next (hi : code[i]? = some instr) (hproper : Proper pool code i instr sh) (hshape : instr.reshape sh = some sh')
    (hnext : instr.successors i = [i + 1]) (h : Safe pool code (i + 1) sh') : Safe pool code i sh := by
  refine step hi hproper hshape fun j hj => ?_
  rw [hnext] at hj
  rw [List.mem_singleton.1 hj]
  exact h

theorem loadGlobal {name : String} (hi : code[i]? = some (.loadGlobal name))
    (h : Safe pool code (i + 1) (sh.push .value)) :
    Safe pool code i sh :=
  next hi ⟨nofun, nofun, nofun, nofun, nofun, nofun⟩ rfl rfl h

theorem constant {index : Nat} (hi : code[i]? = some (.constant index)) (h : Safe pool code (i + 1) (sh.push .value)) :
    Safe pool code i sh :=
  next hi ⟨nofun, nofun, nofun, nofun, nofun, nofun⟩ rfl rfl h

theorem load {slot : Nat} {kind : Kind} (hi : code[i]? = some (.load slot)) (hslot : sh.slots slot = some kind)
    (hcell : kind = .cell → PushedForClosure code i) (h : Safe pool code (i + 1) (sh.push kind)) :
    Safe pool code i sh := by
  refine next hi ⟨?_, nofun, nofun, ?_, nofun, nofun⟩ (by simp [Instr.reshape, hslot]) rfl h
  · simp [Instr.slotsUsed, hslot]
  · rintro s hs hkind
    cases hs
    exact hcell (by simpa [hslot] using hkind)

theorem loadCell {slot : Nat} (hi : code[i]? = some (.loadCell slot)) (hslot : sh.slots slot = some .cell)
    (h : Safe pool code (i + 1) (sh.push .value)) : Safe pool code i sh := by
  refine next hi ⟨?_, ?_, nofun, nofun, nofun, nofun⟩ (by simp [Instr.reshape, hslot]) rfl h
  · simp [Instr.slotsUsed, hslot]
  · simp [Instr.cellsUsed, hslot]

theorem bind {slot : Nat} {kind : Kind} (hi : code[i]? = some (.bind slot)) (hstack : sh.stack = kind :: stack)
    (h : Safe pool code (i + 1) (sh.fill slot kind stack)) : Safe pool code i sh :=
  next hi ⟨nofun, nofun, nofun, nofun, nofun, nofun⟩ (by simp [Instr.reshape, hstack]) rfl h

theorem makeCell (hi : code[i]? = some .makeCell) (hstack : sh.stack = .value :: stack)
    (h : Safe pool code (i + 1) { sh with stack := .cell :: stack }) : Safe pool code i sh :=
  next hi ⟨nofun, nofun, nofun, nofun, nofun, by simp [hstack, Instr.valuesUsed]⟩
    (by simp [Instr.reshape, hstack]) rfl h

theorem storeGlobal {name : String} (hi : code[i]? = some (.storeGlobal name)) (hstack : sh.stack = .value :: stack)
    (h : Safe pool code (i + 1) sh) : Safe pool code i sh :=
  next hi ⟨nofun, nofun, nofun, nofun, nofun, by simp [hstack, Instr.valuesUsed]⟩
    (by simp [Instr.reshape, hstack]) rfl h

theorem storeCell {slot : Nat} (hi : code[i]? = some (.storeCell slot)) (hslot : sh.slots slot = some .cell)
    (hstack : sh.stack = .value :: stack) (h : Safe pool code (i + 1) sh) : Safe pool code i sh := by
  refine next hi ⟨?_, ?_, nofun, nofun, nofun, ?_⟩ (by simp [Instr.reshape, hslot, hstack]) rfl h
  · simp [Instr.slotsUsed, hslot]
  · simp [Instr.cellsUsed, hslot]
  · simp [hstack, Instr.valuesUsed]

/-- a value that is stored in place of a value leaves the shape as it is -/
theorem store {slot : Nat} (hi : code[i]? = some (.store slot)) (hslot : sh.slots slot = some .value)
    (hstack : sh.stack = .value :: stack) (h : Safe pool code (i + 1) sh) : Safe pool code i sh := by
  have hsame : sh.fill slot .value (.value :: stack) = sh := by
    rw [Shape.fill, ← hslot, Function.update_eq_self, ← hstack]
  refine next hi ⟨?_, nofun, ?_, nofun, nofun, ?_⟩ (by simp [Instr.reshape, hslot, hstack, hsame]) rfl h
  · simp [Instr.slotsUsed, hslot]
  · rintro s hs
    cases hs
    simp [hslot]
  · simp [hstack, Instr.valuesUsed]

theorem jump {target : Nat} (hi : code[i]? = some (.jump (some target))) (h : Safe pool code target sh) :
    Safe pool code i sh := by
  refine step hi ⟨nofun, nofun, nofun, nofun, nofun, nofun⟩ rfl fun j hj => ?_
  rw [List.mem_singleton.1 hj]
  exact h

theorem jumpIfFalse {target : Nat} (hi : code[i]? = some (.jumpIfFalse (some target)))
    (hstack : sh.stack = .value :: stack) (hnext : Safe pool code (i + 1) { sh with stack })
    (htarget : Safe pool code target { sh with stack }) : Safe pool code i sh := by
  have hshape : (Instr.jumpIfFalse (some target)).reshape sh = some { sh with stack } := by simp [Instr.reshape, hstack]
  refine step hi ⟨nofun, nofun, nofun, nofun, nofun, ?_⟩ hshape fun j hj => ?_
  · simp [hstack, Instr.valuesUsed]
  · rcases Instr.mem_successors hj with ⟨-, rfl⟩ | hj
    · exact hnext
    · cases List.mem_singleton.1 hj
      exact htarget

theorem call {arity : Nat} (hi : code[i]? = some (.call arity))
    (hstack : sh.stack = .value :: (List.replicate arity .value ++ stack))
    (h : Safe pool code (i + 1) { sh with stack := .value :: stack }) : Safe pool code i sh := by
  refine next hi ⟨nofun, nofun, nofun, nofun, nofun, ?_⟩ ?_ rfl h
  · simp [hstack, Instr.valuesUsed]
  · have henough : arity < sh.stack.length := by
      simp only [hstack, List.length_cons, List.length_append, List.length_replicate]
      omega
    rw [Instr.reshape, if_pos henough, hstack]
    simp

theorem closure {index : Nat} {p : Procedure} {kinds : List Kind} (hi : code[i]? = some (.closure index kinds.length))
    (hp : pool[index]? = some (.procedure p)) (hlength : p.captured.length = kinds.length)
    (hstack : sh.stack = kinds.reverse ++ stack)
    (hcells : ∀ k, kinds[k]? = some .cell ↔ k < kinds.length ∧ UsesCell pool p.code k)
    (h : Safe pool code (i + 1) { sh with stack := .value :: stack }) : Safe pool code i sh := by
  refine next hi ⟨nofun, nofun, nofun, nofun, ?_, nofun⟩ ?_ rfl h
  · rintro index' count heq
    cases heq
    refine ⟨p, hp, hlength, by simp [hstack], fun k hk => ?_⟩
    rw [hstack, List.take_left' (List.length_reverse), List.reverse_reverse, hcells, and_iff_right hk]
  · simp [Instr.reshape, hstack]

theorem ret (hi : code[i]? = some .ret) (hstack : ∀ kind ∈ sh.stack.take 1, kind = .value) : Safe pool code i sh :=
  step hi ⟨nofun, nofun, nofun, nofun, nofun, hstack⟩ rfl nofun

end Safe

/-! ## Generated code -/

def Gen.kind (g : Gen) (slot : Nat) : Kind := if slot ∈ g.cells then .cell else .value

/-- the slots of a scope hold what code generation takes them to hold -/
structure Known (scope : Scope) (g : Gen) (sh : Shape) : Prop where
  cells : ∀ s ∈ g.cells, s < g.nextSlot
  below : ∀ x s, scope.slot? x = some s → s < g.nextSlot
  slots : ∀ x s, scope.slot? x = some s → sh.slots s = some (g.kind s)

section Known

variable {scope : Scope} {g g' : Gen} {sh sh' : Shape}

theorem Gen.Extends.kind_eq (h : g.Extends g') {s : Nat} (hs : s < g.nextSlot) : g'.kind s = g.kind s := by
  unfold Gen.kind
  simp only [h.mem_cells_iff hs]

theorem Gen.kind_eq_cell {s : Nat} : g.kind s = .cell ↔ s ∈ g.cells := by
  unfold Gen.kind
  split
  · next h => simp [h]
  · next h => simp [h]

theorem Gen.Extends.cells_below (h : g.Extends g') (hcells : ∀ s ∈ g.cells, s < g.nextSlot) :
    ∀ s ∈ g'.cells, s < g'.nextSlot := by
  intro s hs
  rcases h.newCells s hs with hs | ⟨-, hlt⟩
  · exact Nat.lt_of_lt_of_le (hcells s hs) h.nextSlot_le
  · exact hlt

/-- what is known stays known when code is generated and run -/
theorem Known.later (h : Known scope g sh) (hg : g.Extends g') (hslots : ∀ s < g.nextSlot, sh'.slots s = sh.slots s) :
    Known scope g' sh' := by
  refine ⟨hg.cells_below h.cells, fun x s hs => ?_, fun x s hs => ?_⟩
  · exact Nat.lt_of_lt_of_le (h.below x s hs) hg.nextSlot_le
  · rw [hslots s (h.below x s hs), h.slots x s hs, hg.kind_eq (h.below x s hs)]

theorem letGen_nextSlot (scope : Scope) (start : Nat) (name : String) (value body : Core) (g : Gen) :
    g.nextSlot < (letGen scope start name value body g).nextSlot := by
  have hvalue := (genCode_extends value scope start (g.allocate name)).nextSlot_le
  have hnew : (g.allocate name).nextSlot = g.nextSlot + 1 := by simp [Gen.allocate, Gen.nextSlot]
  have hlet : (letGen scope start name value body g).nextSlot =
      (genCode scope start value (g.allocate name)).2.nextSlot := by
    unfold letGen
    dsimp only
    split
    · rfl
    · rfl
  omega

/-- the slot of a binding gets a cell exactly if the binding needs one -/
theorem letGen_kind (hcells : ∀ s ∈ g.cells, s < g.nextSlot) (start : Nat) (name : String) (value body : Core) :
    (letGen scope start name value body g).kind g.nextSlot = if needsCell name body then .cell else .value := by
  have hnew : g.nextSlot ∉ (genCode scope start value (g.allocate name)).2.cells := by
    intro hmem
    rcases (genCode_extends value scope start (g.allocate name)).newCells _ hmem with hmem | ⟨hle, -⟩
    · exact Nat.lt_irrefl _ (hcells _ hmem)
    · simp only [Gen.allocate, Gen.nextSlot, List.length_append, List.length_singleton] at hle
      omega
  unfold letGen Gen.kind
  cases needsCell name body with
  | true => simp [Gen.addCell]
  | false => simp [hnew]

/-- what is known in the body of a binding -/
theorem Known.letBody (h : Known scope g sh) (hslots : ∀ s < g.nextSlot, sh'.slots s = sh.slots s) (start : Nat)
    (name : String) (value body : Core) (stack : List Kind) :
    Known ((name, g.nextSlot) :: scope) (letGen scope start name value body g)
      (sh'.fill g.nextSlot (if needsCell name body then .cell else .value) stack) := by
  have hext := letGen_extends scope start name value body g (genCode_extends _ _ _ _)
  have hlt := letGen_nextSlot scope start name value body g
  refine ⟨hext.cells_below h.cells, fun x s hs => ?_, fun x s hs => ?_⟩
  · rw [Scope.slot?_cons] at hs
    split at hs
    · cases hs
      exact hlt
    · exact Nat.lt_trans (h.below x s hs) hlt
  · rw [Scope.slot?_cons] at hs
    split at hs
    · cases hs
      rw [letGen_kind h.cells, Shape.fill]
      exact Function.update_self _ _ _
    · have hbelow := h.below x s hs
      rw [hext.kind_eq hbelow, ← h.slots x s hs, ← hslots s hbelow]
      exact Function.update_of_ne (Nat.ne_of_lt hbelow) _ _

end Known

/-- the code of the expression can be run if what stands behind it can, with one value more -/
def RunsSafely (e : Core) : Prop :=
  ∀ (pool : List Constant) (code : List Instr) (scope : Scope) (start : Nat) (g : Gen) (sh : Shape),
    CodeAt code start (genCode scope start e g).1 → (genCode scope start e g).2.constants <+: pool → Known scope g sh →
    (∀ sh' : Shape, sh'.stack = .value :: sh.stack → (∀ s < g.nextSlot, sh'.slots s = sh.slots s) →
      Safe pool code (start + (genCode scope start e g).1.length) sh') →
    Safe pool code start sh

section Generated

variable {pool : List Constant} {code : List Instr} {scope : Scope} {start : Nat} {g : Gen} {sh : Shape}

theorem loadCode_length (scope : Scope) (g : Gen) (name : String) : (loadCode scope g name).1.length = 1 := by
  unfold loadCode
  split
  · rfl
  · rfl

theorem storeCode_length (scope : Scope) (g : Gen) (name : String) : (storeCode scope g name).1.length = 1 := by
  unfold storeCode
  split
  · rfl
  · rfl

theorem loadCode_safe {name : String} (hcode : CodeAt code start (loadCode scope g name).1) (hknown : Known scope g sh)
    (h : Safe pool code (start + 1) (sh.push .value)) : Safe pool code start sh := by
  unfold loadCode at hcode
  split at hcode
  · exact .loadGlobal (CodeAt.singleton.1 hcode) h
  · next s hs =>
    have hslot := hknown.slots name s hs
    rw [CodeAt.singleton] at hcode
    by_cases hc : s ∈ g.cells
    · rw [if_pos (by simpa using hc)] at hcode
      rw [Gen.kind, if_pos hc] at hslot
      exact .loadCell hcode hslot h
    · rw [if_neg (by simpa using hc)] at hcode
      rw [Gen.kind, if_neg hc] at hslot
      exact .load hcode hslot (by simp) h

theorem storeCode_safe {name : String} {stack : List Kind} (hcode : CodeAt code start (storeCode scope g name).1)
    (hknown : Known scope g sh) (hstack : sh.stack = .value :: stack)
    (h : Safe pool code (start + 1) sh) : Safe pool code start sh := by
  unfold storeCode at hcode
  split at hcode
  · exact .storeGlobal (CodeAt.singleton.1 hcode) hstack h
  · next s hs =>
    have hslot := hknown.slots name s hs
    rw [CodeAt.singleton] at hcode
    by_cases hc : s ∈ g.cells
    · rw [if_pos (by simpa using hc)] at hcode
      rw [Gen.kind, if_pos hc] at hslot
      exact .storeCell hcode hslot hstack h
    · rw [if_neg (by simpa using hc)] at hcode
      rw [Gen.kind, if_neg hc] at hslot
      exact .store hcode hslot hstack h

theorem genAll_safe {es : List Core} (hes : ∀ e ∈ es, RunsSafely e)
    (hcode : CodeAt code start (genAll scope start es g).1) (hpool : (genAll scope start es g).2.constants <+: pool)
    (hknown : Known scope g sh)
    (h : ∀ sh' : Shape, sh'.stack = List.replicate es.length .value ++ sh.stack →
      (∀ s < g.nextSlot, sh'.slots s = sh.slots s) → Safe pool code (start + (genAll scope start es g).1.length) sh') :
    Safe pool code start sh := by
  induction es generalizing start g sh with
  | nil => exact h sh rfl fun _ _ => rfl
  | cons e es ih =>
    have hext : g.Extends (genCode scope start e g).2 := genCode_extends e scope start g
    have hrest := genAll_extends_all es scope (start + (genCode scope start e g).1.length) (genCode scope start e g).2
    rw [genAll] at hcode hpool
    obtain ⟨hcode, hcodes⟩ := CodeAt.append.1 hcode
    refine hes e List.mem_cons_self pool code scope start g sh hcode (hrest.constants.trans hpool) hknown ?_
    intro sh₁ hstack₁ hslots₁
    refine ih (fun e' he' => hes e' (List.mem_cons_of_mem e he')) hcodes hpool (hknown.later hext hslots₁) ?_
    intro sh₂ hstack₂ hslots₂
    have hsafe := h sh₂ ?_ ?_
    · rwa [genAll, List.length_append, ← Nat.add_assoc] at hsafe
    · rw [hstack₂, hstack₁, List.length_cons, List.replicate_succ']
      simp
    · intro s hs
      rw [hslots₂ s (Nat.lt_of_lt_of_le hs hext.nextSlot_le), hslots₁ s hs]

theorem app_safe {operator : Core} {operands : List Core} (hf : RunsSafely operator)
    (has : ∀ e ∈ operands, RunsSafely e) : RunsSafely (.app operator operands) := by
  intro pool code scope start g sh hcode hpool hknown h
  rw [genCode] at hcode hpool h
  let as := genAll scope start operands g
  have hext : g.Extends as.2 := genAll_extends_all operands scope start g
  have hfext := genCode_extends operator scope (start + as.1.length) as.2
  obtain ⟨hcode, hcall⟩ := CodeAt.append.1 hcode
  obtain ⟨hoperands, hoperator⟩ := CodeAt.append.1 hcode
  refine genAll_safe has hoperands (hfext.constants.trans hpool) hknown fun sh₁ hstack₁ hslots₁ => ?_
  refine hf pool code scope _ _ sh₁ hoperator hpool (hknown.later hext hslots₁) fun sh₂ hstack₂ hslots₂ => ?_
  rw [CodeAt.singleton, List.length_append, ← Nat.add_assoc] at hcall
  have hstack : sh₂.stack = .value :: (List.replicate operands.length .value ++ sh.stack) := by rw [hstack₂, hstack₁]
  refine .call hcall hstack ?_
  simp only [List.length_append, List.length_singleton, ← Nat.add_assoc] at h
  refine h _ rfl fun s hs => ?_
  exact (hslots₂ s (Nat.lt_of_lt_of_le hs hext.nextSlot_le)).trans (hslots₁ s hs)

theorem branch_safe {test consequent alternative : Core} (ht : RunsSafely test) (hc : RunsSafely consequent)
    (ha : RunsSafely alternative) : RunsSafely (.branch test consequent (some alternative)) := by
  intro pool code scope start g sh hcode hpool hknown h
  rw [genCode_branch] at hcode hpool h
  let t := genCode scope start test g
  let c := genCode scope (start + t.1.length + 1) consequent t.2
  let a := genCode scope (start + t.1.length + 1 + c.1.length + 1) alternative c.2
  have hext₁ : g.Extends t.2 := genCode_extends _ _ _ _
  have hext₂ : t.2.Extends c.2 := genCode_extends _ _ _ _
  have hext₃ : c.2.Extends a.2 := genCode_extends _ _ _ _
  simp only [branchCode, CodeAt.append, CodeAt.singleton, List.length_append, List.length_singleton, ← Nat.add_assoc]
    at hcode
  obtain ⟨⟨⟨⟨hcode₁, htest⟩, hcode₂⟩, hjump⟩, hcode₃⟩ := hcode
  simp only [length_branchCode] at h
  have hpool₂ : c.2.constants <+: pool := hext₃.constants.trans hpool
  refine ht pool code scope start g sh hcode₁ (hext₂.constants.trans hpool₂) hknown fun sh₁ hstack₁ hslots₁ => ?_
  have hknown₁ : Known scope t.2 { sh₁ with stack := sh.stack } := hknown.later hext₁ hslots₁
  refine .jumpIfFalse htest hstack₁ ?_ ?_
  · refine hc pool code scope _ _ _ hcode₂ hpool₂ hknown₁ fun sh₂ hstack₂ hslots₂ => ?_
    refine .jump hjump (h sh₂ hstack₂ fun s hs => ?_)
    exact (hslots₂ s (Nat.lt_of_lt_of_le hs hext₁.nextSlot_le)).trans (hslots₁ s hs)
  · have hknown₂ := hknown₁.later hext₂ fun _ _ => rfl
    refine ha pool code scope _ _ _ hcode₃ hpool hknown₂ fun sh₂ hstack₂ hslots₂ => ?_
    refine h sh₂ hstack₂ fun s hs => ?_
    exact (hslots₂ s (Nat.lt_of_lt_of_le hs (hext₁.trans hext₂).nextSlot_le)).trans (hslots₁ s hs)

/-- a value is bound, in a cell or as it is -/
theorem bindCode_safe {boxed : Bool} {slot : Nat} {stack : List Kind}
    (hbox : CodeAt code start (if boxed then [.makeCell] else []))
    (hbind : code[start + (if boxed then [Instr.makeCell] else []).length]? = some (.bind slot))
    (hstack : sh.stack = .value :: stack)
    (h : Safe pool code (start + (if boxed then [Instr.makeCell] else []).length + 1)
      (sh.fill slot (if boxed then .cell else .value) stack)) : Safe pool code start sh := by
  cases boxed with
  | true => exact .makeCell (CodeAt.singleton.1 hbox) hstack (.bind hbind rfl h)
  | false => exact .bind hbind hstack h

theorem letIn_safe {value body : Core} (hv : RunsSafely value) (hb : RunsSafely body) (name : String) :
    RunsSafely (.letIn name value body) := by
  intro pool code scope start g sh hcode hpool hknown h
  rw [genCode_letIn] at hcode hpool h
  obtain ⟨hfront, hbody⟩ := CodeAt.append.1 hcode
  obtain ⟨hvalue, hbind⟩ := CodeAt.append.1 hfront
  obtain ⟨hvalue, hbox⟩ := CodeAt.append.1 hvalue
  rw [CodeAt.singleton, List.length_append, ← Nat.add_assoc] at hbind
  have hnew := Gen.Extends.allocate g name
  have hext := letGen_extends scope start name value body g (genCode_extends _ _ _ _)
  have hpool₁ : (genCode scope start value (g.allocate name)).2.constants <+: pool := by
    rw [← letGen_constants scope start name value body g]
    exact (genCode_extends body _ _ _).constants.trans hpool
  refine hv pool code scope start _ sh hvalue hpool₁ (hknown.later hnew fun _ _ => rfl) fun sh₁ hstack₁ hslots₁ => ?_
  have hslots : ∀ s < g.nextSlot, sh₁.slots s = sh.slots s :=
    fun s hs => hslots₁ s (Nat.lt_of_lt_of_le hs hnew.nextSlot_le)
  refine bindCode_safe hbox hbind hstack₁ ?_
  have hsafe := hb pool code _ _ _ _ hbody hpool (hknown.letBody hslots start name value body sh.stack) ?_
  · simpa only [letFront, List.length_append, List.length_singleton, ← Nat.add_assoc] using hsafe
  · intro sh₂ hstack₂ hslots₂
    have hlast := h sh₂ hstack₂ ?_
    · rwa [List.length_append, ← Nat.add_assoc] at hlast
    · intro s hs
      rw [hslots₂ s (Nat.lt_of_lt_of_le hs hext.nextSlot_le), ← hslots s hs]
      exact Function.update_of_ne (Nat.ne_of_lt hs) _ _

theorem assign_safe {value : Core} (hv : RunsSafely value) (name : String) : RunsSafely (.assign name value) := by
  intro pool code scope start g sh hcode hpool hknown h
  rw [genCode] at hcode hpool h
  rw [storeCode_constants] at hpool
  obtain ⟨hvalue, hstore⟩ := CodeAt.append.1 hcode
  refine hv pool code scope start g sh hvalue hpool hknown fun sh₁ hstack₁ hslots₁ => ?_
  refine storeCode_safe hstore (hknown.later (genCode_extends _ _ _ _) hslots₁) hstack₁ ?_
  have hlast := h sh₁ hstack₁ hslots₁
  rwa [List.length_append, storeCode_length, ← Nat.add_assoc] at hlast

/-! ## Closures and procedures -/

def captureKinds (scope : Scope) (g : Gen) (names : List String) : List Kind :=
  names.map fun x => g.kind ((scope.slot? x).getD 0)

/-- what is captured is pushed, cells included -/
theorem captureCode_safe (names : List String) (hcode : CodeAt code start (captureCode scope names))
    (hnames : ∀ x ∈ names, ∃ s, scope.slot? x = some s ∧ sh.slots s = some (g.kind s))
    (hpushed : ∀ k < names.length, PushedForClosure code (start + k))
    (h : Safe pool code (start + names.length) ⟨sh.slots, (captureKinds scope g names).reverse ++ sh.stack⟩) :
    Safe pool code start sh := by
  induction names generalizing start sh with
  | nil => exact h
  | cons x names ih =>
    obtain ⟨s, hs, hslot⟩ := hnames x List.mem_cons_self
    obtain ⟨hload, hcode⟩ := CodeAt.cons.1 hcode
    simp only [hs, Option.getD_some] at hload
    refine .load hload hslot (fun _ => hpushed 0 (Nat.succ_pos _)) ?_
    refine ih hcode (fun y hy => hnames y (List.mem_cons_of_mem x hy)) (fun k hk => ?_) ?_
    · rw [Nat.add_assoc, Nat.add_comm 1 k]
      exact hpushed (k + 1) (Nat.succ_lt_succ hk)
    · simpa [captureKinds, hs, Shape.push, Nat.add_assoc, Nat.add_comm 1] using h

/-- a closure is given a cell exactly where its procedure uses one -/
theorem LambdaSite.captureKinds_eq_cell (l : LambdaSite) (hpool : l.bodyCode.2.constants <+: pool) (k : Nat) :
    (captureKinds l.scope l.gen l.captured)[k]? = some .cell ↔
      k < l.captured.length ∧ UsesCell pool l.procedure.code k := by
  rw [captureKinds, List.getElem?_map, Option.map_eq_some_iff]
  constructor
  · rintro ⟨x, hx, hkind⟩
    have hk := (List.getElem?_eq_some_iff.1 hx).1
    obtain ⟨s, hs⟩ := Option.isSome_iff_exists.1 (l.mem_captured.1 (List.mem_of_getElem? hx)).2
    rw [hs, Option.getD_some, Gen.kind_eq_cell] at hkind
    rw [l.usesCell_iff (genCode_usesCell _) hpool hk, l.mem_inner_cells hx]
    exact ⟨hk, s, hs, hkind⟩
  · rintro ⟨hk, huses⟩
    have hx := List.getElem?_eq_getElem hk
    rw [l.usesCell_iff (genCode_usesCell _) hpool hk, l.mem_inner_cells hx] at huses
    obtain ⟨s, hs, hmem⟩ := huses
    refine ⟨_, hx, ?_⟩
    rw [hs, Option.getD_some, Gen.kind_eq_cell]
    exact hmem

theorem lambda_safe (params : List String) (rest : Option String) (body : Core) :
    RunsSafely (.lambda params rest body) := by
  intro pool code scope start g sh hcode hpool hknown h
  rw [genCode_lambda] at hcode hpool h
  let l : LambdaSite := ⟨scope, params, rest, body, g⟩
  have hbody : l.bodyCode.2.constants <+: pool := (List.prefix_append _ _).trans hpool
  have hcode' : CodeAt code start (closureCode scope l.captured l.outer.nextIndex) := hcode
  have hlength : (captureKinds scope g l.captured).length = l.captured.length := List.length_map _
  have hslot : ∀ x ∈ l.captured, ∃ s, scope.slot? x = some s ∧ sh.slots s = some (g.kind s) := by
    intro x hx
    obtain ⟨s, hs⟩ := Option.isSome_iff_exists.1 (l.mem_captured.1 hx).2
    exact ⟨s, hs, hknown.slots x s hs⟩
  have hclosure : code[start + l.captured.length]? = some (.closure l.outer.nextIndex l.captured.length) :=
    hcode' _ _ (getElem?_closureCode.2 (Or.inr ⟨rfl, rfl⟩))
  have hpushed : ∀ k < l.captured.length, PushedForClosure code (start + k) := by
    intro k hk
    refine ⟨start, l.captured.length, l.outer.nextIndex, hclosure, Nat.le_add_right _ _, by omega, fun k' hk' => ?_⟩
    exact ⟨_, hcode' _ _ (getElem?_closureCode.2 (Or.inl ⟨_, List.getElem?_eq_getElem hk', rfl⟩))⟩
  refine captureCode_safe l.captured (CodeAt.append.1 hcode).1 hslot hpushed ?_
  rw [← hlength] at hclosure ⊢
  refine .closure hclosure (LambdaSite.pool_procedure hpool) hlength.symm rfl (fun k => ?_) ?_
  · rw [hlength]
    exact l.captureKinds_eq_cell hbody k
  · have hlast := h ⟨sh.slots, .value :: sh.stack⟩ rfl fun _ _ => rfl
    rwa [List.length_append, captureCode_length, List.length_singleton, ← Nat.add_assoc, ← hlength] at hlast

/-- **The code of an expression can be run,** if what stands behind it can -/
theorem genCode_safe (e : Core) : RunsSafely e := by
  have hval : ∀ v, RunsSafely (.val v) := by
    intro v pool code scope start g sh hcode hpool hknown h
    rw [genCode] at hcode h
    exact .constant (CodeAt.singleton.1 hcode) (h _ rfl fun _ _ => rfl)
  induction e with
  | var name =>
    intro pool code scope start g sh hcode hpool hknown h
    rw [genCode] at hcode h
    rw [loadCode_length] at h
    exact loadCode_safe hcode hknown (h _ rfl fun _ _ => rfl)
  | val v => exact hval v
  | quote v =>
    intro pool code scope start g sh hcode hpool hknown h
    rw [genCode] at hcode h
    exact .constant (CodeAt.singleton.1 hcode) (h _ rfl fun _ _ => rfl)
  | letIn name value body ihv ihb => exact letIn_safe ihv ihb name
  | lambda params rest body _ => exact lambda_safe params rest body
  | app operator operands ihf ihas => exact app_safe ihf ihas
  | branch test consequent alternative iht ihc iha =>
    cases alternative with
    | none =>
      intro pool code scope start g sh
      rw [genCode_branch_none]
      exact branch_safe iht ihc (hval _) pool code scope start g sh
    | some alternative => exact branch_safe iht ihc (iha _ rfl)
  | assign name value ih => exact assign_safe ih name

/-- arguments are put into cells, each once -/
theorem prologue_safe (slots : List Nat) (hcode : CodeAt code start (slots.flatMap cellArgument))
    (hdistinct : slots.Nodup) (hvalues : ∀ s ∈ slots, sh.slots s = some .value)
    (h : Safe pool code (start + (slots.flatMap cellArgument).length)
      ⟨fun s => if s ∈ slots then some .cell else sh.slots s, sh.stack⟩) : Safe pool code start sh := by
  induction slots generalizing start sh with
  | nil => simpa using h
  | cons slot slots ih =>
    obtain ⟨hslot, hslots⟩ := List.nodup_cons.1 hdistinct
    rw [List.flatMap_cons] at hcode
    obtain ⟨hone, hrest⟩ := CodeAt.append.1 hcode
    simp only [cellArgument, CodeAt.cons] at hone
    obtain ⟨hload, hmake, hbind, -⟩ := hone
    refine .load hload (hvalues slot List.mem_cons_self) (by simp) (.makeCell hmake rfl (.bind hbind rfl ?_))
    refine ih hrest hslots (fun s hs => ?_) ?_
    · have hne : s ≠ slot := fun heq => hslot (heq ▸ hs)
      rw [← hvalues s (List.mem_cons_of_mem slot hs)]
      exact Function.update_of_ne hne _ _
    · have hshape : (fun s => if s ∈ slots then some Kind.cell else Function.update sh.slots slot (some .cell) s) =
          fun s => if s ∈ slot :: slots then some .cell else sh.slots s := by
        funext s
        by_cases hs : s = slot
        · simp [hs]
        · simp [hs]
      rw [List.flatMap_cons, List.length_append, ← Nat.add_assoc, ← hshape] at h
      exact h

theorem paramCells_nodup (offset : Nat) (names : List String) (body : Core) : (paramCells offset names body).Nodup := by
  induction names generalizing offset with
  | nil => exact List.nodup_nil
  | cons name names ih =>
    rw [paramCells_cons]
    split
    · refine List.nodup_cons.2 ⟨fun hmem => ?_, ih (offset + 1)⟩
      have := (le_of_mem_paramCells hmem).1
      omega
    · exact ih (offset + 1)

theorem frameScope_below {names : List String} {x : String} {s : Nat} (hs : (frameScope names).slot? x = some s) :
    s < names.length := by
  rcases lookup_zipIdx names x with ⟨-, hnone⟩ | ⟨i, hi, hsome⟩
  · cases (hnone 0).symm.trans hs
  · cases (hsome 0).symm.trans hs
    rw [Nat.zero_add]
    exact (List.getElem?_eq_some_iff.1 hi).1

namespace LambdaSite

variable (l : LambdaSite)

theorem slotsGiven_eq : l.procedure.slotsGiven = l.names.length := by
  obtain ⟨scope, params, rest, body, g⟩ := l
  cases rest with
  | none => simp [Procedure.slotsGiven, procedure, names, binders, Core.binders]
  | some rest => simp [Procedure.slotsGiven, procedure, names, binders, Core.binders, Nat.add_assoc]

theorem lt_of_mem_inner_cells {s : Nat} (hs : s ∈ l.inner.cells) : s < l.names.length := by
  rw [names, List.length_append]
  rcases List.mem_append.1 hs with hs | hs
  · exact (le_of_mem_paramCells hs).2
  · obtain ⟨x, -, hx, -⟩ := mem_capturedCells.1 hs
    have := (List.getElem?_eq_some_iff.1 hx).1
    omega

/-- the frame of a procedure once its parameters are in their cells -/
theorem entry_slots (hpool : l.bodyCode.2.constants <+: pool) {s : Nat} (hs : s < l.names.length) :
    (if s ∈ l.boxed then some Kind.cell else (l.procedure.entry pool).slots s) = some (l.inner.kind s) := by
  by_cases hboxed : s ∈ l.boxed
  · have hcell : l.inner.kind s = .cell := Gen.kind_eq_cell.2 (List.mem_append_left _ hboxed)
    rw [if_pos hboxed, hcell]
  · rw [if_neg hboxed, Gen.kind]
    by_cases hk : s < l.captured.length
    · have huses := l.usesCell_iff (genCode_usesCell _) hpool hk
      split
      · next hcell => exact Procedure.entry_cell hk (huses.2 hcell)
      · next hcell => exact Procedure.entry_value hk fun h => hcell (huses.1 h)
    · have hcell : s ∉ l.inner.cells := by
        intro hcell
        rcases List.mem_append.1 hcell with hcell | hcell
        · exact hboxed hcell
        · obtain ⟨x, -, hx, -⟩ := mem_capturedCells.1 hcell
          exact hk (List.getElem?_eq_some_iff.1 hx).1
      rw [if_neg hcell]
      exact Procedure.entry_given (Nat.not_lt.1 hk) (l.slotsGiven_eq ▸ hs)

/-- **The code of a procedure can be run** in the frame that its closures start with -/
theorem safe (hpool : l.bodyCode.2.constants <+: pool) : Safe pool l.procedure.code 0 (l.procedure.entry pool) := by
  obtain ⟨hfront, hret⟩ := CodeAt.append.1 (CodeAt.self l.procedure.code)
  obtain ⟨hprologue, hbody⟩ := CodeAt.append.1 hfront
  rw [CodeAt.singleton, List.length_append, ← Nat.add_assoc] at hret
  rw [Nat.zero_add] at hbody
  refine prologue_safe l.boxed hprologue (paramCells_nodup _ _ _) (fun s hs => ?_) ?_
  · obtain ⟨hle, hlt⟩ := le_of_mem_paramCells hs
    refine Procedure.entry_given hle ?_
    rwa [slotsGiven_eq, names, List.length_append]
  · rw [Nat.zero_add]
    have hknown : Known (frameScope l.names) l.inner
        ⟨fun s => if s ∈ l.boxed then some .cell else (l.procedure.entry pool).slots s, []⟩ :=
      ⟨fun s => l.lt_of_mem_inner_cells, fun x s => frameScope_below,
        fun x s hs => l.entry_slots hpool (frameScope_below hs)⟩
    refine genCode_safe l.body pool _ _ _ _ _ hbody hpool hknown fun sh hstack hslots => ?_
    rw [Nat.zero_add] at hret
    exact .ret hret (by simp [hstack])

end LambdaSite

/-! ## Programs -/

/-- code that can be run from a shape is disciplined -/
theorem Safe.disciplined {given : Nat} (h : Safe pool code 0 sh) (hgiven : ∀ s, sh.slots s ≠ none → s < given) :
    CellDisciplined pool code given sh := by
  intro path i instr hpath hi
  obtain ⟨sh', hafter, hproper⟩ := h path i hpath
  refine ⟨sh', hafter, hproper instr hi, fun s hs => ?_⟩
  exact (filled_of_after hafter ((hproper instr hi).slots s hs)).imp_left (hgiven s)

end Generated

theorem programCode_safe (exprs : List Core) (table : SymbolTable) :
    Safe (Program.ofCore exprs table).constants (Program.ofCore exprs table).code 0 .empty := by
  obtain ⟨hcode, hret⟩ := CodeAt.append.1 (CodeAt.self (Program.ofCore exprs table).code)
  have hknown : Known [] (.ofTable table) .empty := ⟨nofun, nofun, nofun⟩
  refine genAll_safe (fun e _ => genCode_safe e) hcode List.prefix_rfl hknown fun sh hstack _ => ?_
  refine .ret (CodeAt.singleton.1 hret) fun kind hkind => ?_
  rw [hstack] at hkind
  have hmem := List.mem_of_mem_take hkind
  rw [Shape.empty, List.append_nil] at hmem
  exact List.eq_of_mem_replicate hmem

theorem programPool_safe (exprs : List Core) (table : SymbolTable) (p : Procedure)
    (hp : Constant.procedure p ∈ (Program.ofCore exprs table).constants) :
    Safe (Program.ofCore exprs table).constants p.code 0 (p.entry (Program.ofCore exprs table).constants) := by
  obtain ⟨l, rfl, hpool⟩ := programPool_sites exprs table p hp
  exact l.safe hpool

/-- **Generated code keeps the discipline of slots and cells.** The code of a program does so from an empty frame, and
the code of every procedure in its pool from the frame that a closure of it starts with. -/
theorem program_cellDisciplined (exprs : List Core) (table : SymbolTable) :
    let pool := (Program.ofCore exprs table).constants
    CellDisciplined pool (Program.ofCore exprs table).code 0 .empty ∧
      ∀ p, Constant.procedure p ∈ pool → CellDisciplined pool p.code p.slotsGiven (p.entry pool) := by
  refine ⟨(programCode_safe exprs table).disciplined nofun, fun p hp => ?_⟩
  refine (programPool_safe exprs table p hp).disciplined fun s hs => ?_
  by_contra hle
  exact hs (Procedure.entry_empty (Nat.not_lt.1 hle))

/-- a procedure that hands the cell of a variable on to another, which counts with it -/
theorem counter_cellDisciplined :
    let count := Core.lambda [] none (.assign "n" (.app (.var "step") [.var "n"]))
    let p := Program.ofCore [.letIn "n" (.val (.integer 0)) (.lambda ["step"] none count)] .empty
    let code : List Instr := [.load 0, .load 1, .closure 1 2, .ret]
    Constant.procedure ⟨code, 1, false, ["n"], 2⟩ ∈ p.constants ∧
      UsesCell p.constants code 0 ∧
      CellDisciplined p.constants code 2 (Procedure.entry p.constants ⟨code, 1, false, ["n"], 2⟩) := by
  intro count p code
  have hmem : Constant.procedure ⟨code, 1, false, ["n"], 2⟩ ∈ p.constants := by decide +kernel
  have hcount : p.constants[1]? =
      some (.procedure ⟨[.loadCell 0, .load 1, .call 1, .storeCell 0, .ret], 0, false, ["n", "step"], 2⟩) := by
    decide +kernel
  have hclosure : code[0 + 2]? = some (.closure 1 2) := rfl
  have hload : code[0 + 0]? = some (.load 0) := rfl
  refine ⟨hmem, .handOn hclosure hcount (by decide) hload (.load List.mem_cons_self), ?_⟩
  exact (program_cellDisciplined [.letIn "n" (.val (.integer 0)) (.lambda ["step"] none count)] .empty).2 _ hmem

end SchemeStack
