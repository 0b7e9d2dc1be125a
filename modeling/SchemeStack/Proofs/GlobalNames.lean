/-
Exactly the free variables become globals, and a procedure captures exactly those of its free variables that are bound
around it.

A variable that is in scope is found in its slot, and a procedure starts with the scope of what it captured. So a
variable that is used several procedures deep has been handed through all of them, and is looked up by its name only
if nothing around binds it. `program_globals` says so of a program: the names that occur in its code, that of all
procedures included, are the free names of its expressions, all of them are in its table, and each procedure of the
source has captured, in increasing order, those of its free names that are bound where it stands.

For emitted code the names are those that are free in the expressions and not in the scope (`Emits.mem_globalsIn`),
and they are what is added to the table (`Emits.mem_table`).
-/
import SchemeStack.Proofs.Emission
import SchemeStack.Proofs.NameSupply

namespace SchemeStack

/-- the name of the global variable that an instruction reads or assigns -/
def Instr.global? : Instr → Option String
  | loadGlobal name => some name
  | storeGlobal name => some name
  | _ => none

/-- the names of the global variables that occur in some code and in the procedures among constants -/
def globalsIn (code : List Instr) (constants : List Constant) : List String :=
  (wholeCode code constants).filterMap Instr.global?

def Program.globals (p : Program) : List String := globalsIn p.code p.constants

/-- the procedure was made from one of the source, and has captured what is free in that and bound around it -/
structure CapturesBound (l : EnclosedLambda) (q : Procedure) : Prop where
  compiled : l.CompilesTo q
  increasing : q.captured.Pairwise (· < ·)
  mem_captured : ∀ x, x ∈ q.captured ↔ x ∈ l.expr.freeNames ∧ x ∈ l.bound

theorem Instr.global?_of_isPlain (i : Instr) (h : i.isPlain = true) : i.global? = none := by
  cases i with
  | loadGlobal name => cases h
  | storeGlobal name => cases h
  | _ => rfl

/-! ## Names in code -/

section GlobalsIn

variable {c c' code : List Instr} {n n' : List Constant} {i : Instr} {x : String}

theorem mem_globalsIn_parts
    (h : code.filterMap Instr.global? = c.filterMap Instr.global? ++ c'.filterMap Instr.global?) :
    x ∈ globalsIn code (n ++ n') ↔ x ∈ globalsIn c n ∨ x ∈ globalsIn c' n' := by
  rw [globalsIn, (filterMap_wholeCode_append h n n').mem_iff, List.mem_append]
  rfl

theorem mem_globalsIn_append : x ∈ globalsIn (c ++ c') (n ++ n') ↔ x ∈ globalsIn c n ∨ x ∈ globalsIn c' n' :=
  mem_globalsIn_parts List.filterMap_append

theorem mem_globalsIn_let {box : List Instr} (hbox : ∀ i ∈ box, i = .makeCell) {slot : Nat} :
    x ∈ globalsIn (c ++ box ++ [.bind slot] ++ c') (n ++ n') ↔ x ∈ globalsIn c n ∨ x ∈ globalsIn c' n' :=
  mem_globalsIn_parts (filterMap_letCode Instr.global?_of_isPlain hbox slot)

theorem mem_globalsIn_call {arity : Nat} :
    x ∈ globalsIn (c ++ c' ++ [.call arity]) (n ++ n') ↔ x ∈ globalsIn c n ∨ x ∈ globalsIn c' n' :=
  mem_globalsIn_parts ((filterMap_behind Instr.global?_of_isPlain rfl _).trans List.filterMap_append)

theorem mem_globalsIn_branch {start : Nat} {c'' : List Instr} {n'' : List Constant} :
    x ∈ globalsIn (branchCode start c c' c'') (n ++ n' ++ n'') ↔
      x ∈ globalsIn c n ∨ x ∈ globalsIn c' n' ∨ x ∈ globalsIn c'' n'' := by
  rw [mem_globalsIn_parts (filterMap_branchCode Instr.global?_of_isPlain start), mem_globalsIn_append, or_assoc]

theorem mem_globalsIn_behind : x ∈ globalsIn (c ++ [i]) n ↔ x ∈ globalsIn c n ∨ i.global? = some x := by
  have hparts : x ∈ globalsIn (c ++ [i]) (n ++ []) ↔ x ∈ globalsIn c n ∨ x ∈ globalsIn [i] [] := mem_globalsIn_append
  have hlast : x ∈ globalsIn [i] [] ↔ i.global? = some x := by simp [globalsIn, wholeCode]
  rw [List.append_nil, hlast] at hparts
  exact hparts

theorem LambdaSite.mem_globalsIn (l : LambdaSite) (index : Nat) :
    x ∈ globalsIn (closureCode l.scope l.captured index) (n ++ [.procedure l.procedure]) ↔
      x ∈ globalsIn l.bodyCode.1 n := by
  rw [globalsIn, (l.filterMap_closure Instr.global?_of_isPlain index n).mem_iff]
  exact iff_of_eq (congrArg (x ∈ ·) (List.append_nil _))

end GlobalsIn

section Emitted

variable {scope : Scope} {es : List Core} {g g' : Gen} {code : List Instr} {added : List Constant} {x : String}

/-- a name that is free in the body of a procedure and not in its frame is free in the procedure and not in scope
there -/
theorem LambdaSite.free_slot?_body (l : LambdaSite) :
    x ∈ l.body.freeNames ∧ (frameScope l.names).slot? x = none ↔ x ∈ l.expr.freeNames ∧ l.scope.slot? x = none := by
  have hfree : x ∈ l.expr.freeNames ↔ x ∈ l.body.freeNames ∧ x ∉ l.binders := Core.mem_freeNames_lambda
  have hnames : (frameScope l.names).slot? x = none ↔ x ∉ l.captured ∧ x ∉ l.binders := by
    rw [← Option.not_isSome_iff_eq_none, frameScope_isSome, names, List.mem_append, not_or]
  rw [hnames, l.mem_captured, ← Option.not_isSome_iff_eq_none, hfree]
  tauto

theorem free_slot?_letBody {name : String} {body : Core} {slot : Nat} :
    x ∈ body.freeNames ∧ Scope.slot? ((name, slot) :: scope) x = none ↔
      (x ∈ body.freeNames ∧ x ≠ name) ∧ scope.slot? x = none := by
  rw [Scope.slot?_cons]
  split
  · next heq => simp [heq]
  · next hne => simp [hne]

/-- **The names in emitted code** are those that are free and not in scope -/
theorem Emits.mem_globalsIn (h : Emits scope es g code added g') :
    x ∈ globalsIn code added ↔ (∃ e ∈ es, x ∈ e.freeNames) ∧ scope.slot? x = none := by
  induction h with
  | nil => simp [globalsIn, wholeCode]
  | cons _ _ ih ih' =>
    rw [mem_globalsIn_append, ih, ih', ← or_and_right, List.exists_mem_cons_iff]
    simp
  | @readGlobal scope name g hnone =>
    have hname : x = name → scope.slot? x = none := fun heq => heq ▸ hnone
    simp only [globalsIn, wholeCode, List.mem_singleton, exists_eq_left, Core.freeNames]
    simpa [Instr.global?, eq_comm] using hname
  | @readSlot scope name slot i g hslot hi =>
    have hnone := i.global?_of_isPlain (Instr.isPlain_of_read hi)
    have hname : x = name → scope.slot? x ≠ none := fun heq => heq ▸ hslot ▸ Option.some_ne_none slot
    simp only [globalsIn, wholeCode, List.mem_singleton, exists_eq_left, Core.freeNames]
    simpa [hnone] using hname
  | value => simp [globalsIn, wholeCode, Instr.global?, Core.freeNames, Constant.code]
  | quoted => simp [globalsIn, wholeCode, Instr.global?, Core.freeNames, Constant.code]
  | letIn hbox _ _ ih ih' =>
    rw [mem_globalsIn_let hbox, ih, ih']
    simp only [List.mem_singleton, exists_eq_left, Core.mem_freeNames_letIn, free_slot?_letBody, or_and_right]
  | @lambda l n _ ih =>
    rw [l.mem_globalsIn, ih]
    simp only [List.mem_singleton, exists_eq_left, l.free_slot?_body]
  | app _ _ ih ih' =>
    rw [mem_globalsIn_call, ih, ih', ← or_and_right]
    simp only [List.mem_singleton, exists_eq_left, Core.mem_freeNames_app, List.exists_mem_cons_iff, or_comm]
  | branch _ _ _ ih ih' ih'' =>
    rw [mem_globalsIn_branch, ih, ih', ih'', ← or_and_right, ← or_and_right]
    simp [Core.mem_freeNames_branch]
  | oneArmed _ ih =>
    rw [ih]
    simp [Core.freeNames, Core.falsity]
  | @writeGlobal scope name value g g' c n hnone _ ih =>
    have hname : x = name → scope.slot? x = none := fun heq => heq ▸ hnone
    have hlast : (Instr.storeGlobal name).global? = some x ↔ x = name := by simp [Instr.global?, eq_comm]
    rw [mem_globalsIn_behind, ih, hlast]
    simp only [List.mem_singleton, exists_eq_left, Core.mem_freeNames_assign]
    rw [or_and_right, and_iff_left_of_imp hname, or_comm]
  | @writeSlot scope name value slot i g g' c n hslot hi _ ih =>
    have hnone : ¬ i.global? = some x := by simp [i.global?_of_isPlain (Instr.isPlain_of_write hi)]
    have hname : ¬ (x = name ∧ scope.slot? x = none) := by
      intro h
      rw [h.1, hslot] at h
      cases h.2
    rw [mem_globalsIn_behind, ih, or_iff_left hnone]
    simp only [List.mem_singleton, exists_eq_left, Core.mem_freeNames_assign]
    rw [or_and_right, or_iff_right hname]

/-- **The names in emitted code are interned,** and nothing else is -/
theorem Emits.mem_table (h : Emits scope es g code added g') :
    x ∈ g'.table.names ↔ x ∈ g.table.names ∨ x ∈ globalsIn code added := by
  induction h with
  | nil => simp [globalsIn, wholeCode]
  | cons _ _ ih ih' => rw [mem_globalsIn_append, ih', ih, or_assoc]
  | readGlobal _ =>
    rw [Gen.addGlobal, SymbolTable.mem_intern]
    simp [globalsIn, wholeCode, Instr.global?]
  | @readSlot scope name slot i g _ hi =>
    simp [globalsIn, wholeCode, i.global?_of_isPlain (Instr.isPlain_of_read hi)]
  | value => simp [globalsIn, wholeCode, Instr.global?, Constant.code, Gen.addConstant]
  | quoted => simp [globalsIn, wholeCode, Instr.global?, Constant.code, Gen.addConstant]
  | letIn hbox _ _ ih ih' =>
    rw [mem_globalsIn_let hbox, ih', ← or_assoc]
    exact or_congr_left ih
  | @lambda l n _ ih =>
    rw [l.mem_globalsIn]
    exact ih
  | app _ _ ih ih' =>
    rw [mem_globalsIn_call, ih', ih, or_assoc]
  | branch _ _ _ ih ih' ih'' =>
    rw [mem_globalsIn_branch, ih'', ih', ih, or_assoc, or_assoc]
  | oneArmed _ ih => exact ih
  | writeGlobal _ _ ih =>
    rw [Gen.addGlobal, SymbolTable.mem_intern, ih, mem_globalsIn_behind, or_assoc]
    simp [Instr.global?, eq_comm]
  | @writeSlot scope name value slot i g g' c n _ hi _ ih =>
    rw [ih, mem_globalsIn_behind]
    simp [i.global?_of_isPlain (Instr.isPlain_of_write hi)]

end Emitted

/-! ## Programs -/

theorem StemsFrom.capturesBound {l : EnclosedLambda} {entry : Nat × Procedure} (h : StemsFrom l entry) :
    CapturesBound l entry.2 := by
  obtain ⟨site, hexpr, rfl, hsees⟩ := h
  refine ⟨⟨site, hexpr, rfl⟩, capturedBy_pairwise _ _, fun x => ?_⟩
  calc x ∈ site.captured
    _ ↔ x ∈ l.expr.freeNames ∧ (site.scope.slot? x).isSome := by rw [site.mem_captured, hexpr]
    _ ↔ x ∈ l.expr.freeNames ∧ x ∈ l.bound := and_congr_right (Scope.sees_single.1 hsees x)

/-- **Exactly the free variables become globals.** The names in the code of a program, its procedures' included, are
the free names of its expressions and are in its table; and the procedures of the pool, in the order of those of the
source, have captured those of their free names that are bound around them there, in increasing order. -/
theorem program_globals (exprs : List Core) (table : SymbolTable) :
    let p := Program.ofCore exprs table
    (∀ x, x ∈ p.globals ↔ ∃ e ∈ exprs, x ∈ e.freeNames) ∧ (∀ x ∈ p.globals, x ∈ p.table.names) ∧
      List.Forall₂ CapturesBound (Core.lambdasAll [] exprs) (p.procedures.map (·.2)) := by
  intro p
  obtain ⟨code, g, hemits, hcode, -, htable⟩ := program_emits exprs table
  have hglobals : ∀ x, x ∈ p.globals ↔ x ∈ globalsIn code p.constants := by
    intro x
    rw [Program.globals, show p.code = code ++ [.ret] from hcode, mem_globalsIn_behind]
    simp [Instr.global?]
  refine ⟨fun x => ?_, fun x hx => ?_, ?_⟩
  · rw [hglobals, hemits.mem_globalsIn]
    simp [Scope.slot?]
  · rw [show p.table = g.table from htable, hemits.mem_table]
    exact Or.inr ((hglobals x).1 hx)
  · rw [List.forall₂_map_right_iff]
    exact (program_stems exprs table).imp fun _ _ => StemsFrom.capturesBound

-- the outer procedure does not use `x` itself: it captures it for the inner one, whose `y` hides a global variable
example :
    let inner := Core.lambda ["y"] none (.app (.var "f") [.var "x", .var "y"])
    let p := Program.ofCore [.letIn "x" (.var "y") (.lambda [] none inner)] .empty
    p.globals = ["y", "f"] ∧ p.procedures.map (·.2.captured) = [["x"], ["x"]] := by
  decide +kernel

end SchemeStack
