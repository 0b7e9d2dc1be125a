/-
The machine never takes a cell for a value.

`program_in_shape`: in every state that a run of a program reaches, the current instruction finds in its frame what it
should: its slots are filled, the instructions for cells have cells, and wherever a value is taken there is one
(`Proper`). The memory that the program starts with may hold closures, if their code can be run as well.

What an instruction makes of a shape is what the machine does to the shape of its frame (`exec_shape`). A step keeps all
frames where the rest of their code can be run, those that wait for a procedure once they have its result
(`step_in_shape`). A procedure starts in the shape that its code is made for, since every closure has captured cells
exactly where its procedure uses them (`SuitsProcedure`).
-/
import SchemeStack.Proofs.CellDiscipline
import SchemeStack.Proofs.StackSafety

namespace SchemeStack

def Item.kind {V : Type} : Item V → Kind
  | value _ => .value
  | cell _ => .cell

def Frame.shape {α : Type} (f : Frame α) : Shape := ⟨fun s => (f.slot? s).map Item.kind, f.stack.map Item.kind⟩

/-! ## What instructions do to the shape of a frame -/

/-- what the machine does to the shapes of its frames when it executes an instruction -/
inductive ShapeEffect {α : Type} (i : Instr) (s t : MachineState α) : Prop
  /-- it goes on at a successor, in the same frame -/
  | goesOn : t.callers = s.callers → t.frame.code = s.frame.code → t.frame.pc ∈ i.successors s.frame.pc →
    i.reshape s.frame.shape = some t.frame.shape → ShapeEffect i s t
  /-- it starts the procedure on top of the stack; the caller will go on with one more value -/
  | enters {caller : Frame α} {p : Procedure} {captured : List (Item (MachineValue α))} {vs : List (MachineValue α)} :
    t.callers = caller :: s.callers → caller.code = s.frame.code → caller.pc ∈ i.successors s.frame.pc →
    i.reshape s.frame.shape = some (caller.shape.push .value) → .value (.closure (.mk p captured)) ∈ s.frame.stack →
    vs.length = p.params + p.rest.toNat →
    t.frame = ⟨p.code, 0, Frame.layOut (captured ++ vs.map .value) p.frameSize, []⟩ → ShapeEffect i s t
  /-- it goes back to the caller, with one more value -/
  | leaves {caller : Frame α} : s.callers = caller :: t.callers → t.frame.code = caller.code → t.frame.pc = caller.pc →
    t.frame.shape = caller.shape.push .value → ShapeEffect i s t

section Effect

variable {α : Type} {builtins : Builtins α} {pool : List Constant} {i : Instr} {s t : MachineState α}

theorem Frame.setSlot_shape {f f' : Frame α} {slot : Nat} {item : Item (MachineValue α)}
    (h : f.setSlot slot item = some f') (stack : List (Item (MachineValue α))) :
    (f'.next stack).shape = f.shape.fill slot item.kind (stack.map Item.kind) := by
  unfold Frame.setSlot at h
  split at h
  · next hlt =>
    cases h
    have hslots : (fun s => (((f.slots.set slot (some item))[s]?).join).map Item.kind) =
        Function.update f.shape.slots slot (some item.kind) := by
      funext s
      by_cases hs : s = slot
      · subst hs
        simp [hlt]
      · rw [List.getElem?_set_ne (Ne.symm hs), Function.update_of_ne hs]
        rfl
    rw [Shape.fill, ← hslots]
    rfl
  · cases h

theorem Frame.shape_slots {f : Frame α} {slot : Nat} {item : Item (MachineValue α)} (h : f.slot? slot = some item) :
    f.shape.slots slot = some item.kind := by
  simp [shape, h]

/-- an instruction that goes on with the one behind it -/
theorem ShapeEffect.next (hfalls : i.fallsThrough = true) {f : Frame α} {stack : List (Item (MachineValue α))}
    {m : MachineMemory α} (hcode : f.code = s.frame.code) (hpc : f.pc = s.frame.pc)
    (hshape : i.reshape s.frame.shape = some (f.next stack).shape) : ShapeEffect i s ⟨f.next stack, s.callers, m⟩ := by
  refine .goesOn rfl hcode ?_ hshape
  change f.pc + 1 ∈ i.successors s.frame.pc
  rw [hpc]
  exact Instr.succ_mem_successors hfalls _

/-- a call takes the callee and the arguments, and leaves its result, now or when the procedure ends -/
theorem ShapeEffect.call {arity : Nat} {callee : MachineValue α} {stack : List (Item (MachineValue α))}
    {args : List (MachineValue α)} (hstack : s.frame.stack = .value callee :: stack) (harity : arity ≤ stack.length)
    (h : s.enter builtins (stack.drop arity) callee args = some t) : ShapeEffect (.call arity) s t := by
  have hshape : (Instr.call arity).reshape s.frame.shape =
      some ⟨s.frame.shape.slots, .value :: (stack.drop arity).map Item.kind⟩ := by
    have hlt : arity < s.frame.shape.stack.length := by
      simp only [Frame.shape, hstack, List.length_map, List.length_cons]
      omega
    rw [Instr.reshape, if_pos hlt]
    simp [Frame.shape, hstack, List.map_drop]
  cases callee with
  | closure c =>
    cases c with
    | mk p captured =>
      obtain ⟨vs, hvs, rfl⟩ := Option.map_eq_some_iff.1 h
      have hcallee : .value (.closure (.mk p captured)) ∈ s.frame.stack := hstack ▸ List.mem_cons_self
      exact .enters rfl rfl (Instr.succ_mem_successors rfl _) hshape hcallee (RunValue.length_arguments? hvs) rfl
  | _ =>
    obtain ⟨d, -, rfl⟩ := Option.map_eq_some_iff.1 h
    exact .next rfl rfl rfl hshape

/-- **Executing an instruction does to the shape of the frame what the instruction does to shapes** -/
theorem exec_shape (hslots : ∀ slot ∈ i.slotsUsed, s.frame.shape.slots slot ≠ none)
    (h : s.exec builtins pool i = some t) : ShapeEffect i s t := by
  cases i with
  | bind slot =>
    simp only [MachineState.exec] at h
    split at h
    · next item stack hstack =>
      obtain ⟨f, hf, rfl⟩ := Option.map_eq_some_iff.1 h
      obtain ⟨hcode, hpc⟩ := Frame.setSlot_eq hf
      refine .next rfl hcode hpc ?_
      rw [Frame.setSlot_shape hf]
      simp [Instr.reshape, Frame.shape, hstack]
    · cases h
  | loadGlobal name =>
    obtain ⟨v, -, rfl⟩ := Option.map_eq_some_iff.1 h
    exact .next rfl rfl rfl rfl
  | load slot =>
    obtain ⟨item, hitem, rfl⟩ := Option.map_eq_some_iff.1 h
    refine .next rfl rfl rfl ?_
    rw [Instr.reshape, Frame.shape_slots hitem]
    rfl
  | constant index =>
    simp only [MachineState.exec] at h
    split at h
    · cases h
      exact .next rfl rfl rfl rfl
    · cases h
  | jumpIfFalse target =>
    cases target with
    | none => cases h
    | some target =>
      simp only [MachineState.exec] at h
      split at h
      · next v stack hstack =>
        cases h
        have hshape : (Instr.jumpIfFalse (some target)).reshape s.frame.shape =
            some ⟨s.frame.shape.slots, stack.map Item.kind⟩ := by simp [Instr.reshape, Frame.shape, hstack]
        cases v.isFalse with
        | true =>
          refine .goesOn rfl rfl ?_ hshape
          simp [MachineState.withFrame, Frame.jump, Instr.successors, Instr.targets]
        | false => exact .goesOn rfl rfl (Instr.succ_mem_successors rfl _) hshape
      · cases h
  | jump target =>
    cases target with
    | none => cases h
    | some target =>
      cases h
      exact .goesOn rfl rfl (by simp [MachineState.withFrame, Frame.jump, Instr.successors, Instr.targets]) rfl
  | call arity =>
    simp only [MachineState.exec] at h
    split at h
    · next callee stack hstack =>
      split at h
      · next harity =>
        obtain ⟨args, -, h⟩ := Option.bind_eq_some_iff.1 h
        exact .call hstack harity h
      · cases h
    · cases h
  | closure index captured =>
    simp only [MachineState.exec] at h
    split at h
    · split at h
      · next hcaptured =>
        cases h
        have hle : captured ≤ s.frame.shape.stack.length := by rwa [Frame.shape, List.length_map]
        refine .next rfl rfl rfl ?_
        rw [Instr.reshape, if_pos hle]
        simp [Frame.shape, Frame.next, Frame.slot?, Item.kind, List.map_drop]
      · cases h
    · cases h
  | store slot =>
    simp only [MachineState.exec] at h
    split at h
    · next item stack hstack =>
      obtain ⟨f, hf, rfl⟩ := Option.map_eq_some_iff.1 h
      obtain ⟨hcode, hpc⟩ := Frame.setSlot_eq hf
      obtain ⟨kind, hkind⟩ := Option.ne_none_iff_exists'.1 (hslots slot List.mem_cons_self)
      refine .next rfl hcode hpc ?_
      have hstack' : s.frame.shape.stack = item.kind :: stack.map Item.kind := by simp [Frame.shape, hstack]
      rw [Frame.setSlot_shape hf, Instr.reshape, hkind, hstack']
      rfl
    · cases h
  | storeGlobal name =>
    simp only [MachineState.exec] at h
    split at h
    · next v stack hstack =>
      cases h
      refine .next rfl rfl rfl ?_
      simp [Instr.reshape, Frame.shape, Frame.next, Frame.slot?, hstack]
    · cases h
  | makeCell =>
    simp only [MachineState.exec] at h
    split at h
    · next v stack hstack =>
      cases h
      refine .next rfl rfl rfl ?_
      simp [Instr.reshape, Frame.shape, Frame.next, Frame.slot?, Item.kind, hstack]
    · cases h
  | loadCell slot =>
    simp only [MachineState.exec] at h
    split at h
    · next address hitem =>
      obtain ⟨v, -, rfl⟩ := Option.map_eq_some_iff.1 h
      refine .next rfl rfl rfl ?_
      rw [Instr.reshape, Frame.shape_slots hitem]
      rfl
    · cases h
  | storeCell slot =>
    simp only [MachineState.exec] at h
    split at h
    · next address v stack hitem hstack =>
      obtain ⟨m, -, rfl⟩ := Option.map_eq_some_iff.1 h
      refine .next rfl rfl rfl ?_
      have hslot := Frame.shape_slots hitem
      have hstack' : s.frame.shape.stack = .value :: stack.map Item.kind := by simp [Frame.shape, hstack, Item.kind]
      rw [Instr.reshape, if_neg (by simp [hslot, hstack'])]
      simp [Frame.shape, Frame.next, Frame.slot?, hstack]
    · cases h
  | ret =>
    simp only [MachineState.exec] at h
    split at h
    · next v stack caller callers _ hcallers =>
      cases h
      exact .leaves hcallers rfl rfl rfl
    · cases h

end Effect

/-! ## Shapes along a run -/

section Run

variable {α : Type} {builtins : Builtins α} {pool : List Constant} {s t : MachineState α}

theorem Safe.proper {code : List Instr} {i : Nat} {instr : Instr} {sh : Shape} (h : Safe pool code i sh)
    (hi : code[i]? = some instr) : Proper pool code i instr sh := by
  obtain ⟨sh', hafter, hproper⟩ := h [] i (.nil i)
  cases hafter
  exact hproper instr hi

theorem Safe.successor {code : List Instr} {i j : Nat} {instr : Instr} {sh sh' : Shape} (h : Safe pool code i sh)
    (hi : code[i]? = some instr) (hshape : instr.reshape sh = some sh') (hj : j ∈ instr.successors i) :
    Safe pool code j sh' := by
  intro path k hpath
  obtain ⟨sh'', hafter, hproper⟩ := h (instr :: path) k (.cons hi hj hpath)
  rw [Shape.after, hshape] at hafter
  exact ⟨sh'', hafter, hproper⟩

/-- the code of the procedure can be run, and these are captured items with cells exactly where it uses cells -/
structure SuitsProcedure (pool : List Constant) (p : Procedure) (captured : List (Item (MachineValue α))) : Prop where
  safe : Safe pool p.code 0 (p.entry pool)
  length : captured.length = p.captured.length
  cells : ∀ k item, captured[k]? = some item → (item.kind = .cell ↔ UsesCell pool p.code k)

/-- all frames can go on, those that wait once they have a result; the closures suit their procedures -/
structure MachineState.InShape (pool : List Constant) (s : MachineState α) : Prop where
  frame : Safe pool s.frame.code s.frame.pc s.frame.shape
  callers : ∀ f ∈ s.callers, Safe pool f.code f.pc (f.shape.push .value)
  runs : s.Runs (SuitsProcedure pool)

/-- the shape of a frame before its first instruction -/
theorem Frame.shape_layOut (code : List Instr) (pc : Nat) (items : List (Item (MachineValue α))) (size : Nat) :
    Frame.shape ⟨code, pc, Frame.layOut items size, []⟩ = ⟨fun slot => items[slot]?.map Item.kind, []⟩ := by
  have hslot : ∀ slot : Nat, (Frame.layOut items size)[slot]?.join = items[slot]? := by
    intro slot
    unfold Frame.layOut
    by_cases hlt : slot < items.length
    · rw [List.getElem?_append_left (by simpa using hlt)]
      simp [hlt]
    · have hnone : items[slot]? = none := List.getElem?_eq_none (by omega)
      rw [List.getElem?_append_right (by simpa using hlt), hnone, List.getElem?_replicate]
      split
      · rfl
      · rfl
  unfold Frame.shape Frame.slot?
  simp only [hslot, List.map_nil]

/-- a procedure starts in the shape that its code is made for -/
theorem SuitsProcedure.entry_shape {p : Procedure} {captured : List (Item (MachineValue α))}
    (h : SuitsProcedure pool p captured) {vs : List (MachineValue α)} (hvs : vs.length = p.params + p.rest.toNat) :
    Frame.shape ⟨p.code, 0, Frame.layOut (captured ++ vs.map .value) p.frameSize, []⟩ = p.entry pool := by
  have hslots : ∀ slot, ((captured ++ vs.map Item.value)[slot]?).map Item.kind = (p.entry pool).slots slot := by
    intro slot
    by_cases hlt : slot < captured.length
    · -- what is captured
      have hitem := List.getElem?_eq_getElem hlt
      have hcells := h.cells slot _ hitem
      rw [List.getElem?_append_left hlt, hitem, Option.map_some]
      rw [h.length] at hlt
      cases hkind : captured[slot].kind with
      | cell => rw [Procedure.entry_cell hlt (hcells.1 hkind)]
      | value => rw [Procedure.entry_value hlt fun huses => by cases hkind.symm.trans (hcells.2 huses)]
    · rw [List.getElem?_append_right (by omega), List.getElem?_map]
      have hlength := h.length
      have hgiven : p.slotsGiven = captured.length + vs.length := by
        rw [Procedure.slotsGiven, h.length, hvs, Nat.add_assoc]
      by_cases hslot : slot < p.slotsGiven
      · -- an argument
        rw [Procedure.entry_given (by omega) hslot, List.getElem?_eq_getElem (by omega)]
        rfl
      · rw [Procedure.entry_empty (by omega), List.getElem?_eq_none (by omega)]
        rfl
  rw [Frame.shape_layOut, funext hslots]
  rfl

/-- a closure that is made suits its procedure -/
theorem Proper.suits {index count : Nat} {p : Procedure}
    (hpool : ∀ p, Constant.procedure p ∈ pool → Safe pool p.code 0 (p.entry pool))
    (h : Proper pool s.frame.code s.frame.pc (.closure index count) s.frame.shape)
    (hp : pool[index]? = some (.procedure p)) : SuitsProcedure pool p (s.frame.stack.take count).reverse := by
  obtain ⟨p', hp', hlength, hle, hcells⟩ := h.closure index count rfl
  cases hp.symm.trans hp'
  rw [Frame.shape, List.length_map] at hle
  have hcount : (s.frame.stack.take count).reverse.length = count := by simp [hle]
  refine ⟨hpool p (List.mem_of_getElem? hp), hcount.trans hlength.symm, fun k item hk => ?_⟩
  have hlt : k < count := hcount ▸ (List.getElem?_eq_some_iff.1 hk).1
  rw [← hcells k hlt, Frame.shape, ← List.map_take, ← List.map_reverse, List.getElem?_map, hk]
  simp

/-- **A step keeps every frame where its code can go on** -/
theorem step_in_shape (hpool : ∀ p, Constant.procedure p ∈ pool → Safe pool p.code 0 (p.entry pool))
    (h : s.InShape pool) (hstep : s.step builtins pool = some t) : t.InShape pool := by
  obtain ⟨i, hi, hexec⟩ := Option.bind_eq_some_iff.1 hstep
  have hproper := h.frame.proper hi
  have hruns : t.Runs (SuitsProcedure pool) := by
    refine exec_runs (fun index count p heq hp _ => ?_) h.runs hexec
    subst heq
    exact hproper.suits hpool hp
  cases exec_shape hproper.slots hexec with
  | goesOn hcallers hcode hpc hshape =>
    refine ⟨?_, hcallers ▸ h.callers, hruns⟩
    rw [hcode]
    exact h.frame.successor hi hshape hpc
  | enters hcallers hcode hpc hshape hcallee hvs hframe =>
    obtain ⟨hsuits, -⟩ := MachineClosure.Runs.captured (h.runs.frame.stack _ hcallee)
    refine ⟨?_, ?_, hruns⟩
    · rw [hframe, hsuits.entry_shape hvs]
      exact hsuits.safe
    · rw [hcallers]
      refine List.forall_mem_cons.2 ⟨?_, h.callers⟩
      rw [hcode]
      exact h.frame.successor hi hshape hpc
  | leaves hcallers hcode hpc hshape =>
    obtain ⟨hcaller, hothers⟩ := List.forall_mem_cons.1 (hcallers ▸ h.callers)
    refine ⟨?_, hothers, hruns⟩
    rw [hcode, hpc, hshape]
    exact hcaller

/-- every state that a run reaches can go on if the first can -/
theorem steps_in_shape (hpool : ∀ p, Constant.procedure p ∈ pool → Safe pool p.code 0 (p.entry pool))
    (h : s.InShape pool) (hsteps : MachineState.Steps builtins pool s t) : t.InShape pool := by
  induction hsteps with
  | refl => exact h
  | tail _ hstep ih => exact step_in_shape hpool ih hstep

/-- **No instruction of a program ever finds a cell for a value, or an empty slot.** Whatever state a run reaches, all
its frames can go on, and the current instruction finds what it should. -/
theorem program_in_shape (exprs : List Core) (table : SymbolTable) {m : MachineMemory α}
    (hm : m.Forall (MachineClosure.Runs (SuitsProcedure (Program.ofCore exprs table).constants)))
    (hsteps : MachineState.Steps builtins (Program.ofCore exprs table).constants
      (MachineState.start (Program.ofCore exprs table) m) s) :
    s.InShape (Program.ofCore exprs table).constants ∧ ∀ i, s.frame.code[s.frame.pc]? = some i →
      Proper (Program.ofCore exprs table).constants s.frame.code s.frame.pc i s.frame.shape := by
  have hshape : (MachineState.start (Program.ofCore exprs table) m).frame.shape = .empty := Frame.shape_layOut _ _ _ _
  have hstart : (MachineState.start (Program.ofCore exprs table) m).InShape (Program.ofCore exprs table).constants := by
    refine ⟨?_, nofun, start_runs _ hm⟩
    rw [hshape]
    exact programCode_safe exprs table
  have hs := steps_in_shape (programPool_safe exprs table) hstart hsteps
  exact ⟨hs, fun i hi => hs.frame.proper hi⟩

end Run

end SchemeStack
