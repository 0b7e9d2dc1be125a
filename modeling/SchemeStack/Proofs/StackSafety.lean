/-
The machine never lacks an operand.

`program_at_height`: in every state that a run of a program reaches, the current frame is at an instruction of its
code, and its stack has the height that the discipline of the code gives to that instruction; so the instruction finds
as many values as it pops. The frames that wait for a procedure to return lack one value, its result. The memory that
the program starts with may hold closures, if their code is disciplined as well.

A step keeps this (`step_at_height`). Which code it enters depends on the closures that the machine holds, in slots,
stacks and memory, and inside other closures (`MachineClosure.Runs`). All of these are made from procedures of the
pool, or were there before, so a property that each closure has when it is made is one of them all (`exec_runs`).
-/
import SchemeStack.Proofs.StackDiscipline

namespace SchemeStack

/-! ## Closures that the machine holds -/

/-- the closures inside a value -/
def RunValue.closures {α κ : Type} : RunValue α κ → List κ
  | atom _ => []
  | foreign _ => []
  | pair a b => a.closures ++ b.closures
  | closure c => [c]

theorem RunValue.forall_iff {α κ : Type} {K : κ → Prop} {v : RunValue α κ} : v.Forall K ↔ ∀ c ∈ v.closures, K c := by
  induction v with
  | atom v => simp [Forall, closures]
  | foreign a => simp [Forall, closures]
  | pair a b iha ihb => simp only [Forall, closures, iha, ihb, List.forall_mem_append]
  | closure c => simp [Forall, closures]

/-- the closure has a property of its procedure and what it has captured, and so have the closures it has captured -/
inductive MachineClosure.Runs {α : Type} (Q : Procedure → List (Item (MachineValue α)) → Prop) : MachineClosure α → Prop
  | mk {p : Procedure} {captured : List (Item (MachineValue α))} : Q p captured →
    (∀ v, .value v ∈ captured → ∀ c ∈ v.closures, Runs Q c) → Runs Q (.mk p captured)

/-- an item whose closures have it -/
def Item.Runs {α : Type} (Q : Procedure → List (Item (MachineValue α)) → Prop) : Item (MachineValue α) → Prop
  | value v => v.Forall (MachineClosure.Runs Q)
  | cell _ => True

/-- a frame whose items do -/
structure Frame.Runs {α : Type} (Q : Procedure → List (Item (MachineValue α)) → Prop) (f : Frame α) : Prop where
  stack : ∀ item ∈ f.stack, item.Runs Q
  slots : ∀ item, some item ∈ f.slots → item.Runs Q

/-- a state whose frames and memory do -/
structure MachineState.Runs {α : Type} (Q : Procedure → List (Item (MachineValue α)) → Prop) (s : MachineState α) :
    Prop where
  frame : s.frame.Runs Q
  callers : ∀ f ∈ s.callers, f.Runs Q
  memory : s.memory.Forall (MachineClosure.Runs Q)

section Runs

variable {α : Type} {builtins : Builtins α} {pool : List Constant} {Q : Procedure → List (Item (MachineValue α)) → Prop}
  {s t : MachineState α}

theorem Frame.Runs.top {f : Frame α} (h : f.Runs Q) {item : Item (MachineValue α)}
    {stack : List (Item (MachineValue α))} (hstack : f.stack = item :: stack) : item.Runs Q ∧ ∀ i ∈ stack, i.Runs Q :=
  ⟨h.stack item (hstack ▸ List.mem_cons_self), fun i hi => h.stack i (hstack ▸ List.mem_cons_of_mem item hi)⟩

theorem Frame.Runs.slot {f : Frame α} (h : f.Runs Q) {slot : Nat} {item : Item (MachineValue α)}
    (hslot : f.slot? slot = some item) : item.Runs Q := by
  unfold Frame.slot? at hslot
  exact h.slots item (List.mem_of_getElem? (Option.join_eq_some_iff.1 hslot))

/-- the frame with another stack, at whatever instruction -/
theorem Frame.Runs.withStack {f : Frame α} (h : f.Runs Q) {stack : List (Item (MachineValue α))}
    (hstack : ∀ item ∈ stack, item.Runs Q) (pc : Nat) : Frame.Runs Q { f with pc, stack } := ⟨hstack, h.slots⟩

theorem Frame.Runs.setSlot {f f' : Frame α} (h : f.Runs Q) {slot : Nat} {item : Item (MachineValue α)}
    (hitem : item.Runs Q) (hset : f.setSlot slot item = some f') : f'.Runs Q := by
  unfold Frame.setSlot at hset
  split at hset
  · cases hset
    refine ⟨h.stack, fun other hother => ?_⟩
    rcases List.mem_or_eq_of_mem_set hother with hother | hother
    · exact h.slots other hother
    · cases hother
      exact hitem
  · cases hset

theorem MachineState.Runs.push (h : s.Runs Q) {stack : List (Item (MachineValue α))} {item : Item (MachineValue α)}
    (hstack : ∀ i ∈ stack, i.Runs Q) (hitem : item.Runs Q) : (s.push stack item).Runs Q :=
  ⟨h.frame.withStack (List.forall_mem_cons.2 ⟨hitem, hstack⟩) _, h.callers, h.memory⟩

theorem mapM_value?_runs {items : List (Item (MachineValue α))} {vs : List (MachineValue α)}
    (hitems : ∀ item ∈ items, item.Runs Q) (h : items.mapM Item.value? = some vs) :
    ∀ v ∈ vs, v.Forall (MachineClosure.Runs Q) := by
  induction items generalizing vs with
  | nil =>
    cases h
    simp
  | cons item items ih =>
    simp only [List.mapM_cons, Option.pure_def, Option.bind_eq_bind, Option.bind_eq_some_iff] at h
    obtain ⟨v, hv, ws, hws, h⟩ := h
    cases h
    cases item with
    | cell address => cases hv
    | value w =>
      cases hv
      exact List.forall_mem_cons.2 ⟨hitems _ List.mem_cons_self,
        ih (fun i hi => hitems i (List.mem_cons_of_mem _ hi)) hws⟩

/-- the items that a closure has captured -/
theorem MachineClosure.Runs.captured {p : Procedure} {captured : List (Item (MachineValue α))}
    (h : MachineClosure.Runs Q (.mk p captured)) : Q p captured ∧ ∀ item ∈ captured, item.Runs Q := by
  cases h with
  | mk hp hcaptured =>
    refine ⟨hp, fun item hitem => ?_⟩
    cases item with
    | value v => exact RunValue.forall_iff.2 (hcaptured v hitem)
    | cell address => exact trivial

theorem enter_runs (h : s.Runs Q) {stack : List (Item (MachineValue α))} (hstack : ∀ item ∈ stack, item.Runs Q)
    {callee : MachineValue α} (hcallee : callee.Forall (MachineClosure.Runs Q)) {args : List (MachineValue α)}
    (hargs : ∀ v ∈ args, v.Forall (MachineClosure.Runs Q)) (henter : s.enter builtins stack callee args = some t) :
    t.Runs Q := by
  cases callee with
  | closure c =>
    cases c with
    | mk p captured =>
      obtain ⟨vs, hvs, rfl⟩ := Option.map_eq_some_iff.1 henter
      obtain ⟨-, hcaptured⟩ := MachineClosure.Runs.captured hcallee
      have hvalues := RunValue.Forall.arguments? hargs hvs
      refine ⟨⟨nofun, fun item hitem => ?_⟩, ?_, h.memory⟩
      · rcases List.mem_append.1 hitem with hitem | hitem
        · obtain ⟨_, hitem, heq⟩ := List.mem_map.1 hitem
          cases heq
          rcases List.mem_append.1 hitem with hitem | hitem
          · exact hcaptured _ hitem
          · obtain ⟨v, hv, rfl⟩ := List.mem_map.1 hitem
            exact hvalues v hv
        · cases (List.mem_replicate.1 hitem).2
      · exact List.forall_mem_cons.2 ⟨h.frame.withStack hstack _, h.callers⟩
  | _ =>
    obtain ⟨d, -, rfl⟩ := Option.map_eq_some_iff.1 henter
    exact h.push hstack (RunValue.Forall.embed d)

/-- **Executing an instruction keeps the closures among those with the property,** if none without it is made -/
theorem exec_runs {i : Instr} (hmade : ∀ index count p, i = .closure index count → pool[index]? = some (.procedure p) →
      count ≤ s.frame.stack.length → Q p (s.frame.stack.take count).reverse)
    (h : s.Runs Q) (hexec : s.exec builtins pool i = some t) : t.Runs Q := by
  have hstack := h.frame.stack
  cases i with
  | bind slot =>
    simp only [MachineState.exec] at hexec
    split at hexec
    · next item stack hs =>
      obtain ⟨hitem, hrest⟩ := h.frame.top hs
      obtain ⟨f, hf, rfl⟩ := Option.map_eq_some_iff.1 hexec
      exact ⟨(h.frame.setSlot hitem hf).withStack hrest _, h.callers, h.memory⟩
    · cases hexec
  | loadGlobal name =>
    obtain ⟨v, hv, rfl⟩ := Option.map_eq_some_iff.1 hexec
    exact h.push hstack (h.memory.globals name v hv)
  | load slot =>
    obtain ⟨item, hitem, rfl⟩ := Option.map_eq_some_iff.1 hexec
    exact h.push hstack (h.frame.slot hitem)
  | constant index =>
    simp only [MachineState.exec] at hexec
    split at hexec
    · cases hexec
      exact h.push hstack trivial
    · cases hexec
  | jumpIfFalse target =>
    cases target with
    | none => cases hexec
    | some target =>
      simp only [MachineState.exec] at hexec
      split at hexec
      · next v stack hs =>
        cases hexec
        obtain ⟨-, hrest⟩ := h.frame.top hs
        refine ⟨?_, h.callers, h.memory⟩
        cases v.isFalse with
        | true => exact h.frame.withStack hrest target
        | false => exact h.frame.withStack hrest _
      · cases hexec
  | jump target =>
    cases target with
    | none => cases hexec
    | some target =>
      cases hexec
      exact ⟨h.frame.withStack hstack target, h.callers, h.memory⟩
  | call arity =>
    simp only [MachineState.exec] at hexec
    split at hexec
    · next callee stack hs =>
      obtain ⟨hcallee, hrest⟩ := h.frame.top hs
      split at hexec
      · obtain ⟨args, hargs, henter⟩ := Option.bind_eq_some_iff.1 hexec
        have hargs' :=
          mapM_value?_runs (fun item hitem => hrest item (List.mem_of_mem_take (List.mem_reverse.1 hitem))) hargs
        exact enter_runs h (fun item hitem => hrest item (List.mem_of_mem_drop hitem)) hcallee hargs' henter
      · cases hexec
    · cases hexec
  | closure index captured =>
    simp only [MachineState.exec] at hexec
    split at hexec
    · next p hp =>
      split at hexec
      · next hcount =>
        cases hexec
        refine h.push (fun item hitem => hstack item (List.mem_of_mem_drop hitem)) ?_
        refine MachineClosure.Runs.mk (hmade index captured p rfl hp hcount) fun v hv => RunValue.forall_iff.1 ?_
        exact hstack _ (List.mem_of_mem_take (List.mem_reverse.1 hv))
      · cases hexec
    · cases hexec
  | store slot =>
    simp only [MachineState.exec] at hexec
    split at hexec
    · next item stack hs =>
      obtain ⟨hitem, -⟩ := h.frame.top hs
      obtain ⟨f, hf, rfl⟩ := Option.map_eq_some_iff.1 hexec
      exact ⟨(h.frame.setSlot hitem hf).withStack (hs ▸ hstack) _, h.callers, h.memory⟩
    · cases hexec
  | storeGlobal name =>
    simp only [MachineState.exec] at hexec
    split at hexec
    · next v stack hs =>
      cases hexec
      obtain ⟨hitem, -⟩ := h.frame.top hs
      refine ⟨h.frame.withStack (hs ▸ hstack) _, h.callers, h.memory.heap, fun x w hw => ?_⟩
      simp only [Memory.setGlobal] at hw
      split at hw
      · cases hw
        exact hitem
      · exact h.memory.globals x w hw
    · cases hexec
  | makeCell =>
    simp only [MachineState.exec] at hexec
    split at hexec
    · next v stack hs =>
      cases hexec
      obtain ⟨hitem, hrest⟩ := h.frame.top hs
      have hcell : Item.Runs Q (.cell s.memory.heap.length : Item (MachineValue α)) := trivial
      refine ⟨h.frame.withStack (List.forall_mem_cons.2 ⟨hcell, hrest⟩) _, h.callers, ?_, h.memory.globals⟩
      exact List.forall_mem_append.2 ⟨h.memory.heap, List.forall_mem_singleton.2 hitem⟩
    · cases hexec
  | loadCell slot =>
    simp only [MachineState.exec] at hexec
    split at hexec
    · obtain ⟨v, hv, rfl⟩ := Option.map_eq_some_iff.1 hexec
      exact h.push hstack (h.memory.heap v (List.mem_of_getElem? hv))
    · cases hexec
  | storeCell slot =>
    simp only [MachineState.exec] at hexec
    split at hexec
    · next address v stack _ hs =>
      obtain ⟨hitem, -⟩ := h.frame.top hs
      obtain ⟨m, hm, rfl⟩ := Option.map_eq_some_iff.1 hexec
      unfold Memory.write at hm
      split at hm
      · cases hm
        refine ⟨h.frame.withStack (hs ▸ hstack) _, h.callers, fun w hw => ?_, h.memory.globals⟩
        rcases List.mem_or_eq_of_mem_set hw with hw | rfl
        · exact h.memory.heap w hw
        · exact hitem
      · cases hm
    · cases hexec
  | ret =>
    simp only [MachineState.exec] at hexec
    split at hexec
    · next v stack caller callers hs hcallers =>
      cases hexec
      obtain ⟨hitem, -⟩ := h.frame.top hs
      obtain ⟨hcaller, hothers⟩ := List.forall_mem_cons.1 (hcallers ▸ h.callers)
      exact ⟨hcaller.withStack (List.forall_mem_cons.2 ⟨hitem, hcaller.stack⟩) _, hothers, h.memory⟩
    · cases hexec

/-- a program starts without closures of its own -/
theorem start_runs (p : Program) {m : MachineMemory α} (hm : m.Forall (MachineClosure.Runs Q)) :
    (MachineState.start p m).Runs Q := by
  refine ⟨⟨nofun, fun item hitem => ?_⟩, nofun, hm⟩
  change some item ∈ Frame.layOut [] p.frameSize at hitem
  rw [Frame.layOut, List.map_nil, List.nil_append] at hitem
  cases (List.mem_replicate.1 hitem).2

end Runs

/-! ## Heights along a run -/

section Heights

variable {α : Type} {builtins : Builtins α} {pool : List Constant} {s t : MachineState α}

/-- the frame is at an instruction of disciplined code, with all values that should be there but so many -/
def Frame.AtHeight (lacking : Nat) (f : Frame α) : Prop :=
  ∃ height results, Disciplined f.code height results ∧ f.pc < f.code.length ∧ f.stack.length + lacking = height f.pc

/-- the procedure has disciplined code, with one value at its `ret` -/
def Procedure.Disciplined (p : Procedure) : Prop := ∃ height, SchemeStack.Disciplined p.code height 1

/-- the current frame lacks nothing, the others lack the value that they wait for; the closures have disciplined code -/
structure MachineState.AtHeight (s : MachineState α) : Prop where
  frame : s.frame.AtHeight 0
  callers : ∀ f ∈ s.callers, f.AtHeight 1
  runs : s.Runs fun p _ => p.Disciplined

/-- a frame at its height has the values that its instruction pops -/
theorem Frame.AtHeight.pops_le {f : Frame α} (h : f.AtHeight 0) {i : Instr} (hi : f.code[f.pc]? = some i) :
    i.pops ≤ f.stack.length := by
  obtain ⟨height, results, hcode, -, hheight⟩ := h
  rw [Nat.add_zero] at hheight
  rw [hheight]
  exact hcode.enough f.pc i hi

/-- a frame at a successor of its instruction, with the values left there but so many -/
theorem Frame.AtHeight.successor {f f' : Frame α} (h : f.AtHeight 0) {i : Instr} (hi : f.code[f.pc]? = some i)
    (hcode : f'.code = f.code) (hpc : f'.pc ∈ i.successors f.pc) {lacking : Nat}
    (hlength : f'.stack.length + lacking = f.stack.length - i.pops + i.pushes) : f'.AtHeight lacking := by
  obtain ⟨height, results, hdisciplined, -, hheight⟩ := h
  rw [Nat.add_zero] at hheight
  obtain ⟨hlt, hnext⟩ := hdisciplined.edges f.pc i hi f'.pc hpc
  refine ⟨height, results, hcode ▸ hdisciplined, hcode ▸ hlt, ?_⟩
  rw [hlength, hheight, hnext]

/-- the start of a disciplined procedure -/
theorem Procedure.Disciplined.atHeight {p : Procedure} (h : p.Disciplined) {f : Frame α} (hcode : f.code = p.code)
    (hpc : f.pc = 0) (hstack : f.stack = []) : f.AtHeight 0 := by
  obtain ⟨height, hdisciplined⟩ := h
  refine ⟨height, 1, hcode ▸ hdisciplined, ?_, ?_⟩
  · -- code without instructions would end at the height it starts with
    rw [hpc, hcode]
    by_contra hempty
    have hresult := hdisciplined.result
    rw [Nat.eq_zero_of_not_pos hempty, hdisciplined.entry] at hresult
    cases hresult
  · rw [hpc, hstack, hdisciplined.entry]
    rfl

/-- **A step keeps every frame at its height** -/
theorem step_at_height (hpool : PoolDisciplined pool) (h : s.AtHeight) (hstep : s.step builtins pool = some t) :
    t.AtHeight := by
  obtain ⟨i, hi, hexec⟩ := Option.bind_eq_some_iff.1 hstep
  have hruns := exec_runs (fun _ _ p _ hp _ => hpool p (List.mem_of_getElem? hp)) h.runs hexec
  cases exec_height hexec with
  | goesOn hcallers hcode hpc _ hlength =>
    exact ⟨h.frame.successor hi hcode hpc hlength, hcallers ▸ h.callers, hruns⟩
  | enters hcallers hcode hpc _ hlength hcallee hbody hentry hempty =>
    have hp := (MachineClosure.Runs.captured (h.runs.frame.stack _ hcallee)).1
    refine ⟨hp.atHeight hbody hentry hempty, ?_, hruns⟩
    rw [hcallers]
    exact List.forall_mem_cons.2 ⟨h.frame.successor hi hcode hpc hlength, h.callers⟩
  | @leaves caller _ hcallers hcode hpc hlength =>
    obtain ⟨⟨height, results, hdisciplined, hlt, hheight⟩, hothers⟩ := List.forall_mem_cons.1 (hcallers ▸ h.callers)
    refine ⟨⟨height, results, hcode ▸ hdisciplined, hcode ▸ hpc ▸ hlt, ?_⟩, hothers, hruns⟩
    rw [hpc, ← hheight]
    exact hlength

/-- every state that a run reaches is at its height if the first is -/
theorem steps_at_height (hpool : PoolDisciplined pool) (h : s.AtHeight)
    (hsteps : MachineState.Steps builtins pool s t) :
    t.AtHeight := by
  induction hsteps with
  | refl => exact h
  | tail _ hstep ih => exact step_at_height hpool ih hstep

/-- **No instruction of a program ever lacks an operand.** Whatever state a run reaches, its frames are at their
heights, and the current one has the values that its instruction pops. -/
theorem program_at_height (exprs : List Core) (table : SymbolTable) {m : MachineMemory α}
    (hm : m.Forall (MachineClosure.Runs fun p _ => p.Disciplined))
    (hsteps : MachineState.Steps builtins (Program.ofCore exprs table).constants
      (MachineState.start (Program.ofCore exprs table) m) s) :
    s.AtHeight ∧ ∃ i, s.frame.code[s.frame.pc]? = some i ∧ i.pops ≤ s.frame.stack.length := by
  obtain ⟨height, hcode⟩ := programCode_disciplined exprs table
  have hlength : 0 < (Program.ofCore exprs table).code.length := by simp [Program.ofCore]
  have hstart : (MachineState.start (Program.ofCore exprs table) m).AtHeight :=
    ⟨⟨height, exprs.length, hcode, hlength, hcode.entry.symm⟩, nofun, start_runs _ hm⟩
  have hs := steps_at_height (programPool_disciplined exprs table) hstart hsteps
  obtain ⟨_, _, _, hlt, _⟩ := hs.frame
  exact ⟨hs, _, List.getElem?_eq_getElem hlt, hs.frame.pops_le (List.getElem?_eq_getElem hlt)⟩

end Heights

end SchemeStack
