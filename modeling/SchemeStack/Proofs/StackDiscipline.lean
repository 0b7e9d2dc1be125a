/-
The stack discipline of generated code.

An instruction pops and pushes a fixed number of values (`pops`, `pushes`) and goes on at one of its successors; what it
does to the machine is that (`exec_height`). Code is disciplined (`Disciplined`) if there is one height of the stack for
each index such that
- no instruction pops more than is there, and the heights agree along every edge, both those of a conditional jump;
- jumps have targets, which lie ahead and in the same code;
- the code of an expression, wherever it stands, is left at its end only, with one value more than it was entered with;
- the only `ret` is the last instruction, at a given height.

`program_disciplined`: the code of a program is disciplined, with as many values at its `ret` as there are
expressions, and so is the code of every procedure in its pool, with one.

The heights are found by going through the code in the order of its instructions (`heightAfter`). Behind a `jump`,
which ends the first arm of a conditional, the second arm starts without the value of the first. A fragment takes the
stack from one height to another (`Moves`), whatever is below; its jumps stay inside it, or are open: they go to
indices with heights that are known from outside. An open jump to the end of the fragment is closed once the heights
there agree.
-/
import SchemeStack.Proofs.CodeLayout
import SchemeStack.Proofs.MachineExecution

namespace SchemeStack

/-! ## What instructions do to the stack -/

namespace Instr

/-- how many values an instruction takes from the stack; `ret` ends the code with what is there -/
def pops : Instr → Nat
  | bind _ => 1
  | jumpIfFalse _ => 1
  | call arity => arity + 1
  | closure _ captured => captured
  | store _ => 1
  | storeGlobal _ => 1
  | makeCell => 1
  | storeCell _ => 1
  | _ => 0

/-- how many values it puts there -/
def pushes : Instr → Nat
  | bind _ => 0
  | jumpIfFalse _ => 0
  | jump _ => 0
  | ret => 0
  | _ => 1

/-- the targets of a jump -/
def targets : Instr → List (Option Nat)
  | jumpIfFalse target => [target]
  | jump target => [target]
  | _ => []

/-- the instruction may go on with the one behind it -/
def fallsThrough : Instr → Bool
  | jump _ => false
  | ret => false
  | _ => true

/-- the indices where an instruction at an index may go on in the same code -/
def successors (i : Instr) (index : Nat) : List Nat :=
  (if i.fallsThrough then [index + 1] else []) ++ i.targets.filterMap id

/-- the height of the stack behind the instruction, for the one that stands there -/
def heightBehind (h : Nat) : Instr → Nat
  | jump _ => h - 1
  | i => h - i.pops + i.pushes

theorem heightBehind_of_fallsThrough {i : Instr} (h : i.fallsThrough = true) (height : Nat) :
    i.heightBehind height = height - i.pops + i.pushes := by
  cases i with
  | jump target => cases h
  | _ => rfl

end Instr

/-- the height of the stack behind some code, for what stands there -/
def heightAfter (h : Nat) (code : List Instr) : Nat := code.foldl Instr.heightBehind h

theorem heightAfter_append (h : Nat) (a b : List Instr) : heightAfter h (a ++ b) = heightAfter (heightAfter h a) b :=
  List.foldl_append

/-- what the machine does to its frames when it executes an instruction -/
inductive Effect {α : Type} (i : Instr) (s t : MachineState α) : Prop
  /-- it goes on at a successor, in the same frame -/
  | goesOn : t.callers = s.callers → t.frame.code = s.frame.code → t.frame.pc ∈ i.successors s.frame.pc →
    i.pops ≤ s.frame.stack.length → t.frame.stack.length = s.frame.stack.length - i.pops + i.pushes → Effect i s t
  /-- it starts the procedure on top of the stack, with an empty one; the caller will go on with one more value -/
  | enters {caller : Frame α} {p : Procedure} {captured : List (Item (MachineValue α))} :
    t.callers = caller :: s.callers → caller.code = s.frame.code → caller.pc ∈ i.successors s.frame.pc →
    i.pops ≤ s.frame.stack.length → caller.stack.length + 1 = s.frame.stack.length - i.pops + i.pushes →
    .value (.closure (.mk p captured)) ∈ s.frame.stack → t.frame.code = p.code → t.frame.pc = 0 → t.frame.stack = [] →
    Effect i s t
  /-- it goes back to the caller, with one more value -/
  | leaves {caller : Frame α} : i = .ret → s.callers = caller :: t.callers → t.frame.code = caller.code →
    t.frame.pc = caller.pc → t.frame.stack.length = caller.stack.length + 1 → Effect i s t

section Effect

variable {α : Type} {builtins : Builtins α} {pool : List Constant} {i : Instr} {s t : MachineState α}

theorem Instr.succ_mem_successors (hfalls : i.fallsThrough = true) (index : Nat) : index + 1 ∈ i.successors index := by
  simp [successors, hfalls]

/-- an instruction that goes on with the one behind it -/
theorem Effect.next (hfalls : i.fallsThrough = true) {f : Frame α} {stack : List (Item (MachineValue α))}
    {m : MachineMemory α} (hcode : f.code = s.frame.code) (hpc : f.pc = s.frame.pc)
    (hpops : i.pops ≤ s.frame.stack.length)
    (hlength : stack.length = s.frame.stack.length - i.pops + i.pushes) : Effect i s ⟨f.next stack, s.callers, m⟩ := by
  refine .goesOn rfl hcode ?_ hpops hlength
  rw [← hpc]
  exact Instr.succ_mem_successors hfalls f.pc

theorem Frame.setSlot_eq {f f' : Frame α} {slot : Nat} {item : Item (MachineValue α)}
    (h : f.setSlot slot item = some f') :
    f'.code = f.code ∧ f'.pc = f.pc := by
  unfold Frame.setSlot at h
  split at h
  · cases h
    exact ⟨rfl, rfl⟩
  · cases h

/-- a call takes the callee and the arguments, and leaves its result, now or when the procedure ends -/
theorem Effect.call {arity : Nat} {callee : MachineValue α} {stack : List (Item (MachineValue α))}
    {args : List (MachineValue α)} (hstack : s.frame.stack = .value callee :: stack) (harity : arity ≤ stack.length)
    (h : s.enter builtins (stack.drop arity) callee args = some t) : Effect (.call arity) s t := by
  have hpops : (Instr.call arity).pops ≤ s.frame.stack.length := by
    rw [hstack]
    exact Nat.succ_le_succ harity
  have hleft : (stack.drop arity).length + 1 =
      s.frame.stack.length - (Instr.call arity).pops + (Instr.call arity).pushes := by
    rw [hstack, List.length_drop, List.length_cons]
    simp only [Instr.pops, Instr.pushes]
    omega
  cases callee with
  | closure c =>
    cases c with
    | mk p captured =>
      obtain ⟨vs, -, rfl⟩ := Option.map_eq_some_iff.1 h
      have hcallee : .value (.closure (.mk p captured)) ∈ s.frame.stack := hstack ▸ List.mem_cons_self
      exact .enters rfl rfl (Instr.succ_mem_successors rfl _) hpops hleft hcallee rfl rfl rfl
  | _ =>
    obtain ⟨d, -, rfl⟩ := Option.map_eq_some_iff.1 h
    exact .next rfl rfl rfl hpops hleft

/-- **Executing an instruction pops, pushes and goes on as it should** -/
theorem exec_height (h : s.exec builtins pool i = some t) : Effect i s t := by
  cases i with
  | bind slot =>
    simp only [MachineState.exec] at h
    split at h
    · next item stack hstack =>
      obtain ⟨f, hf, rfl⟩ := Option.map_eq_some_iff.1 h
      obtain ⟨hcode, hpc⟩ := Frame.setSlot_eq hf
      exact .next rfl hcode hpc (by simp [hstack, Instr.pops]) (by simp [hstack, Instr.pops, Instr.pushes])
    · cases h
  | loadGlobal name =>
    obtain ⟨v, -, rfl⟩ := Option.map_eq_some_iff.1 h
    exact .next rfl rfl rfl (Nat.zero_le _) rfl
  | load slot =>
    obtain ⟨item, -, rfl⟩ := Option.map_eq_some_iff.1 h
    exact .next rfl rfl rfl (Nat.zero_le _) rfl
  | constant index =>
    simp only [MachineState.exec] at h
    split at h
    · cases h
      exact .next rfl rfl rfl (Nat.zero_le _) rfl
    · cases h
  | jumpIfFalse target =>
    cases target with
    | none => cases h
    | some target =>
      simp only [MachineState.exec] at h
      split at h
      · next v stack hstack =>
        cases h
        refine .goesOn rfl ?_ ?_ (by simp [hstack, Instr.pops]) ?_
        · cases v.isFalse <;> rfl
        · cases v.isFalse <;> simp [MachineState.withFrame, Frame.jump, Frame.next, Instr.successors,
            Instr.fallsThrough, Instr.targets]
        · cases v.isFalse <;> simp [MachineState.withFrame, Frame.jump, Frame.next, hstack, Instr.pops, Instr.pushes]
      · cases h
  | jump target =>
    cases target with
    | none => cases h
    | some target =>
      cases h
      exact .goesOn rfl rfl
        (by simp [MachineState.withFrame, Frame.jump, Instr.successors, Instr.fallsThrough, Instr.targets])
        (Nat.zero_le _) rfl
  | call arity =>
    simp only [MachineState.exec] at h
    split at h
    · next callee stack hstack =>
      split at h
      · next harity =>
        obtain ⟨args, -, h⟩ := Option.bind_eq_some_iff.1 h
        exact .call hstack harity h
      · cases h
    · cases h
  | closure index captured =>
    simp only [MachineState.exec] at h
    split at h
    · split at h
      · next hcaptured =>
        cases h
        exact .next rfl rfl rfl hcaptured (by simp [Instr.pops, Instr.pushes])
      · cases h
    · cases h
  | store slot =>
    simp only [MachineState.exec] at h
    split at h
    · next item stack hstack =>
      obtain ⟨f, hf, rfl⟩ := Option.map_eq_some_iff.1 h
      obtain ⟨hcode, hpc⟩ := Frame.setSlot_eq hf
      exact .next rfl hcode hpc (by simp [hstack, Instr.pops]) (by simp [hstack, Instr.pops, Instr.pushes])
    · cases h
  | storeGlobal name =>
    simp only [MachineState.exec] at h
    split at h
    · next v stack hstack =>
      cases h
      exact .next rfl rfl rfl (by simp [hstack, Instr.pops]) (by simp [hstack, Instr.pops, Instr.pushes])
    · cases h
  | makeCell =>
    simp only [MachineState.exec] at h
    split at h
    · next v stack hstack =>
      cases h
      exact .next rfl rfl rfl (by simp [hstack, Instr.pops]) (by simp [hstack, Instr.pops, Instr.pushes])
    · cases h
  | loadCell slot =>
    simp only [MachineState.exec] at h
    split at h
    · obtain ⟨v, -, rfl⟩ := Option.map_eq_some_iff.1 h
      exact .next rfl rfl rfl (Nat.zero_le _) rfl
    · cases h
  | storeCell slot =>
    simp only [MachineState.exec] at h
    split at h
    · next address v stack _ hstack =>
      obtain ⟨m, -, rfl⟩ := Option.map_eq_some_iff.1 h
      exact .next rfl rfl rfl (by simp [hstack, Instr.pops]) (by simp [hstack, Instr.pops, Instr.pushes])
    · cases h
  | ret =>
    simp only [MachineState.exec] at h
    split at h
    · next v stack caller callers _ hcallers =>
      cases h
      exact .leaves rfl hcallers rfl rfl rfl
    · cases h

end Effect

/-- code that keeps a discipline of its stack, with so many values at its `ret` -/
structure Disciplined (code : List Instr) (height : Nat → Nat) (results : Nat) : Prop where
  entry : height 0 = 0
  enough : ∀ i instr, code[i]? = some instr → instr.pops ≤ height i
  edges : ∀ i instr, code[i]? = some instr → ∀ j ∈ instr.successors i,
    j < code.length ∧ height j = height i - instr.pops + instr.pushes
  jumps : ∀ i instr, code[i]? = some instr → ∀ t ∈ instr.targets, ∃ j, t = some j ∧ i < j ∧ j < code.length
  raises : ∀ scope start e g, CodeAt code start (genCode scope start e g).1 →
    height (start + (genCode scope start e g).1.length) = height start + 1
  stays : ∀ scope start e g, CodeAt code start (genCode scope start e g).1 → ∀ i instr,
    (genCode scope start e g).1[i]? = some instr → ∀ j ∈ instr.successors (start + i),
      start + i < j ∧ j ≤ start + (genCode scope start e g).1.length
  ret : ∀ i, code[i]? = some .ret ↔ i + 1 = code.length
  result : height (code.length - 1) = results

/-! ## Fragments -/

/-- which open jumps there may be: their targets, and the heights there -/
abbrev Exits := Nat → Nat → Prop

/-- a fragment at an index takes the stack from `a` values to `b`, above any others; its jumps stay in it or are open -/
structure Moves (exits : Exits) (start a b : Nat) (code : List Instr) : Prop where
  height : ∀ h, heightAfter (h + a) code = h + b
  enough : ∀ h i instr, code[i]? = some instr → instr.pops ≤ heightAfter (h + a) (code.take i)
  ret : .ret ∉ code
  jumps : ∀ i instr, code[i]? = some instr → ∀ t ∈ instr.targets, ∃ j, t = some j ∧ start + i < j ∧
    (j ≤ start + code.length ∧
        (∀ h, heightAfter (h + a) (code.take (j - start)) =
          heightAfter (h + a) (code.take i) - instr.pops + instr.pushes) ∨
      ∃ c, exits j c ∧ ∀ h, h + c = heightAfter (h + a) (code.take i) - instr.pops + instr.pushes)

namespace Moves

variable {exits exits' : Exits} {start a b c : Nat} {code front back : List Instr} {i : Instr}

theorem getElem?_singleton {k : Nat} {instr : Instr} (h : [i][k]? = some instr) : k = 0 ∧ i = instr := by
  simpa [List.getElem?_singleton] using h

theorem nil : Moves exits start a a [] :=
  ⟨fun _ => rfl, fun _ _ _ h => by simp at h, List.not_mem_nil, fun _ _ h => by simp at h⟩

/-- an instruction that is neither a jump nor the end -/
theorem instr (hfalls : i.fallsThrough = true) (htargets : i.targets = []) (hpops : i.pops ≤ a)
    (hb : a - i.pops + i.pushes = b) : Moves exits start a b [i] := by
  refine ⟨?_, ?_, ?_, ?_⟩
  · intro h
    change i.heightBehind (h + a) = h + b
    rw [Instr.heightBehind_of_fallsThrough hfalls]
    omega
  · intro h k instr hk
    obtain ⟨rfl, rfl⟩ := getElem?_singleton hk
    change i.pops ≤ h + a
    omega
  · intro hmem
    cases List.mem_singleton.1 hmem
    cases hfalls
  · intro k instr hk t ht
    obtain ⟨rfl, rfl⟩ := getElem?_singleton hk
    rw [htargets] at ht
    cases ht

/-- an open jump on its own -/
theorem jump {target : Nat} (htargets : i.targets = [some target]) (hpops : i.pops ≤ a) (hlt : start < target)
    (hexit : exits target (a - i.pops + i.pushes)) (hb : ∀ h, i.heightBehind (h + a) = h + b) :
    Moves exits start a b [i] := by
  refine ⟨hb, ?_, ?_, ?_⟩
  · intro h k instr hk
    obtain ⟨rfl, rfl⟩ := getElem?_singleton hk
    change i.pops ≤ h + a
    omega
  · intro hmem
    cases List.mem_singleton.1 hmem
    cases htargets
  · intro k instr hk t ht
    obtain ⟨rfl, rfl⟩ := getElem?_singleton hk
    rw [htargets] at ht
    refine ⟨target, List.mem_singleton.1 ht, hlt, Or.inr ⟨_, hexit, fun h => ?_⟩⟩
    change h + (a - i.pops + i.pushes) = h + a - i.pops + i.pushes
    omega

theorem height_take_left (h : Nat) {k : Nat} (hk : k ≤ front.length) :
    heightAfter h ((front ++ back).take k) = heightAfter h (front.take k) := by
  rw [List.take_append_of_le_length hk]

theorem height_take_right (hfront : Moves exits start a b front) (h : Nat) {k : Nat} (hk : front.length ≤ k) :
    heightAfter (h + a) ((front ++ back).take k) = heightAfter (h + b) (back.take (k - front.length)) := by
  rw [List.take_append, List.take_of_length_le hk, heightAfter_append, hfront.height]

theorem append (hfront : Moves exits start a b front) (hback : Moves exits (start + front.length) b c back) :
    Moves exits start a c (front ++ back) := by
  refine ⟨?_, ?_, ?_, ?_⟩
  · intro h
    rw [heightAfter_append, hfront.height, hback.height]
  · intro h k instr hk
    by_cases hlt : k < front.length
    · rw [List.getElem?_append_left hlt] at hk
      rw [height_take_left _ (Nat.le_of_lt hlt)]
      exact hfront.enough h k instr hk
    · rw [List.getElem?_append_right (by omega)] at hk
      rw [hfront.height_take_right h (by omega)]
      exact hback.enough h _ instr hk
  · intro hmem
    rcases List.mem_append.1 hmem with hmem | hmem
    · exact hfront.ret hmem
    · exact hback.ret hmem
  · intro k instr hk t ht
    by_cases hlt : k < front.length
    · rw [List.getElem?_append_left hlt] at hk
      obtain ⟨j, rfl, hj, hinside | hopen⟩ := hfront.jumps k instr hk t ht
      · refine ⟨j, rfl, hj, Or.inl ⟨by simp only [List.length_append]; omega, fun h => ?_⟩⟩
        rw [height_take_left _ (by omega), height_take_left _ (Nat.le_of_lt hlt)]
        exact hinside.2 h
      · refine ⟨j, rfl, hj, Or.inr ?_⟩
        simp only [height_take_left _ (Nat.le_of_lt hlt)]
        exact hopen
    · rw [List.getElem?_append_right (by omega)] at hk
      obtain ⟨j, rfl, hj, hinside | hopen⟩ := hback.jumps _ instr hk t ht
      · refine ⟨j, rfl, by omega, Or.inl ⟨by simp only [List.length_append]; omega, fun h => ?_⟩⟩
        rw [hfront.height_take_right h (by omega), hfront.height_take_right h (by omega), Nat.sub_sub]
        exact hinside.2 h
      · have hheight : ∀ h, heightAfter (h + a) ((front ++ back).take k) =
            heightAfter (h + b) (back.take (k - front.length)) := fun h => hfront.height_take_right h (by omega)
        refine ⟨j, rfl, by omega, Or.inr ?_⟩
        simp only [hheight]
        exact hopen

/-- open jumps to the end are closed if the heights there agree -/
theorem close (h : Moves exits start a b code)
    (hexits : ∀ j c, exits j c → exits' j c ∨ j = start + code.length ∧ c = b) : Moves exits' start a b code := by
  refine ⟨h.height, h.enough, h.ret, ?_⟩
  intro k instr hk t ht
  obtain ⟨j, rfl, hj, hinside | ⟨c, hc, hheight⟩⟩ := h.jumps k instr hk t ht
  · exact ⟨j, rfl, hj, Or.inl hinside⟩
  · rcases hexits j c hc with hc | ⟨rfl, rfl⟩
    · exact ⟨j, rfl, hj, Or.inr ⟨c, hc, hheight⟩⟩
    · refine ⟨_, rfl, hj, Or.inl ⟨Nat.le_refl _, fun h' => ?_⟩⟩
      rw [Nat.add_sub_cancel_left, List.take_length, h.height]
      exact hheight h'

/-- a fragment without open jumps does the same above more values, among any open jumps -/
theorem above (h : Moves (fun _ _ => False) start a b code) (c : Nat) : Moves exits start (c + a) (c + b) code := by
  refine ⟨?_, ?_, h.ret, ?_⟩
  · intro h'
    rw [← Nat.add_assoc, ← Nat.add_assoc]
    exact h.height (h' + c)
  · intro h'
    rw [← Nat.add_assoc]
    exact h.enough (h' + c)
  · intro k instr hk t ht
    obtain ⟨j, rfl, hj, ⟨hle, hheight⟩ | ⟨_, hfalse, _⟩⟩ := h.jumps k instr hk t ht
    · refine ⟨j, rfl, hj, Or.inl ⟨hle, fun h' => ?_⟩⟩
      rw [← Nat.add_assoc]
      exact hheight (h' + c)
    · exact hfalse.elim

/-- a conditional: both arms start without the value of the test, and end with one more -/
theorem branch {test consequent alternative : List Instr} (htest : Moves (fun _ _ => False) start 0 1 test)
    (hconsequent : Moves (fun _ _ => False) (start + test.length + 1) 0 1 consequent)
    (halternative : Moves (fun _ _ => False) (start + test.length + 1 + consequent.length + 1) 0 1 alternative) :
    Moves (fun _ _ => False) start 0 1 (branchCode start test consequent alternative) := by
  let elseAt := start + test.length + 1 + consequent.length + 1
  let endAt := elseAt + alternative.length
  let front := test ++ [Instr.jumpIfFalse (some elseAt)] ++ consequent ++ [Instr.jump (some endAt)]
  have hlength : start + front.length = elseAt := by
    simp only [front, List.length_append, List.length_singleton, elseAt]
    omega
  -- the jump into the alternative is open until its start, the jump over it until its end
  let exits : Exits := fun j c => j = elseAt ∧ c = 0 ∨ j = endAt ∧ c = 1
  have hfront : Moves exits start 0 0 front := by
    have htest' : Moves exits start 0 1 test := htest.above 0
    have hjump : Moves exits (start + test.length) 1 0 [Instr.jumpIfFalse (some elseAt)] :=
      jump rfl (Nat.le_refl 1) (by omega) (Or.inl ⟨rfl, rfl⟩) fun h => rfl
    have hconsequent' : Moves exits (start + (test ++ [Instr.jumpIfFalse (some elseAt)]).length) 0 1 consequent := by
      rw [List.length_append, ← Nat.add_assoc]
      exact hconsequent.above 0
    have hover : Moves exits (start + (test ++ [Instr.jumpIfFalse (some elseAt)] ++ consequent).length) 1 0
        [Instr.jump (some endAt)] := by
      refine jump rfl (Nat.zero_le 1) ?_ (Or.inr ⟨rfl, rfl⟩) fun h => rfl
      simp only [List.length_append, List.length_singleton, endAt, elseAt]
      omega
    exact ((htest'.append hjump).append hconsequent').append hover
  have hopen : Moves (fun j c => j = endAt ∧ c = 1) start 0 0 front := by
    refine hfront.close fun j c hexit => ?_
    rcases hexit with ⟨rfl, rfl⟩ | hexit
    · exact Or.inr ⟨hlength.symm, rfl⟩
    · exact Or.inl hexit
  have hback : Moves (fun j c => j = endAt ∧ c = 1) (start + front.length) 0 1 alternative := by
    rw [hlength]
    exact halternative.above 0
  refine (hopen.append hback).close ?_
  rintro j c ⟨rfl, rfl⟩
  refine Or.inr ⟨?_, rfl⟩
  rw [List.length_append, ← Nat.add_assoc, hlength]

end Moves

/-! ## Generated code -/

section Generated

variable {exits : Exits} {start a : Nat}

theorem loadCode_moves (scope : Scope) (g : Gen) (name : String) : Moves exits start 0 1 (loadCode scope g name).1 := by
  unfold loadCode
  split
  · exact .instr rfl rfl (Nat.le_refl 0) rfl
  · dsimp only
    split
    · exact .instr rfl rfl (Nat.le_refl 0) rfl
    · exact .instr rfl rfl (Nat.le_refl 0) rfl

theorem storeCode_moves (scope : Scope) (g : Gen) (name : String) :
    Moves exits start 1 1 (storeCode scope g name).1 := by
  unfold storeCode
  split
  · exact .instr rfl rfl (Nat.le_refl 1) rfl
  · dsimp only
    split
    · exact .instr rfl rfl (Nat.le_refl 1) rfl
    · exact .instr rfl rfl (Nat.le_refl 1) rfl

/-- arguments go into their cells, and the stack is as it was -/
theorem prologue_moves (slots : List Nat) : Moves exits start 0 0 (slots.flatMap cellArgument) := by
  induction slots generalizing start with
  | nil => exact .nil
  | cons slot slots ih =>
    have hload : Moves exits start 0 1 [.load slot] := .instr rfl rfl (Nat.le_refl 0) rfl
    have hbox : Moves exits (start + 1) 1 1 [.makeCell] := .instr rfl rfl (Nat.le_refl 1) rfl
    have hbind : Moves exits (start + 1 + 1) 1 0 [.bind slot] := .instr rfl rfl (Nat.le_refl 1) rfl
    rw [List.flatMap_cons]
    exact ((hload.append hbox).append hbind).append ih

theorem captureCode_moves (scope : Scope) (captured : List String) :
    Moves exits start a (a + captured.length) (captureCode scope captured) := by
  induction captured generalizing start a with
  | nil => exact .nil
  | cons name captured ih =>
    have hload : Moves exits start a (a + 1) [.load ((scope.slot? name).getD 0)] := .instr rfl rfl (Nat.zero_le a) rfl
    rw [List.length_cons, Nat.add_comm captured.length 1, ← Nat.add_assoc]
    exact hload.append ih

/-- what the code of an expression does to the stack: it adds one value -/
def AddsOne (e : Core) : Prop :=
  ∀ scope start g, Moves (fun _ _ => False) start 0 1 (genCode scope start e g).1

theorem genAll_moves {es : List Core} (h : ∀ e ∈ es, AddsOne e) (scope : Scope) (start a : Nat) (g : Gen) :
    Moves (fun _ _ => False) start a (a + es.length) (genAll scope start es g).1 := by
  induction es generalizing start a g with
  | nil => exact .nil
  | cons e es ih =>
    have he : Moves (fun _ _ => False) start a (a + 1) (genCode scope start e g).1 :=
      (h e List.mem_cons_self scope start g).above a
    rw [List.length_cons, Nat.add_comm es.length 1, ← Nat.add_assoc]
    exact he.append (ih (fun e' he' => h e' (List.mem_cons_of_mem e he')) _ _ _)

theorem letIn_moves {value body : Core} (hv : AddsOne value) (hb : AddsOne body) (name : String) :
    AddsOne (.letIn name value body) := by
  intro scope start g
  rw [genCode_letIn]
  have hfront : Moves (fun _ _ => False) start 0 0 (letFront scope start name value body g) := by
    have hbox : ∀ {at' : Nat},
        Moves (fun _ _ => False) at' 1 1 (if needsCell name body then [Instr.makeCell] else []) := by
      intro at'
      split
      · exact .instr rfl rfl (Nat.le_refl 1) rfl
      · exact .nil
    exact ((hv scope start (g.allocate name)).append hbox).append (.instr rfl rfl (Nat.le_refl 1) rfl)
  exact hfront.append (hb _ _ _)

/-- **The code of an expression adds one value to the stack,** and has no open jumps -/
theorem genCode_moves (e : Core) : AddsOne e := by
  induction e with
  | var name =>
    intro scope start g
    rw [genCode]
    exact loadCode_moves scope g name
  | val v =>
    intro scope start g
    rw [genCode]
    exact .instr rfl rfl (Nat.le_refl 0) rfl
  | quote v =>
    intro scope start g
    rw [genCode]
    exact .instr rfl rfl (Nat.le_refl 0) rfl
  | letIn name value body ihv ihb => exact letIn_moves ihv ihb name
  | lambda params rest body _ =>
    intro scope start g
    rw [genCode_lambda]
    refine (captureCode_moves scope _).append (.instr rfl rfl ?_ ?_)
    · simp [Instr.pops]
    · simp [Instr.pops, Instr.pushes]
  | app operator operands ihf ihas =>
    intro scope start g
    rw [genCode]
    let as := genAll scope start operands g
    have hoperands : Moves (fun _ _ => False) start 0 (0 + operands.length) as.1 := genAll_moves ihas scope start 0 g
    have hoperator : Moves (fun _ _ => False) (start + as.1.length) (0 + operands.length) (0 + operands.length + 1)
        (genCode scope (start + as.1.length) operator as.2).1 := (ihf _ _ _).above _
    refine (hoperands.append hoperator).append (.instr rfl rfl ?_ ?_)
    · simp [Instr.pops]
    · simp [Instr.pops, Instr.pushes]
  | branch test consequent alternative iht ihc iha =>
    intro scope start g
    cases alternative with
    | none =>
      rw [genCode_branch_none, genCode_branch]
      refine .branch (iht _ _ _) (ihc _ _ _) ?_
      rw [genCode]
      exact .instr rfl rfl (Nat.le_refl 0) rfl
    | some alternative =>
      rw [genCode_branch]
      exact .branch (iht _ _ _) (ihc _ _ _) (iha _ rfl _ _ _)
  | assign name value ih =>
    intro scope start g
    rw [genCode]
    exact (ih scope start g).append (storeCode_moves _ _ _)

end Generated

/-! ## Whole code -/

theorem take_of_codeAt {code fragment : List Instr} {start : Nat} (h : CodeAt code start fragment) :
    code.take (start + fragment.length) = code.take start ++ fragment := by
  rw [List.take_add]
  congr 1
  refine List.ext_getElem? fun i => ?_
  by_cases hi : i < fragment.length
  · rw [List.getElem?_take_of_lt hi, List.getElem?_drop, List.getElem?_eq_getElem hi]
    exact h i _ (List.getElem?_eq_getElem hi)
  · rw [List.getElem?_eq_none (by simp; omega), List.getElem?_eq_none (by omega)]

/-- where an instruction goes on, it falls through or jumps -/
theorem Instr.mem_successors {i : Instr} {index j : Nat} (h : j ∈ i.successors index) :
    i.fallsThrough = true ∧ j = index + 1 ∨ some j ∈ i.targets := by
  rcases List.mem_append.1 h with h | h
  · split at h
    · next hfalls => exact Or.inl ⟨hfalls, List.mem_singleton.1 h⟩
    · cases h
  · obtain ⟨t, ht, rfl⟩ := List.mem_filterMap.1 h
    exact Or.inr ht

/-- a jump of a fragment without open jumps goes ahead, to where the height is right -/
theorem Moves.target {start a b : Nat} {code : List Instr} (h : Moves (fun _ _ => False) start a b code) {i : Nat}
    {instr : Instr} (hi : code[i]? = some instr) {t : Option Nat} (ht : t ∈ instr.targets) :
    ∃ j, t = some j ∧ start + i < j ∧ j ≤ start + code.length ∧ ∀ h, heightAfter (h + a) (code.take (j - start)) =
      heightAfter (h + a) (code.take i) - instr.pops + instr.pushes := by
  obtain ⟨j, rfl, hlt, hinside | ⟨_, hfalse, _⟩⟩ := h.jumps i instr hi t ht
  · exact ⟨j, rfl, hlt, hinside⟩
  · exact hfalse.elim

/-- a fragment without open jumps is left at its end only -/
theorem Moves.stays {start a b : Nat} {code : List Instr} (h : Moves (fun _ _ => False) start a b code) {i : Nat}
    {instr : Instr} (hi : code[i]? = some instr) {j : Nat} (hj : j ∈ instr.successors (start + i)) :
    start + i < j ∧ j ≤ start + code.length := by
  have hlt := (List.getElem?_eq_some_iff.1 hi).1
  rcases Instr.mem_successors hj with ⟨-, rfl⟩ | ht
  · exact ⟨Nat.lt_succ_self _, by omega⟩
  · obtain ⟨k, hk, hlt, hle, -⟩ := h.target hi ht
    cases hk
    exact ⟨hlt, hle⟩

/-- an instruction of code with a `ret` behind it is one of the code, or that `ret` -/
theorem getElem?_append_ret {code : List Instr} {i : Nat} {instr : Instr} (h : (code ++ [.ret])[i]? = some instr) :
    code[i]? = some instr ∧ i < code.length ∨ instr = .ret ∧ i = code.length := by
  by_cases hlt : i < code.length
  · rw [List.getElem?_append_left hlt] at h
    exact Or.inl ⟨h, hlt⟩
  · rw [List.getElem?_append_right (by omega)] at h
    obtain ⟨hzero, rfl⟩ : i - code.length = 0 ∧ Instr.ret = instr := by simpa [List.getElem?_singleton] using h
    exact Or.inr ⟨rfl, by omega⟩

/-- a fragment that starts with an empty stack is disciplined code with a `ret` behind it -/
theorem Moves.disciplined {n : Nat} {code : List Instr} (h : Moves (fun _ _ => False) 0 0 n code) :
    Disciplined (code ++ [.ret]) (fun i => heightAfter 0 ((code ++ [Instr.ret]).take i)) n := by
  have htake : ∀ i ≤ code.length, (code ++ [Instr.ret]).take i = code.take i :=
    fun i hi => List.take_append_of_le_length hi
  have hsize : (code ++ [Instr.ret]).length = code.length + 1 := by simp
  refine ⟨rfl, ?_, ?_, ?_, ?_, ?_, ?_, ?_⟩
  · intro i instr hi
    rcases getElem?_append_ret hi with ⟨hi, hlt⟩ | ⟨rfl, -⟩
    · rw [htake i (Nat.le_of_lt hlt)]
      exact h.enough 0 i instr hi
    · exact Nat.zero_le _
  · intro i instr hi j hj
    rcases getElem?_append_ret hi with ⟨hi, hlt⟩ | ⟨rfl, -⟩
    · rcases Instr.mem_successors hj with ⟨hfalls, rfl⟩ | ht
      · refine ⟨by omega, ?_⟩
        rw [htake _ hlt, htake i (Nat.le_of_lt hlt), List.take_add_one, hi, Option.toList_some, heightAfter_append]
        exact Instr.heightBehind_of_fallsThrough hfalls _
      · obtain ⟨k, hk, -, hle, hheight⟩ := h.target hi ht
        cases hk
        refine ⟨by omega, ?_⟩
        rw [htake j (by omega), htake i (Nat.le_of_lt hlt)]
        exact hheight 0
    · cases hj
  · intro i instr hi t ht
    rcases getElem?_append_ret hi with ⟨hi, -⟩ | ⟨rfl, -⟩
    · obtain ⟨j, rfl, hlt, hle, -⟩ := h.target hi ht
      exact ⟨j, rfl, by omega, by omega⟩
    · cases ht
  · intro scope start e g hcode
    rw [take_of_codeAt hcode, heightAfter_append]
    exact (genCode_moves e scope start g).height _
  · intro scope start e g _ i instr hi j hj
    exact (genCode_moves e scope start g).stays hi hj
  · intro i
    constructor
    · intro hi
      rcases getElem?_append_ret hi with ⟨hi, -⟩ | ⟨-, rfl⟩
      · exact absurd (List.mem_of_getElem? hi) h.ret
      · exact hsize.symm
    · intro hi
      obtain rfl : i = code.length := by omega
      simp
  · rw [hsize, Nat.add_sub_cancel, htake _ (Nat.le_refl _), List.take_length]
    have hheight := h.height 0
    rwa [Nat.zero_add, Nat.zero_add] at hheight

/-! ## Programs -/

/-- the code of every procedure in the pool is disciplined, with one value at its `ret` -/
def PoolDisciplined (pool : List Constant) : Prop :=
  ∀ p, Constant.procedure p ∈ pool → ∃ height, Disciplined p.code height 1

/-- the code of a procedure is disciplined -/
theorem LambdaSite.disciplined (l : LambdaSite) : ∃ height, Disciplined l.procedure.code height 1 := by
  have hbody : Moves (fun _ _ => False) (0 + l.prologue.length) 0 1 l.bodyCode.1 := by
    rw [Nat.zero_add]
    exact genCode_moves _ _ _ _
  exact ⟨_, ((prologue_moves l.boxed).append hbody).disciplined⟩

theorem programCode_disciplined (exprs : List Core) (table : SymbolTable) :
    ∃ height, Disciplined (Program.ofCore exprs table).code height exprs.length := by
  have hcode : Moves (fun _ _ => False) 0 0 (0 + exprs.length) (genAll [] 0 exprs (.ofTable table)).1 :=
    genAll_moves (fun e _ => genCode_moves e) [] 0 0 (.ofTable table)
  rw [Nat.zero_add] at hcode
  exact ⟨_, hcode.disciplined⟩

theorem programPool_disciplined (exprs : List Core) (table : SymbolTable) :
    PoolDisciplined (Program.ofCore exprs table).constants := by
  intro p hp
  obtain ⟨l, rfl, -⟩ := programPool_sites exprs table p hp
  exact l.disciplined

/-- **Generated code keeps the discipline of the stack.** The code of a program is disciplined, with as many values at
its `ret` as it has expressions, and the code of every procedure in its pool is, with one. -/
theorem program_disciplined (exprs : List Core) (table : SymbolTable) :
    (∃ height, Disciplined (Program.ofCore exprs table).code height exprs.length) ∧
      ∀ p, Constant.procedure p ∈ (Program.ofCore exprs table).constants → ∃ height, Disciplined p.code height 1 :=
  ⟨programCode_disciplined exprs table, programPool_disciplined exprs table⟩

/-- a program of two expressions, one of which makes and calls a procedure with a conditional -/
theorem conditional_disciplined :
    let test := Core.lambda ["x"] none (.branch (.var "x") (.val (.integer 1)) none)
    let p := Program.ofCore [.letIn "f" test (.app (.var "f") [.var "g"]), .var "g"] .empty
    let code : List Instr :=
      [.load 0, .jumpIfFalse (some 4), .constant 0, .jump (some 5), .constant 1, .ret]
    (∃ height, Disciplined p.code height 2) ∧ Constant.procedure ⟨code, 1, false, [], 1⟩ ∈ p.constants ∧
      ∃ height, Disciplined code height 1 := by
  intro test p code
  have hmem : Constant.procedure ⟨code, 1, false, [], 1⟩ ∈ p.constants := by decide +kernel
  obtain ⟨hcode, hpool⟩ := program_disciplined [.letIn "f" test (.app (.var "f") [.var "g"]), .var "g"] .empty
  exact ⟨hcode, hmem, hpool _ hmem⟩

end SchemeStack
