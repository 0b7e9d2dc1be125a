/-
How the constant pool and the frames of generated code are laid out.

All code of a program adds to one pool, and each procedure has a frame of its own. `program_layout` says of the code
of the top level and of all procedures together:
- every entry of the pool is referred to by one instruction, a value by a `constant`, a procedure by a `closure` that
  takes as many values as the procedure captures (`PoolLayout`);
- the code of a procedure refers to earlier entries only (`ProcedureLayout`);
- a frame has a slot for each captured variable, each parameter and each binding of the code that runs in it, no
  instruction names another slot, each binding's slot is filled by one `bind`, and none fills a captured slot
  (`FrameLayout`).

What some code refers to is found by induction along the rules by which it is emitted: up to order, it is the list of
the entries that were added for it (`Emits.references`). The slots that it fills are those that were given out for it
(`Emits.slotUse`), one for each binding outside inner procedures (`Emits.nextSlot_eq`).
-/
import Mathlib.Data.List.Nodup
import SchemeStack.Proofs.CellDiscipline
import SchemeStack.Proofs.Emission

namespace SchemeStack

/-! ## The layout -/

namespace Instr

/-- the entry of the pool that an instruction refers to, and how many values a closure takes for it -/
def reference? : Instr → Option (Nat × Option Nat)
  | constant index => some (index, none)
  | closure index captured => some (index, some captured)
  | _ => none

def poolIndex? (i : Instr) : Option Nat := i.reference?.map (·.1)

/-- the slot that an instruction names -/
def slotOperand? : Instr → Option Nat
  | bind slot => some slot
  | load slot => some slot
  | store slot => some slot
  | loadCell slot => some slot
  | storeCell slot => some slot
  | _ => none

end Instr

/-- how many values a closure of the entry takes, if it is a procedure -/
def Constant.captures? : Constant → Option Nat
  | .value _ => none
  | .procedure p => some p.captured.length

namespace Core

mutual

/-- the number of bindings of an expression outside the procedures in it -/
def letCount : Core → Nat
  | var _ => 0
  | val _ => 0
  | quote _ => 0
  | letIn _ value body => 1 + value.letCount + body.letCount
  | lambda _ _ _ => 0
  | app operator operands => letCountAll operands + operator.letCount
  | branch test consequent none => test.letCount + consequent.letCount
  | branch test consequent (some alternative) => test.letCount + consequent.letCount + alternative.letCount
  | assign _ value => value.letCount

def letCountAll : List Core → Nat
  | [] => 0
  | e :: es => e.letCount + letCountAll es

end

end Core

/-- the entries of the pool and the instructions that refer to them -/
structure PoolLayout (p : Program) : Prop where
  once : ∀ index < p.constants.length, (p.wholeCode.filterMap Instr.poolIndex?).count index = 1
  values : ∀ index, .constant index ∈ p.wholeCode → ∃ v, p.constants[index]? = some (.value v)
  closures : ∀ index captured, .closure index captured ∈ p.wholeCode →
    ∃ q, p.constants[index]? = some (.procedure q) ∧ captured = q.captured.length

/-- the slots of a frame that its code names: the first `captured` are captured, the first `given` filled on entry, the
others belong to bindings -/
structure FrameLayout (code : List Instr) (captured given size : Nat) : Prop where
  below : ∀ i ∈ code, ∀ slot ∈ i.slotOperand?, slot < size
  bound : ∀ slot, given ≤ slot → slot < size → code.count (.bind slot) = 1
  captured : ∀ slot < captured, .bind slot ∉ code

/-- the procedure at an index of the pool, and the procedure of the source that it was made from -/
structure ProcedureLayout (l : EnclosedLambda) (index : Nat) (q : Procedure) : Prop where
  compiled : l.CompilesTo q
  earlier : ∀ i ∈ q.code, ∀ k ∈ i.poolIndex?, k < index
  size : q.frameSize = q.captured.length + l.params.length + l.rest.toList.length + l.body.letCount
  frame : FrameLayout q.code q.captured.length q.slotsGiven q.frameSize

section Emitted

variable {scope : Scope} {es : List Core} {g g' : Gen} {code : List Instr} {added : List Constant}

/-! ## References -/

/-- what refers to constants whose indices start from some index, if each is referred to once and rightly -/
def referencesFrom (start : Nat) (constants : List Constant) : List (Nat × Option Nat) :=
  (constants.zipIdx start).map fun (c, n) => (n, c.captures?)

theorem referencesFrom_append (start : Nat) (as bs : List Constant) :
    referencesFrom start (as ++ bs) = referencesFrom start as ++ referencesFrom (start + as.length) bs := by
  rw [referencesFrom, List.zipIdx_append, List.map_append]
  rfl

theorem mem_referencesFrom {start index : Nat} {constants : List Constant} {kind : Option Nat}
    (h : (index, kind) ∈ referencesFrom start constants) :
    ∃ c, start ≤ index ∧ constants[index - start]? = some c ∧ c.captures? = kind := by
  obtain ⟨⟨c, n⟩, hmem, heq⟩ := List.mem_map.1 h
  cases heq
  obtain ⟨hle, hc⟩ := List.mk_mem_zipIdx_iff_le_and_getElem?_sub.1 hmem
  exact ⟨c, hle, hc, rfl⟩

theorem Instr.reference?_of_isPlain (i : Instr) (h : i.isPlain = true) : i.reference? = none := by
  cases i with
  | constant index => cases h
  | closure index captured => cases h
  | _ => rfl

/-- **Each constant that is added is referred to once** by the code that was made with it, and rightly -/
theorem Emits.references (h : Emits scope es g code added g') :
    ((wholeCode code added).filterMap Instr.reference?).Perm (referencesFrom g.nextIndex added) := by
  have hplain := Instr.reference?_of_isPlain
  induction h with
  | nil => exact .nil
  | @cons scope e es g g₁ g₂ c c' n n' h _ ih ih' =>
    rw [h.nextIndex_eq] at ih'
    rw [referencesFrom_append]
    exact (filterMap_wholeCode_append List.filterMap_append n n').trans (ih.append ih')
  | readGlobal _ => exact .nil
  | readSlot _ hi =>
    rw [filterMap_wholeCode, filterMap_plain hplain (by simpa using Instr.isPlain_of_read hi)]
    exact .nil
  | value => exact .refl _
  | quoted => exact .refl _
  | @letIn scope name value body g g₁ g₂ c c' box n n' cells hbox h _ ih ih' =>
    have hindex : Gen.nextIndex { g₁ with cells := cells } = g.nextIndex + n.length := h.nextIndex_eq
    rw [hindex] at ih'
    rw [referencesFrom_append]
    exact (filterMap_wholeCode_append (filterMap_letCode hplain hbox _) n n').trans (ih.append ih')
  | @lambda l n h ih =>
    have hindex : l.outer.nextIndex = l.gen.nextIndex + n.length := h.nextIndex_eq
    rw [referencesFrom_append, ← hindex]
    exact (l.filterMap_closure hplain _ n).trans (ih.append_right _)
  | @app scope operator operands g g₁ g₂ c c' n n' h _ ih ih' =>
    have hcode := (filterMap_behind hplain (i := .call operands.length) rfl (c ++ c')).trans List.filterMap_append
    rw [h.nextIndex_eq] at ih'
    rw [referencesFrom_append]
    exact (filterMap_wholeCode_append hcode n n').trans (ih.append ih')
  | @branch scope test consequent alternative g g₁ g₂ g₃ c c' c'' n n' n'' start h h' _ ih ih' ih'' =>
    rw [h.nextIndex_eq] at ih'
    rw [h'.nextIndex_eq, h.nextIndex_eq] at ih''
    rw [referencesFrom_append, referencesFrom_append, List.length_append, ← Nat.add_assoc]
    have hfront := (filterMap_wholeCode_append List.filterMap_append n n').trans (ih.append ih')
    exact (filterMap_wholeCode_append (filterMap_branchCode hplain start) (n ++ n') n'').trans (hfront.append ih'')
  | oneArmed _ ih => exact ih
  | writeGlobal _ _ ih =>
    rw [filterMap_wholeCode] at ih ⊢
    rwa [List.filterMap_append, show [Instr.storeGlobal _].filterMap Instr.reference? = [] from rfl, List.append_nil]
  | writeSlot _ hi _ ih =>
    rw [filterMap_wholeCode] at ih ⊢
    rwa [filterMap_behind hplain (Instr.isPlain_of_write hi)]

/-! ## Slots -/

/-- a slot is given out for each binding -/
theorem Emits.nextSlot_eq (h : Emits scope es g code added g') : g'.nextSlot = g.nextSlot + Core.letCountAll es := by
  induction h with
  | nil => rfl
  | cons _ _ ih ih' =>
    simp only [Core.letCountAll] at ih ih' ⊢
    omega
  | readGlobal _ => rfl
  | readSlot _ _ => rfl
  | value => rfl
  | quoted => rfl
  | @letIn scope name value body g g₁ g₂ c c' box n n' cells _ _ _ ih ih' =>
    have hnew : (g.allocate name).nextSlot = g.nextSlot + 1 := by simp [Gen.allocate, Gen.nextSlot]
    have hsame : Gen.nextSlot { g₁ with cells := cells } = g₁.nextSlot := rfl
    simp only [Core.letCountAll, Core.letCount] at ih ih' ⊢
    omega
  | lambda _ _ => rfl
  | app _ _ ih ih' =>
    simp only [Core.letCountAll, Core.letCount] at ih ih' ⊢
    omega
  | branch _ _ _ ih ih' ih'' =>
    simp only [Core.letCountAll, Core.letCount] at ih ih' ih'' ⊢
    omega
  | oneArmed _ ih =>
    simp only [Core.letCountAll, Core.letCount, Core.falsity] at ih ⊢
    omega
  | writeGlobal _ _ ih => exact ih
  | writeSlot _ _ _ ih => exact ih

/-- the code names slots below `b` only, and fills each of the slots from `a` to `b` once and no other -/
structure SlotUse (a b : Nat) (code : List Instr) : Prop where
  le : a ≤ b
  below : ∀ i ∈ code, ∀ slot ∈ i.slotOperand?, slot < b
  binds : ∀ slot, code.count (.bind slot) = if a ≤ slot ∧ slot < b then 1 else 0

namespace SlotUse

variable {a b d : Nat} {c c' : List Instr}

theorem append (h : SlotUse a b c) (h' : SlotUse b d c') : SlotUse a d (c ++ c') := by
  have hle := h.le
  have hle' := h'.le
  refine ⟨Nat.le_trans hle hle', ?_, ?_⟩
  · intro i hi slot hslot
    rcases List.mem_append.1 hi with hi | hi
    · exact Nat.lt_of_lt_of_le (h.below i hi slot hslot) hle'
    · exact h'.below i hi slot hslot
  · intro slot
    rw [List.count_append, h.binds, h'.binds]
    split_ifs <;> omega

/-- code that fills no slot -/
theorem reads (h : ∀ i ∈ c, (∀ slot, i ≠ .bind slot) ∧ ∀ slot ∈ i.slotOperand?, slot < a) : SlotUse a a c := by
  refine ⟨Nat.le_refl a, fun i hi => (h i hi).2, ?_⟩
  intro slot
  have hnot : .bind slot ∉ c := fun hmem => (h _ hmem).1 slot rfl
  rw [List.count_eq_zero_of_not_mem hnot, if_neg (by omega)]

theorem nil (a : Nat) : SlotUse a a [] := reads nofun

/-- an instruction without a slot -/
theorem instr {i : Instr} (h : i.slotOperand? = none) (a : Nat) : SlotUse a a [i] := by
  apply reads
  intro j hj
  cases List.mem_singleton.1 hj
  refine ⟨?_, by simp [h]⟩
  intro slot heq
  rw [heq] at h
  cases h

/-- an instruction that names a slot and does not fill it -/
theorem use {i : Instr} {slot : Nat} (h : i.slotOperand? = some slot) (hbind : i ≠ .bind slot) (hlt : slot < a) :
    SlotUse a a [i] := by
  apply reads
  intro j hj
  cases List.mem_singleton.1 hj
  constructor
  · intro slot' heq
    rw [heq] at h
    cases h
    exact hbind heq
  · intro slot' hslot'
    rw [h] at hslot'
    cases hslot'
    exact hlt

theorem read {i : Instr} {slot : Nat} (h : i = .load slot ∨ i = .loadCell slot) (hlt : slot < a) : SlotUse a a [i] := by
  rcases h with rfl | rfl
  · exact use rfl nofun hlt
  · exact use rfl nofun hlt

theorem write {i : Instr} {slot : Nat} (h : i = .store slot ∨ i = .storeCell slot) (hlt : slot < a) :
    SlotUse a a [i] := by
  rcases h with rfl | rfl
  · exact use rfl nofun hlt
  · exact use rfl nofun hlt

theorem makeCells {box : List Instr} (h : ∀ i ∈ box, i = .makeCell) (a : Nat) : SlotUse a a box := by
  apply reads
  intro i hi
  rw [h i hi]
  exact ⟨nofun, nofun⟩

/-- what is captured is pushed from slots of the scope -/
theorem closure {l : LambdaSite} (h : ∀ x slot, l.scope.slot? x = some slot → slot < a) (index : Nat) :
    SlotUse a a (closureCode l.scope l.captured index) := by
  apply reads
  intro i hi
  rcases List.mem_append.1 hi with hi | hi
  · obtain ⟨x, hx, rfl⟩ := List.mem_map.1 hi
    obtain ⟨slot, hslot⟩ := Option.isSome_iff_exists.1 (l.mem_captured.1 hx).2
    refine ⟨nofun, fun slot' hslot' => ?_⟩
    rw [hslot] at hslot'
    cases hslot'
    exact h x slot hslot
  · cases List.mem_singleton.1 hi
    exact ⟨nofun, nofun⟩

/-- the slot of a binding is filled behind its value -/
theorem bind (h : SlotUse (a + 1) b c) : SlotUse a b (c ++ [.bind a]) := by
  have hle := h.le
  refine ⟨by omega, ?_, ?_⟩
  · intro i hi slot hslot
    rcases List.mem_append.1 hi with hi | hi
    · exact h.below i hi slot hslot
    · cases List.mem_singleton.1 hi
      cases hslot
      omega
  · intro slot
    have hlast : [Instr.bind a].count (.bind slot) = if a = slot then 1 else 0 := by simp [List.count_singleton]
    rw [List.count_append, h.binds, hlast]
    split_ifs <;> omega

end SlotUse

/-- **The code of an expression fills the slots that were given out for it,** each once, if the slots of its scope are
older -/
theorem Emits.slotUse (h : Emits scope es g code added g')
    (hscope : ∀ x slot, scope.slot? x = some slot → slot < g.nextSlot) :
    SlotUse g.nextSlot g'.nextSlot code := by
  induction h with
  | @nil scope g => exact .nil _
  | @cons scope e es g g₁ g₂ c c' n n' h _ ih ih' =>
    have hfront := ih hscope
    exact hfront.append (ih' fun x slot hslot => Nat.lt_of_lt_of_le (hscope x slot hslot) hfront.le)
  | readGlobal _ => exact .instr rfl _
  | readSlot hslot hi => exact .read hi (hscope _ _ hslot)
  | value => exact .instr rfl _
  | quoted => exact .instr rfl _
  | @letIn scope name value body g g₁ g₂ c c' box n n' cells hbox h _ ih ih' =>
    have hnew : (g.allocate name).nextSlot = g.nextSlot + 1 := by simp [Gen.allocate, Gen.nextSlot]
    have hvalue := ih fun x slot hslot => by have := hscope x slot hslot; omega
    rw [hnew] at hvalue
    have hfront := (hvalue.append (.makeCells hbox _)).bind
    refine hfront.append (ih' ?_)
    intro x slot hslot
    have hle := hvalue.le
    rw [Scope.slot?_cons] at hslot
    change slot < g₁.nextSlot
    split at hslot
    · cases hslot
      omega
    · have := hscope x slot hslot
      omega
  | lambda _ _ => exact .closure hscope _
  | @app scope operator operands g g₁ g₂ c c' n n' _ _ ih ih' =>
    have hoperands := ih hscope
    have hoperator := ih' fun x slot hslot => Nat.lt_of_lt_of_le (hscope x slot hslot) hoperands.le
    exact (hoperands.append hoperator).append (.instr rfl _)
  | @branch scope test consequent alternative g g₁ g₂ g₃ c c' c'' n n' n'' start _ _ _ ih ih' ih'' =>
    have htest := ih hscope
    have hconsequent := ih' fun x slot hslot => Nat.lt_of_lt_of_le (hscope x slot hslot) htest.le
    have halternative := ih'' fun x slot hslot =>
      Nat.lt_of_lt_of_le (hscope x slot hslot) (Nat.le_trans htest.le hconsequent.le)
    exact (((htest.append (.instr rfl _)).append hconsequent).append (.instr rfl _)).append halternative
  | oneArmed _ ih => exact ih hscope
  | writeGlobal _ _ ih => exact (ih hscope).append (.instr rfl _)
  | @writeSlot scope name value slot i g g' c n hslot hi _ ih =>
    have hvalue := ih hscope
    exact hvalue.append (.write hi (Nat.lt_of_lt_of_le (hscope _ _ hslot) hvalue.le))

/-- the layout of a frame whose bindings start behind the slots that are given -/
theorem SlotUse.frameLayout {captured given size : Nat} (h : SlotUse given size code) (front : List Instr)
    (hfront : ∀ i ∈ front, ∀ slot ∈ i.slotOperand?, captured ≤ slot ∧ slot < given) (hcaptured : captured ≤ given) :
    FrameLayout (front ++ code ++ [.ret]) captured given size := by
  have hle := h.le
  have hnot : ∀ slot, slot < captured ∨ given ≤ slot → .bind slot ∉ front := by
    intro slot hslot hmem
    have := hfront _ hmem slot rfl
    omega
  constructor
  · intro i hi slot hslot
    rcases List.mem_append.1 hi with hi | hi
    · rcases List.mem_append.1 hi with hi | hi
      · have := hfront i hi slot hslot
        omega
      · exact h.below i hi slot hslot
    · cases List.mem_singleton.1 hi
      cases hslot
  · intro slot hgiven hsize
    rw [List.count_append, List.count_append, List.count_eq_zero_of_not_mem (hnot slot (Or.inr hgiven)), h.binds,
      if_pos ⟨hgiven, hsize⟩]
    rfl
  · intro slot hslot
    rw [← List.count_eq_zero, List.count_append, List.count_append,
      List.count_eq_zero_of_not_mem (hnot slot (Or.inl hslot)), h.binds, if_neg (by omega)]
    rfl

end Emitted

/-! ## Procedures -/

namespace LambdaSite

variable (l : LambdaSite)

/-- the code of a procedure refers to what was added for it only, which comes before its own entry -/
theorem reference_lt {i : Instr} {k : Nat} (hi : i ∈ l.procedure.code) (hk : k ∈ i.poolIndex?) :
    k < l.outer.nextIndex := by
  obtain ⟨n, hn⟩ := genCode_emits l.body (frameScope l.names) l.prologue.length l.inner
  obtain ⟨⟨k', kind⟩, href, heq⟩ := Option.map_eq_some_iff.1 hk
  cases heq
  have hcode : (k', kind) ∈ l.bodyCode.1.filterMap Instr.reference? := by
    rw [← l.filterMap_procedure Instr.reference?_of_isPlain]
    exact List.mem_filterMap.2 ⟨i, hi, href⟩
  have hwhole : (k', kind) ∈ (wholeCode l.bodyCode.1 n).filterMap Instr.reference? := by
    rw [filterMap_wholeCode]
    exact List.mem_append_left _ hcode
  obtain ⟨c, hle, hc, -⟩ := mem_referencesFrom (hn.references.mem_iff.1 hwhole)
  have hlt := (List.getElem?_eq_some_iff.1 hc).1
  have hindex : l.outer.nextIndex = l.inner.nextIndex + n.length := hn.nextIndex_eq
  change k' < _
  omega

theorem frameSize_eq : l.procedure.frameSize = l.names.length + l.body.letCount := by
  obtain ⟨n, hn⟩ := genCode_emits l.body (frameScope l.names) l.prologue.length l.inner
  exact hn.nextSlot_eq

theorem frameLayout :
    FrameLayout l.procedure.code l.procedure.captured.length l.procedure.slotsGiven l.procedure.frameSize := by
  obtain ⟨n, hn⟩ := genCode_emits l.body (frameScope l.names) l.prologue.length l.inner
  have huse := hn.slotUse fun x slot => frameScope_below
  have hgiven : l.inner.nextSlot = l.captured.length + l.binders.length := List.length_append
  rw [l.slotsGiven_eq]
  refine huse.frameLayout l.prologue ?_ ?_
  · intro i hi slot hslot
    obtain ⟨s, hs, hi⟩ := List.mem_flatMap.1 hi
    obtain ⟨hle, hlt⟩ := le_of_mem_paramCells hs
    simp only [cellArgument, List.mem_cons, List.not_mem_nil, or_false] at hi
    have hslot' : slot = s := by
      rcases hi with rfl | rfl | rfl
      · exact (Option.some.inj hslot).symm
      · cases hslot
      · exact (Option.some.inj hslot).symm
    rw [hslot', hgiven]
    exact ⟨hle, hlt⟩
  · rw [hgiven]
    exact Nat.le_add_right _ _

end LambdaSite

theorem StemsFrom.layout {l : EnclosedLambda} {entry : Nat × Procedure} (h : StemsFrom l entry) :
    ProcedureLayout l entry.1 entry.2 := by
  obtain ⟨site, hexpr, rfl, -⟩ := h
  refine ⟨⟨site, hexpr, rfl⟩, fun i hi k hk => site.reference_lt hi hk, ?_, site.frameLayout⟩
  obtain ⟨scope, params, rest, body, g⟩ := site
  obtain ⟨bound, params', rest', body'⟩ := l
  cases hexpr
  rw [LambdaSite.frameSize_eq]
  simp only [LambdaSite.names, LambdaSite.binders, Core.binders, List.length_append, ← Nat.add_assoc]
  rfl

/-! ## Programs -/

theorem program_poolLayout (exprs : List Core) (table : SymbolTable) : PoolLayout (Program.ofCore exprs table) := by
  let p := Program.ofCore exprs table
  obtain ⟨code, g, hemits, hcode, -⟩ := program_emits exprs table
  have hrefs : (p.wholeCode.filterMap Instr.reference?).Perm (referencesFrom 0 p.constants) := by
    have hret : p.code.filterMap Instr.reference? = code.filterMap Instr.reference? := by
      rw [show p.code = code ++ [.ret] from hcode]
      exact filterMap_behind Instr.reference?_of_isPlain rfl code
    rw [Program.wholeCode, filterMap_wholeCode, hret, ← filterMap_wholeCode]
    exact hemits.references
  have hentry : ∀ i ∈ p.wholeCode, ∀ index kind, i.reference? = some (index, kind) →
      ∃ c, p.constants[index]? = some c ∧ c.captures? = kind := by
    intro i hi index kind href
    obtain ⟨c, -, hc, hkind⟩ := mem_referencesFrom (hrefs.mem_iff.1 (List.mem_filterMap.2 ⟨i, hi, href⟩))
    exact ⟨c, hc, hkind⟩
  refine ⟨?_, ?_, ?_⟩
  · intro index (hindex : index < p.constants.length)
    have hindices : (p.wholeCode.filterMap Instr.poolIndex?).Perm (List.range' 0 p.constants.length) := by
      have hmap : p.wholeCode.filterMap Instr.poolIndex? = (p.wholeCode.filterMap Instr.reference?).map (·.1) := by
        rw [List.map_filterMap]
        rfl
      have hrange : (referencesFrom 0 p.constants).map (·.1) = List.range' 0 p.constants.length := by
        rw [referencesFrom, List.map_map, ← List.zipIdx_map_snd 0 p.constants]
        rfl
      rw [hmap, ← hrange]
      exact hrefs.map _
    rw [hindices.count_eq]
    exact List.count_eq_one_of_mem List.nodup_range' (List.mem_range'_1.2 ⟨Nat.zero_le _, by omega⟩)
  · intro index hmem
    obtain ⟨c, hc, hkind⟩ := hentry _ hmem index none rfl
    cases c with
    | value v => exact ⟨v, hc⟩
    | procedure q => cases hkind
  · intro index captured hmem
    obtain ⟨c, hc, hkind⟩ := hentry _ hmem index (some captured) rfl
    cases c with
    | value v => cases hkind
    | procedure q => exact ⟨q, hc, (Option.some.inj hkind).symm⟩

/-- **The pool and the frames of a program are laid out consistently.** Each entry of the pool is referred to once and
rightly; the top level has one slot for each binding outside procedures; and the procedures of the pool, in the order of
those of the source, refer to earlier entries and have frames of the right size. -/
theorem program_layout (exprs : List Core) (table : SymbolTable) :
    let p := Program.ofCore exprs table
    PoolLayout p ∧ p.frameSize = Core.letCountAll exprs ∧ FrameLayout p.code 0 0 p.frameSize ∧
      List.Forall₂ (fun l entry => ProcedureLayout l entry.1 entry.2) (Core.lambdasAll [] exprs) p.procedures := by
  intro p
  obtain ⟨code, g, hemits, hcode, hsize, -⟩ := program_emits exprs table
  have hslots : g.nextSlot = Core.letCountAll exprs := hemits.nextSlot_eq.trans (Nat.zero_add _)
  have huse : SlotUse 0 p.frameSize code := by
    rw [hsize]
    exact hemits.slotUse nofun
  refine ⟨program_poolLayout exprs table, hsize.trans hslots, ?_, (program_stems exprs table).imp fun _ _ =>
    StemsFrom.layout⟩
  rw [hcode]
  exact huse.frameLayout [] nofun (Nat.le_refl 0)

end SchemeStack
