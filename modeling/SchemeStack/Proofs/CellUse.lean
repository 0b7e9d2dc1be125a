/-
Which slots the code of a procedure uses as cells.

Code uses a slot as a cell (`UsesCell`) if it reads or writes the cell in it, or pushes the slot for a closure whose
procedure uses what it captures there as a cell. This says nothing of how the code came about.

Generated code uses a slot of its frame as a cell exactly if the slot is one of the cells and belongs to a variable
that is free in the expression (`genCode_usesCell`). A procedure captures only what is free in it, and captures it
once. So it uses all the cells it captures as cells, and nothing else that it captures (`LambdaSite.usesCell_iff`):
the frame that makes the closure and the frame of the procedure agree about them.

The slots that a closure captures are pushed right before it, and no expression ends between them. So what a sequence
of fragments uses is what each of them uses (`usesCell_append`).
-/
import SchemeStack.Proofs.CodeLayout

namespace SchemeStack

/-! ## Code that uses a slot as a cell -/

/-- the code uses the slot as a cell: for its own, or by handing it on to a procedure that does -/
inductive UsesCell (pool : List Constant) : List Instr → Nat → Prop
  | load {code : List Instr} {slot : Nat} : .loadCell slot ∈ code → UsesCell pool code slot
  | store {code : List Instr} {slot : Nat} : .storeCell slot ∈ code → UsesCell pool code slot
  | handOn {code : List Instr} {slot first count index k : Nat} {p : Procedure} :
    code[first + count]? = some (.closure index count) → pool[index]? = some (.procedure p) → k < count →
    code[first + k]? = some (.load slot) → UsesCell pool p.code k → UsesCell pool code slot

/-- whatever a closure in the code captures is pushed in the code -/
def CapturesInside (code : List Instr) : Prop :=
  ∀ i index count : Nat, code[i]? = some (.closure index count) → count ≤ i

def Instr.isClosure : Instr → Bool
  | closure _ _ => true
  | _ => false

/-- an instruction that neither uses a cell nor makes a closure -/
def Instr.leavesCells : Instr → Bool
  | loadCell _ => false
  | storeCell _ => false
  | closure _ _ => false
  | _ => true

section UsesCell

variable {pool : List Constant} {a b code : List Instr} {slot : Nat}

theorem CapturesInside.append (ha : CapturesInside a) (hb : CapturesInside b) : CapturesInside (a ++ b) := by
  intro i index count hi
  by_cases hlt : i < a.length
  · rw [List.getElem?_append_left hlt] at hi
    exact ha i index count hi
  · rw [List.getElem?_append_right (by omega)] at hi
    have := hb _ index count hi
    omega

theorem CapturesInside.nil : CapturesInside [] := nofun

theorem CapturesInside.instr {i : Instr} (h : i.isClosure = false) : CapturesInside [i] := by
  intro k index count hk
  cases List.mem_singleton.1 (List.mem_of_getElem? hk)
  cases h

theorem not_usesCell (h : ∀ i ∈ code, i.leavesCells = true) : ¬UsesCell pool code slot := by
  intro huses
  cases huses with
  | load hmem => cases h _ hmem
  | store hmem => cases h _ hmem
  | handOn hclosure => cases h _ (List.mem_of_getElem? hclosure)

theorem UsesCell.append_left (h : UsesCell pool a slot) (b : List Instr) : UsesCell pool (a ++ b) slot := by
  have hkept : ∀ {i : Nat} {instr}, a[i]? = some instr → (a ++ b)[i]? = some instr := by
    intro i instr hi
    rw [List.getElem?_append_left (List.getElem?_eq_some_iff.1 hi).1]
    exact hi
  cases h with
  | load hmem => exact .load (List.mem_append_left b hmem)
  | store hmem => exact .store (List.mem_append_left b hmem)
  | handOn hclosure hp hk hload huses => exact .handOn (hkept hclosure) hp hk (hkept hload) huses

theorem UsesCell.append_right (h : UsesCell pool b slot) (a : List Instr) : UsesCell pool (a ++ b) slot := by
  have hkept : ∀ {i : Nat} {instr}, b[i]? = some instr → (a ++ b)[a.length + i]? = some instr := by
    intro i instr hi
    rw [List.getElem?_append_right (by omega), Nat.add_sub_cancel_left]
    exact hi
  cases h with
  | load hmem => exact .load (List.mem_append_right a hmem)
  | store hmem => exact .store (List.mem_append_right a hmem)
  | handOn hclosure hp hk hload huses =>
    have hclosure' := hkept hclosure
    have hload' := hkept hload
    rw [← Nat.add_assoc] at hclosure' hload'
    exact .handOn hclosure' hp hk hload' huses

theorem usesCell_append (hb : CapturesInside b) :
    UsesCell pool (a ++ b) slot ↔ UsesCell pool a slot ∨ UsesCell pool b slot := by
  refine ⟨fun h => ?_, fun h => h.elim (·.append_left b) (·.append_right a)⟩
  cases h with
  | load hmem => exact (List.mem_append.1 hmem).imp .load .load
  | store hmem => exact (List.mem_append.1 hmem).imp .store .store
  | @handOn _ _ first count index k p hclosure hp hk hload huses =>
    by_cases hlt : first + count < a.length
    · rw [List.getElem?_append_left hlt] at hclosure
      rw [List.getElem?_append_left (by omega)] at hload
      exact Or.inl (.handOn hclosure hp hk hload huses)
    · -- the closure is in the second fragment, and so is all that it captures
      rw [List.getElem?_append_right (by omega)] at hclosure
      have hinside := hb _ _ _ hclosure
      obtain ⟨first', rfl⟩ : ∃ first', first = a.length + first' := ⟨first - a.length, by omega⟩
      rw [List.getElem?_append_right (by omega)] at hload
      rw [show a.length + first' + count - a.length = first' + count by omega] at hclosure
      rw [show a.length + first' + k - a.length = first' + k by omega] at hload
      exact Or.inr (.handOn hclosure hp hk hload huses)

end UsesCell

/-! ## What generated code captures -/

theorem captureCode_length (scope : Scope) (captured : List String) :
    (captureCode scope captured).length = captured.length :=
  List.length_map _

/-- the code that makes a closure: what it captures is pushed first -/
def closureCode (scope : Scope) (captured : List String) (index : Nat) : List Instr :=
  captureCode scope captured ++ [.closure index captured.length]

theorem getElem?_closureCode {scope : Scope} {captured : List String} {index i : Nat} {instr : Instr} :
    (closureCode scope captured index)[i]? = some instr ↔
      (∃ x, captured[i]? = some x ∧ .load ((scope.slot? x).getD 0) = instr) ∨
        i = captured.length ∧ .closure index captured.length = instr := by
  have hlen := captureCode_length scope captured
  unfold closureCode
  by_cases hlt : i < captured.length
  · rw [List.getElem?_append_left (by omega)]
    simp [captureCode, Nat.ne_of_lt hlt]
  · have hnone : captured[i]? = none := List.getElem?_eq_none (by omega)
    have hlast : i - captured.length = 0 ↔ i = captured.length := by omega
    rw [List.getElem?_append_right (by omega), hlen, hnone, List.getElem?_singleton]
    simp [hlast]

theorem closureCode_capturesInside (scope : Scope) (captured : List String) (index : Nat) :
    CapturesInside (closureCode scope captured index) := by
  intro i index' count hi
  rcases getElem?_closureCode.1 hi with ⟨x, -, hx⟩ | ⟨hlast, hclosure⟩
  · cases hx
  · cases hclosure
    omega

theorem genAll_capturesInside {es : List Core}
    (h : ∀ e ∈ es, ∀ scope start g, CapturesInside (genCode scope start e g).1) (scope : Scope)
    (start : Nat) (g : Gen) :
    CapturesInside (genAll scope start es g).1 := by
  induction es generalizing start g with
  | nil => exact .nil
  | cons e es ih =>
    have he := h e List.mem_cons_self scope start g
    exact he.append (ih (fun e' he' => h e' (List.mem_cons_of_mem e he')) _ _)

theorem loadCode_capturesInside (scope : Scope) (g : Gen) (name : String) :
    CapturesInside (loadCode scope g name).1 := by
  unfold loadCode
  split
  · exact .instr rfl
  · dsimp only
    split
    · exact .instr rfl
    · exact .instr rfl

theorem storeCode_capturesInside (scope : Scope) (g : Gen) (name : String) :
    CapturesInside (storeCode scope g name).1 := by
  unfold storeCode
  split
  · exact .instr rfl
  · dsimp only
    split
    · exact .instr rfl
    · exact .instr rfl

theorem branchCode_capturesInside {start : Nat} {t c a : List Instr} (ht : CapturesInside t) (hc : CapturesInside c)
    (ha : CapturesInside a) : CapturesInside (branchCode start t c a) := by
  have htest : ∀ target, CapturesInside [.jumpIfFalse target] := fun target => .instr rfl
  have hover : ∀ target, CapturesInside [.jump target] := fun target => .instr rfl
  exact (((ht.append (htest _)).append hc).append (hover _)).append ha

theorem genCode_capturesInside (e : Core) (scope : Scope) (start : Nat) (g : Gen) :
    CapturesInside (genCode scope start e g).1 := by
  induction e generalizing scope start g with
  | var name =>
    rw [genCode]
    exact loadCode_capturesInside scope g name
  | val v =>
    rw [genCode]
    exact .instr rfl
  | quote v =>
    rw [genCode]
    exact .instr rfl
  | letIn name value body ihv ihb =>
    rw [genCode_letIn]
    have hbox : CapturesInside (if needsCell name body then [Instr.makeCell] else []) := by
      split
      · exact .instr rfl
      · exact .nil
    have hbind : CapturesInside [.bind g.nextSlot] := .instr rfl
    exact (((ihv _ _ _).append hbox).append hbind).append (ihb _ _ _)
  | lambda params rest body _ =>
    rw [genCode_lambda]
    exact closureCode_capturesInside _ _ _
  | app operator operands ihf ihas =>
    rw [genCode]
    exact ((genAll_capturesInside ihas _ _ _).append (ihf _ _ _)).append (.instr rfl)
  | branch test consequent alternative iht ihc iha =>
    cases alternative with
    | none =>
      rw [genCode_branch_none, genCode_branch]
      refine branchCode_capturesInside (iht _ _ _) (ihc _ _ _) ?_
      rw [genCode]
      exact .instr rfl
    | some alternative =>
      rw [genCode_branch]
      exact branchCode_capturesInside (iht _ _ _) (ihc _ _ _) (iha _ rfl _ _ _)
  | assign name value ih =>
    rw [genCode]
    exact (ih _ _ _).append (storeCode_capturesInside _ _ _)

/-! ## Captured slots -/

theorem insertName_pairwise {names : List String} (h : names.Pairwise (· < ·)) (name : String) :
    (insertName name names).Pairwise (· < ·) := by
  induction names with
  | nil => exact List.pairwise_singleton _ _
  | cons other names ih =>
    obtain ⟨hother, hnames⟩ := List.pairwise_cons.1 h
    unfold insertName
    split_ifs with hlt heq
    · refine List.pairwise_cons.2 ⟨fun x hx => ?_, h⟩
      rcases List.mem_cons.1 hx with rfl | hx
      · exact hlt
      · exact String.lt_trans hlt (hother x hx)
    · exact h
    · refine List.pairwise_cons.2 ⟨fun x hx => ?_, ih hnames⟩
      rcases mem_insertName.1 hx with rfl | hx
      · exact Std.lt_of_le_of_ne (String.not_lt.1 hlt) (Ne.symm heq)
      · exact hother x hx

theorem sortedNames_pairwise (names : List String) : (sortedNames names).Pairwise (· < ·) := by
  induction names with
  | nil => exact List.Pairwise.nil
  | cons name names ih => exact insertName_pairwise ih name

theorem capturedBy_pairwise (scope : Scope) (e : Core) : (capturedBy scope e).Pairwise (· < ·) :=
  (sortedNames_pairwise _).filter _

/-- no variable is captured twice -/
theorem capturedBy_nodup (scope : Scope) (e : Core) : (capturedBy scope e).Nodup := by
  refine (capturedBy_pairwise scope e).imp ?_
  intro x y hlt heq
  subst heq
  exact String.lt_irrefl x hlt

theorem le_of_mem_paramCells {offset s : Nat} {names : List String} {body : Core}
    (h : s ∈ paramCells offset names body) :
    offset ≤ s ∧ s < offset + names.length := by
  simp only [paramCells, List.mem_filterMap, Prod.exists] at h
  obtain ⟨x, i, hmem, h⟩ := h
  obtain ⟨hle, hlt, -⟩ := List.mem_zipIdx hmem
  split at h
  · cases h
    exact ⟨hle, hlt⟩
  · cases h

namespace LambdaSite

variable (l : LambdaSite) {k : Nat} {x : String}

theorem mem_captured : x ∈ l.captured ↔ x ∈ l.expr.freeNames ∧ (l.scope.slot? x).isSome := mem_capturedBy

/-- inside a procedure, what it captures is found in the slot where it is captured -/
theorem slot?_of_captured (hx : l.captured[k]? = some x) : (frameScope l.names).slot? x = some k := by
  have hbound : x ∉ l.binders := by
    have hfree := (l.mem_captured.1 (List.mem_of_getElem? hx)).1
    exact (Core.mem_freeNames_lambda.1 hfree).2
  rw [names, frameScope_slot?]
  rcases lookup_zipIdx l.binders x with ⟨-, hnone⟩ | ⟨i, hi, -⟩
  · rw [hnone, Option.none_or]
    rcases lookup_zipIdx l.captured x with ⟨hmem, -⟩ | ⟨i, hi, hsome⟩
    · exact absurd (List.mem_of_getElem? hx) hmem
    · have hlt := (List.getElem?_eq_some_iff.1 hx).1
      rw [hsome, Nat.zero_add, (List.getElem?_inj hlt (capturedBy_nodup _ _)).1 (hx.trans hi.symm)]
  · exact absurd (List.mem_of_getElem? hi) hbound

/-- the captured slots that hold cells are those whose variables are kept in cells around the procedure -/
theorem mem_inner_cells (hx : l.captured[k]? = some x) :
    k ∈ l.inner.cells ↔ ∃ s, l.scope.slot? x = some s ∧ s ∈ l.gen.cells := by
  have hlt := (List.getElem?_eq_some_iff.1 hx).1
  have hboxed : k ∉ l.boxed := by
    intro hmem
    have := (le_of_mem_paramCells hmem).1
    omega
  rw [inner, List.mem_append, or_iff_right hboxed, mem_capturedCells]
  constructor
  · rintro ⟨y, s, hy, hs, hmem⟩
    cases hx.symm.trans hy
    exact ⟨s, hs, hmem⟩
  · rintro ⟨s, hs, hmem⟩
    exact ⟨x, s, hx, hs, hmem⟩

end LambdaSite

/-! ## What generated code uses as cells -/

/-- the code of the expression uses a slot of its frame as a cell exactly if it is one, of a variable free in it -/
def UsesOwnCells (e : Core) : Prop :=
  ∀ (pool : List Constant) (scope : Scope) (start : Nat) (g : Gen),
    (genCode scope start e g).2.constants <+: pool → ∀ slot < g.nextSlot,
      (UsesCell pool (genCode scope start e g).1 slot ↔ slot ∈ g.cells ∧ ∃ x ∈ e.freeNames, scope.slot? x = some slot)

section Generated

variable {pool : List Constant} {scope : Scope} {start slot : Nat} {g g' : Gen}

theorem usesCell_single {i : Instr} (h : i.isClosure = false) :
    UsesCell pool [i] slot ↔ i = .loadCell slot ∨ i = .storeCell slot := by
  constructor
  · intro huses
    cases huses with
    | load hmem => exact Or.inl (List.mem_singleton.1 hmem).symm
    | store hmem => exact Or.inr (List.mem_singleton.1 hmem).symm
    | handOn hclosure =>
      cases List.mem_singleton.1 (List.mem_of_getElem? hclosure)
      cases h
  · rintro (rfl | rfl)
    · exact .load List.mem_cons_self
    · exact .store List.mem_cons_self

theorem loadCode_usesCell (scope : Scope) (g : Gen) (name : String) :
    UsesCell pool (loadCode scope g name).1 slot ↔ slot ∈ g.cells ∧ scope.slot? name = some slot := by
  unfold loadCode
  split
  · next hnone =>
    rw [usesCell_single rfl, hnone]
    simp
  · next s hs =>
    rw [hs]
    by_cases hc : s ∈ g.cells
    · rw [if_pos (by simpa using hc), usesCell_single rfl]
      suffices s = slot → slot ∈ g.cells by simpa
      rintro rfl
      exact hc
    · rw [if_neg (by simpa using hc), usesCell_single rfl]
      suffices slot ∈ g.cells → s ≠ slot by simpa
      rintro hmem rfl
      exact hc hmem

theorem storeCode_usesCell (scope : Scope) (g : Gen) (name : String) :
    UsesCell pool (storeCode scope g name).1 slot ↔ slot ∈ g.cells ∧ scope.slot? name = some slot := by
  unfold storeCode
  split
  · next hnone =>
    rw [usesCell_single rfl, hnone]
    simp
  · next s hs =>
    rw [hs]
    by_cases hc : s ∈ g.cells
    · rw [if_pos (by simpa using hc), usesCell_single rfl]
      suffices s = slot → slot ∈ g.cells by simpa
      rintro rfl
      exact hc
    · rw [if_neg (by simpa using hc), usesCell_single rfl]
      suffices slot ∈ g.cells → s ≠ slot by simpa
      rintro hmem rfl
      exact hc hmem

/-- what a closure captures is used as its procedure uses it -/
theorem closureCode_usesCell {captured : List String} {index : Nat} {p : Procedure}
    (hp : pool[index]? = some (.procedure p)) :
    UsesCell pool (closureCode scope captured index) slot ↔
      ∃ k x, captured[k]? = some x ∧ (scope.slot? x).getD 0 = slot ∧ UsesCell pool p.code k := by
  have hcell : ∀ i ∈ closureCode scope captured index, i ≠ .loadCell slot ∧ i ≠ .storeCell slot := by
    intro i hi
    obtain ⟨k, hk⟩ := List.mem_iff_getElem?.1 hi
    rcases getElem?_closureCode.1 hk with ⟨x, -, rfl⟩ | ⟨-, rfl⟩
    · exact ⟨nofun, nofun⟩
    · exact ⟨nofun, nofun⟩
  constructor
  · intro h
    cases h with
    | load hmem => exact absurd rfl (hcell _ hmem).1
    | store hmem => exact absurd rfl (hcell _ hmem).2
    | @handOn _ _ first count index' k p' hclosure hp' hk hload huses =>
      rcases getElem?_closureCode.1 hclosure with ⟨x, -, hx⟩ | ⟨hlast, hi⟩
      · cases hx
      · cases hi
        obtain rfl : first = 0 := by omega
        cases hp.symm.trans hp'
        rw [Nat.zero_add] at hload
        rcases getElem?_closureCode.1 hload with ⟨x, hx, hs⟩ | ⟨hk', -⟩
        · cases hs
          exact ⟨k, x, hx, rfl, huses⟩
        · omega
  · rintro ⟨k, x, hx, rfl, huses⟩
    have hk := (List.getElem?_eq_some_iff.1 hx).1
    have hclosure : (closureCode scope captured index)[0 + captured.length]? = some (.closure index captured.length) :=
      getElem?_closureCode.2 (Or.inr ⟨Nat.zero_add _, rfl⟩)
    have hload : (closureCode scope captured index)[0 + k]? = some (.load ((scope.slot? x).getD 0)) := by
      rw [Nat.zero_add]
      exact getElem?_closureCode.2 (Or.inl ⟨x, hx, rfl⟩)
    exact .handOn hclosure hp hk hload huses

/-- **A procedure uses what it captures as a cell exactly if it captures a cell** -/
theorem LambdaSite.usesCell_iff {l : LambdaSite} (hbody : UsesOwnCells l.body)
    (hpool : l.bodyCode.2.constants <+: pool) {k : Nat} (hk : k < l.captured.length) :
    UsesCell pool l.procedure.code k ↔ k ∈ l.inner.cells := by
  have hprologue : ¬UsesCell pool l.prologue k := by
    refine not_usesCell fun i hi => ?_
    obtain ⟨s, -, hs⟩ := List.mem_flatMap.1 hi
    simp only [cellArgument, List.mem_cons, List.not_mem_nil, or_false] at hs
    rcases hs with rfl | rfl | rfl <;> rfl
  have hret : ¬UsesCell pool [.ret] k := not_usesCell (by simp [Instr.leavesCells])
  have hinside : CapturesInside l.bodyCode.1 := genCode_capturesInside _ _ _ _
  have hend : CapturesInside [.ret] := .instr rfl
  have hx := List.getElem?_eq_getElem hk
  have hfree := (l.mem_captured.1 (List.getElem_mem hk)).1
  have hnames : k < l.inner.nextSlot := by
    simp only [inner, Gen.nextSlot, names, List.length_append]
    omega
  have hcode := hbody pool (frameScope l.names) l.prologue.length l.inner hpool k hnames
  calc UsesCell pool l.procedure.code k
    _ ↔ UsesCell pool l.bodyCode.1 k := by
      rw [procedure, usesCell_append hend, usesCell_append hinside]
      simp only [hprologue, hret, false_or, or_false]
    _ ↔ k ∈ l.inner.cells ∧ ∃ x ∈ l.body.freeNames, (frameScope l.names).slot? x = some k := hcode
    _ ↔ k ∈ l.inner.cells :=
      and_iff_left ⟨_, (Core.mem_freeNames_lambda.1 hfree).1, l.slot?_of_captured hx⟩

theorem genAll_usesCell {es : List Core} (h : ∀ e ∈ es, UsesOwnCells e)
    (hpool : (genAll scope start es g).2.constants <+: pool) (hslot : slot < g.nextSlot) :
    UsesCell pool (genAll scope start es g).1 slot ↔
      slot ∈ g.cells ∧ ∃ e ∈ es, ∃ x ∈ e.freeNames, scope.slot? x = some slot := by
  induction es generalizing start g with
  | nil =>
    have hnone : ¬UsesCell pool (genAll scope start [] g).1 slot := not_usesCell nofun
    simp [hnone]
  | cons e es ih =>
    have hes : ∀ e' ∈ es, UsesOwnCells e' := fun e' he' => h e' (List.mem_cons_of_mem e he')
    have hext : g.Extends (genCode scope start e g).2 := genCode_extends e scope start g
    have hrest := genAll_extends_all es scope (start + (genCode scope start e g).1.length) (genCode scope start e g).2
    have he := h e List.mem_cons_self pool scope start g (hrest.constants.trans hpool) slot hslot
    have hback := ih hes hpool (Nat.lt_of_lt_of_le hslot hext.nextSlot_le)
    rw [hext.mem_cells_iff hslot] at hback
    rw [genAll, usesCell_append (genAll_capturesInside (fun e' _ => genCode_capturesInside e') _ _ _), he, hback,
      List.exists_mem_cons_iff, and_or_left]

theorem Scope.slot?_cons (scope : Scope) (name x : String) (s : Nat) :
    Scope.slot? ((name, s) :: scope) x = if x = name then some s else scope.slot? x := by
  unfold Scope.slot?
  rw [List.lookup_cons]
  by_cases h : x = name
  · simp [h]
  · rw [beq_false_of_ne h, if_neg h]

/-- the code in front of a binding's body uses what the code of the value does -/
theorem letFront_usesCell (start : Nat) (name : String) (value body : Core) :
    UsesCell pool (letFront scope start name value body g) slot ↔
      UsesCell pool (genCode scope start value (g.allocate name)).1 slot := by
  have hbox : ∀ i ∈ (if needsCell name body then [Instr.makeCell] else []), i.leavesCells = true := by
    split <;> simp [Instr.leavesCells]
  have hbind : ∀ i ∈ [Instr.bind g.nextSlot], i.leavesCells = true := by simp [Instr.leavesCells]
  have hinside : CapturesInside (if needsCell name body then [Instr.makeCell] else []) := by
    split
    · exact .instr rfl
    · exact .nil
  have hend : CapturesInside [.bind g.nextSlot] := .instr rfl
  rw [letFront, usesCell_append hend, usesCell_append hinside, or_iff_left (not_usesCell hbind),
    or_iff_left (not_usesCell hbox)]

theorem letIn_usesCell {value body : Core} (hv : UsesOwnCells value) (hb : UsesOwnCells body) (name : String) :
    UsesOwnCells (.letIn name value body) := by
  intro pool scope start g hpool slot hslot
  rw [genCode_letIn] at hpool ⊢
  have hext := letGen_extends scope start name value body g (genCode_extends _ _ _ _)
  have hconstants : (genCode scope start value (g.allocate name)).2.constants <+: pool := by
    rw [← letGen_constants scope start name value body g]
    exact (genCode_extends body _ _ _).constants.trans hpool
  have hvalue := hv pool scope start (g.allocate name) hconstants slot
    (Nat.lt_of_lt_of_le hslot (Gen.Extends.allocate g name).nextSlot_le)
  have hbody := hb pool _ _ _ hpool slot
    (Nat.lt_of_lt_of_le hslot hext.nextSlot_le)
  -- the slot of the binding is a new one, so it is another variable that has the slot in the body
  have hnames : (∃ x ∈ body.freeNames, Scope.slot? ((name, g.nextSlot) :: scope) x = some slot) ↔
      ∃ x, (x ∈ body.freeNames ∧ x ≠ name) ∧ scope.slot? x = some slot := by
    refine exists_congr fun x => ?_
    rw [Scope.slot?_cons, and_assoc]
    refine and_congr_right fun _ => ?_
    split
    · next hx => simp [hx, Nat.ne_of_gt hslot]
    · next hx => simp [hx]
  rw [usesCell_append (genCode_capturesInside _ _ _ _), letFront_usesCell, hvalue, hbody,
    hext.mem_cells_iff hslot, hnames]
  simp only [Core.mem_freeNames_letIn, or_and_right, exists_or, and_or_left]
  exact Iff.rfl

theorem val_usesCell (v : Value) : UsesOwnCells (.val v) := by
  intro pool scope start g hpool slot hslot
  have hnone : ¬UsesCell pool (constantCode g v).1 slot := not_usesCell (by simp [constantCode, Instr.leavesCells])
  rw [genCode]
  simp [hnone, Core.freeNames]

theorem lambda_usesCell {body : Core} (hb : UsesOwnCells body) (params : List String) (rest : Option String) :
    UsesOwnCells (.lambda params rest body) := by
  intro pool scope start g hpool slot hslot
  rw [genCode_lambda] at hpool ⊢
  let l : LambdaSite := ⟨scope, params, rest, body, g⟩
  have hbody : l.bodyCode.2.constants <+: pool := (List.prefix_append _ _).trans hpool
  change UsesCell pool (closureCode scope l.captured l.outer.nextIndex) slot ↔ _
  rw [closureCode_usesCell (LambdaSite.pool_procedure hpool)]
  constructor
  · rintro ⟨k, x, hx, hs, huses⟩
    rw [l.usesCell_iff hb hbody (List.getElem?_eq_some_iff.1 hx).1, l.mem_inner_cells hx] at huses
    obtain ⟨s, hs', hmem⟩ := huses
    obtain rfl : s = slot := by simpa [show scope.slot? x = some s from hs'] using hs
    exact ⟨hmem, x, (l.mem_captured.1 (List.mem_of_getElem? hx)).1, hs'⟩
  · rintro ⟨hmem, x, hfree, hs⟩
    obtain ⟨k, hx⟩ := List.mem_iff_getElem?.1 (l.mem_captured.2 ⟨hfree, Option.isSome_of_eq_some hs⟩)
    refine ⟨k, x, hx, by rw [hs, Option.getD_some], ?_⟩
    rw [l.usesCell_iff hb hbody (List.getElem?_eq_some_iff.1 hx).1, l.mem_inner_cells hx]
    exact ⟨slot, hs, hmem⟩

theorem app_usesCell {operator : Core} {operands : List Core} (hf : UsesOwnCells operator)
    (has : ∀ e ∈ operands, UsesOwnCells e) : UsesOwnCells (.app operator operands) := by
  intro pool scope start g hpool slot hslot
  rw [genCode] at hpool ⊢
  let as := genAll scope start operands g
  have hext : g.Extends as.2 := genAll_extends_all operands scope start g
  have hfext := genCode_extends operator scope (start + as.1.length) as.2
  have hoperands := genAll_usesCell has (hfext.constants.trans hpool) hslot
  have hoperator := hf pool _ _ _ hpool slot (Nat.lt_of_lt_of_le hslot hext.nextSlot_le)
  have hcall : ¬UsesCell pool [.call operands.length] slot := not_usesCell (by simp [Instr.leavesCells])
  have hend : CapturesInside [.call operands.length] := .instr rfl
  rw [usesCell_append hend, or_iff_left hcall, usesCell_append (genCode_capturesInside _ _ _ _), hoperands, hoperator,
    hext.mem_cells_iff hslot, ← and_or_left, or_comm]
  simp only [Core.mem_freeNames_app, List.exists_mem_cons_iff]
  grind

theorem branchCode_usesCell {t c a : List Instr} (hc : CapturesInside c) (ha : CapturesInside a) :
    UsesCell pool (branchCode start t c a) slot ↔ UsesCell pool t slot ∨ UsesCell pool c slot ∨
      UsesCell pool a slot := by
  have htest : ∀ target, CapturesInside [.jumpIfFalse target] := fun target => .instr rfl
  have hover : ∀ target, CapturesInside [.jump target] := fun target => .instr rfl
  have htest' : ∀ target, ¬UsesCell pool [.jumpIfFalse target] slot :=
    fun target => not_usesCell (by simp [Instr.leavesCells])
  have hover' : ∀ target, ¬UsesCell pool [.jump target] slot := fun target => not_usesCell (by simp [Instr.leavesCells])
  rw [branchCode, usesCell_append ha, usesCell_append (hover _), or_iff_left (hover' _), usesCell_append hc,
    usesCell_append (htest _), or_iff_left (htest' _), or_assoc]

theorem branch_usesCell {test consequent alternative : Core} (ht : UsesOwnCells test) (hc : UsesOwnCells consequent)
    (ha : UsesOwnCells alternative) : UsesOwnCells (.branch test consequent (some alternative)) := by
  intro pool scope start g hpool slot hslot
  rw [genCode_branch] at hpool ⊢
  let t := genCode scope start test g
  let c := genCode scope (start + t.1.length + 1) consequent t.2
  have htext : g.Extends t.2 := genCode_extends _ _ _ _
  have hcext : t.2.Extends c.2 := genCode_extends _ _ _ _
  have haext := genCode_extends alternative scope (start + t.1.length + 1 + c.1.length + 1) c.2
  have hconsequent : c.2.constants <+: pool := haext.constants.trans hpool
  have ht' := ht pool scope start g (hcext.constants.trans hconsequent) slot hslot
  have hc' := hc pool scope _ t.2 hconsequent slot (Nat.lt_of_lt_of_le hslot htext.nextSlot_le)
  have ha' := ha pool scope _ c.2 hpool slot
    (Nat.lt_of_lt_of_le hslot (htext.trans hcext).nextSlot_le)
  rw [branchCode_usesCell (genCode_capturesInside _ _ _ _) (genCode_capturesInside _ _ _ _), ht', hc', ha',
    htext.mem_cells_iff hslot, (htext.trans hcext).mem_cells_iff hslot, ← and_or_left, ← and_or_left]
  simp only [Core.freeNames, List.mem_append, or_assoc, or_and_right, exists_or]

/-- **Generated code uses a slot as a cell exactly if it is one, of a variable free in the expression** -/
theorem genCode_usesCell (e : Core) : UsesOwnCells e := by
  induction e with
  | var name =>
    intro pool scope start g hpool slot hslot
    rw [genCode, loadCode_usesCell]
    simp [Core.freeNames]
  | val v => exact val_usesCell v
  | quote v =>
    -- a quoted value has the code of a value
    intro pool scope start g
    rw [genCode]
    have h := val_usesCell v pool scope start g
    rwa [genCode] at h
  | letIn name value body ihv ihb => exact letIn_usesCell ihv ihb name
  | lambda params rest body ih => exact lambda_usesCell ih params rest
  | app operator operands ihf ihas => exact app_usesCell ihf ihas
  | branch test consequent alternative iht ihc iha =>
    cases alternative with
    | none =>
      intro pool scope start g
      have h := branch_usesCell iht ihc (val_usesCell (.boolean false)) pool scope start g
      rw [genCode_branch_none]
      simpa [Core.freeNames] using h
    | some alternative => exact branch_usesCell iht ihc (iha _ rfl)
  | assign name value ih =>
    intro pool scope start g hpool slot hslot
    rw [genCode] at hpool ⊢
    have hext := genCode_extends value scope start g
    rw [storeCode_constants] at hpool
    rw [usesCell_append (storeCode_capturesInside _ _ _), ih pool scope start g hpool slot hslot, storeCode_usesCell,
      hext.mem_cells_iff hslot, ← and_or_left]
    simp only [Core.mem_freeNames_assign, or_and_right, exists_or, exists_eq_left]
    rw [or_comm]

end Generated

end SchemeStack
