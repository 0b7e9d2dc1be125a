/-
How generated code is laid out.

`LambdaSite` names the pieces that the code of a procedure is made of: what it captures, the slots of its frame, the
code that puts parameters into cells, the code of its body and the procedure itself (`genCode_lambda`).

Code generation only ever adds: slots, cells and constants are added behind those that are there, and a slot that was
given out before does not become a cell (`genCode_extends`). So what was generated for a part is still there at the end.
Each procedure in the pool of a program is that of a `LambdaSite` (`programPool_sites`).

`CodeAt` tells that some code stands at an index of other code.
-/
import Mathlib.Tactic.SplitIfs
import Mathlib.Tactic.Tauto
import SchemeStack.Machine.Codegen
import SchemeStack.Proofs.CoreInduction
import SchemeStack.Proofs.RunValue

namespace SchemeStack

/-! ## Procedures -/

/-- a procedure, and where its code is generated -/
structure LambdaSite where
  scope : Scope
  params : List String
  rest : Option String
  body : Core
  gen : Gen

namespace LambdaSite

variable (l : LambdaSite)

def expr : Core := .lambda l.params l.rest l.body

def captured : List String := capturedBy l.scope l.expr

/-- its parameters, the rest parameter last -/
def binders : List String := Core.binders l.params l.rest

/-- the names of its first slots -/
def names : List String := l.captured ++ l.binders

/-- the slots of the parameters that are put into cells -/
def boxed : List Nat := paramCells l.captured.length l.binders l.body

def prologue : List Instr := l.boxed.flatMap cellArgument

/-- what is generated before its body: the slots and cells of its own frame -/
def inner : Gen :=
  { l.gen with locals := l.names, cells := l.boxed ++ capturedCells l.scope l.gen.cells l.captured }

def bodyCode : List Instr × Gen := genCode (frameScope l.names) l.prologue.length l.body l.inner

def procedure : Procedure :=
  { code := l.prologue ++ l.bodyCode.1 ++ [.ret], params := l.params.length, rest := l.rest.isSome,
    captured := l.captured, frameSize := l.bodyCode.2.locals.length }

/-- what is generated after its body, in the frame around it -/
def outer : Gen := { l.bodyCode.2 with locals := l.gen.locals, cells := l.gen.cells }

end LambdaSite

theorem genCode_lambda (scope : Scope) (start : Nat) (params : List String) (rest : Option String) (body : Core)
    (g : Gen) :
    genCode scope start (.lambda params rest body) g =
      let l : LambdaSite := ⟨scope, params, rest, body, g⟩
      (captureCode scope l.captured ++ [.closure l.outer.nextIndex l.captured.length],
        l.outer.addConstant (.procedure l.procedure)) := by
  rw [genCode]
  rfl

/-! ## Names and slots -/

theorem mem_insertName {x name : String} {names : List String} : x ∈ insertName name names ↔ x = name ∨ x ∈ names := by
  induction names with
  | nil => simp [insertName]
  | cons other names ih =>
    unfold insertName
    split_ifs with hlt heq
    · simp
    · subst heq
      simp
    · simp only [List.mem_cons, ih]
      tauto

theorem mem_sortedNames {x : String} {names : List String} : x ∈ sortedNames names ↔ x ∈ names := by
  induction names with
  | nil => simp [sortedNames]
  | cons name names ih => simpa [sortedNames, mem_insertName] using or_congr_right ih

theorem mem_capturedBy {x : String} {scope : Scope} {e : Core} :
    x ∈ capturedBy scope e ↔ x ∈ e.freeNames ∧ (scope.slot? x).isSome := by
  simp [capturedBy, mem_sortedNames]

/-- the frame of a procedure: a parameter's slot comes after those of the captured variables -/
theorem frameScope_slot? (captured binders : List String) (x : String) :
    (frameScope (captured ++ binders)).slot? x =
      ((binders.zipIdx captured.length).reverse.lookup x).or (captured.zipIdx.reverse.lookup x) := by
  simp [frameScope, Scope.slot?, List.zipIdx_append, List.lookup_append]

theorem mem_capturedCells {scope : Scope} {cells : List Nat} {captured : List String} {i : Nat} :
    i ∈ capturedCells scope cells captured ↔ ∃ x s, captured[i]? = some x ∧ scope.slot? x = some s ∧ s ∈ cells := by
  simp only [capturedCells, List.mem_filterMap, Prod.exists]
  constructor
  · rintro ⟨x, j, hmem, h⟩
    split at h
    · rename_i hany
      cases h
      obtain ⟨s, hs, hc⟩ := (Option.any_eq_true _ _).1 hany
      exact ⟨x, s, List.mk_mem_zipIdx_iff_getElem?.1 hmem, hs, by simpa using hc⟩
    · cases h
  · rintro ⟨x, s, hx, hs, hc⟩
    exact ⟨x, i, List.mk_mem_zipIdx_iff_getElem?.2 hx, by simp [hs, hc]⟩

theorem paramCells_cons (offset : Nat) (name : String) (names : List String) (body : Core) :
    paramCells offset (name :: names) body =
      (if needsCell name body then [offset] else []) ++ paramCells (offset + 1) names body := by
  cases h : needsCell name body <;> simp [paramCells, h]

/-! ## Growth -/

/-- one generator state comes after another -/
structure Gen.Extends (g g' : Gen) : Prop where
  locals : g.locals <+: g'.locals
  constants : g.constants <+: g'.constants
  cells : ∀ s ∈ g.cells, s ∈ g'.cells
  newCells : ∀ s ∈ g'.cells, s ∈ g.cells ∨ g.nextSlot ≤ s ∧ s < g'.nextSlot

namespace Gen.Extends

variable {g g' g'' : Gen}

theorem refl (g : Gen) : g.Extends g :=
  ⟨List.prefix_rfl, List.prefix_rfl, fun _ h => h, fun _ h => Or.inl h⟩

theorem nextSlot_le (h : g.Extends g') : g.nextSlot ≤ g'.nextSlot := h.locals.length_le

theorem trans (h : g.Extends g') (h' : g'.Extends g'') : g.Extends g'' := by
  refine ⟨h.locals.trans h'.locals, h.constants.trans h'.constants, fun s hs => h'.cells s (h.cells s hs), ?_⟩
  intro s hs
  have hle := h.nextSlot_le
  have hle' := h'.nextSlot_le
  rcases h'.newCells s hs with hs | ⟨h1, h2⟩
  · rcases h.newCells s hs with hs | ⟨h1, h2⟩
    · exact Or.inl hs
    · exact Or.inr ⟨h1, by omega⟩
  · exact Or.inr ⟨by omega, h2⟩

theorem allocate (g : Gen) (name : String) : g.Extends (g.allocate name) :=
  ⟨List.prefix_append _ _, List.prefix_rfl, fun _ h => h, fun _ h => Or.inl h⟩

theorem addConstant (g : Gen) (c : Constant) : g.Extends (g.addConstant c) :=
  ⟨List.prefix_rfl, List.prefix_append _ _, fun _ h => h, fun _ h => Or.inl h⟩

theorem addGlobal (g : Gen) (name : String) : g.Extends (g.addGlobal name) :=
  ⟨List.prefix_rfl, List.prefix_rfl, fun _ h => h, fun _ h => Or.inl h⟩

/-- a slot given out after `g` may become a cell -/
theorem addCell {slot : Nat} (h : g.Extends g') (hslot : g.nextSlot ≤ slot) (hlt : slot < g'.nextSlot) :
    g.Extends (g'.addCell slot) := by
  refine ⟨h.locals, h.constants, fun s hs => List.mem_cons_of_mem _ (h.cells s hs), fun s hs => ?_⟩
  rcases List.mem_cons.1 hs with rfl | hs
  · exact Or.inr ⟨hslot, hlt⟩
  · exact h.newCells s hs

/-- slots that were given out before are cells if and only if they were -/
theorem mem_cells_iff (h : g.Extends g') {s : Nat} (hs : s < g.nextSlot) : s ∈ g'.cells ↔ s ∈ g.cells := by
  refine ⟨fun h' => ?_, h.cells s⟩
  rcases h.newCells s h' with h' | ⟨h', -⟩
  · exact h'
  · omega

end Gen.Extends

theorem loadCode_extends (scope : Scope) (g : Gen) (name : String) : g.Extends (loadCode scope g name).2 := by
  unfold loadCode
  split
  · exact .addGlobal g name
  · exact .refl g

theorem storeCode_extends (scope : Scope) (g : Gen) (name : String) : g.Extends (storeCode scope g name).2 := by
  unfold storeCode
  split
  · exact .addGlobal g name
  · exact .refl g

theorem genAll_extends {es : List Core} (scope : Scope) (start : Nat) (g : Gen)
    (h : ∀ e ∈ es, ∀ scope start (g : Gen), g.Extends (genCode scope start e g).2) :
    g.Extends (genAll scope start es g).2 := by
  induction es generalizing start g with
  | nil => exact .refl g
  | cons e es ih =>
    have he := h e List.mem_cons_self scope start g
    exact he.trans (ih _ _ fun e' he' => h e' (List.mem_cons_of_mem e he'))

/-- the frame around a binding, with its cell if it needs one -/
def letGen (scope : Scope) (start : Nat) (name : String) (value body : Core) (g : Gen) : Gen :=
  let v := (genCode scope start value (g.allocate name)).2
  if needsCell name body then v.addCell g.nextSlot else v

/-- the code in front of a binding's body -/
def letFront (scope : Scope) (start : Nat) (name : String) (value body : Core) (g : Gen) : List Instr :=
  (genCode scope start value (g.allocate name)).1 ++ (if needsCell name body then [.makeCell] else []) ++
    [.bind g.nextSlot]

theorem genCode_letIn (scope : Scope) (start : Nat) (name : String) (value body : Core) (g : Gen) :
    genCode scope start (.letIn name value body) g =
      let front := letFront scope start name value body g
      let b := genCode ((name, g.nextSlot) :: scope) (start + front.length) body (letGen scope start name value body g)
      (front ++ b.1, b.2) := by
  rw [genCode]
  rfl

/-- the code of a conditional at an index, made of the code of its parts -/
def branchCode (start : Nat) (test consequent alternative : List Instr) : List Instr :=
  let elseAt := start + test.length + 1 + consequent.length + 1
  test ++ [.jumpIfFalse (some elseAt)] ++ consequent ++ [.jump (some (elseAt + alternative.length))] ++ alternative

theorem length_branchCode (start : Nat) (test consequent alternative : List Instr) :
    start + (branchCode start test consequent alternative).length =
      start + test.length + 1 + consequent.length + 1 + alternative.length := by
  simp only [branchCode, List.length_append, List.length_singleton]
  omega

theorem genCode_branch (scope : Scope) (start : Nat) (test consequent alternative : Core) (g : Gen) :
    genCode scope start (.branch test consequent (some alternative)) g =
      let t := genCode scope start test g
      let c := genCode scope (start + t.1.length + 1) consequent t.2
      let a := genCode scope (start + t.1.length + 1 + c.1.length + 1) alternative c.2
      (branchCode start t.1 c.1 a.1, a.2) := by
  rw [genCode]
  rfl

/-- a conditional without alternative has the code of one whose alternative is false -/
theorem genCode_branch_none (scope : Scope) (start : Nat) (test consequent : Core) (g : Gen) :
    genCode scope start (.branch test consequent none) g =
      genCode scope start (.branch test consequent (some (.val (.boolean false)))) g := by
  rw [genCode_branch, genCode]
  rfl

theorem letGen_extends (scope : Scope) (start : Nat) (name : String) (value body : Core) (g : Gen)
    (hv : (g.allocate name).Extends (genCode scope start value (g.allocate name)).2) :
    g.Extends (letGen scope start name value body g) := by
  have h := (Gen.Extends.allocate g name).trans hv
  have hlt : g.nextSlot < (genCode scope start value (g.allocate name)).2.nextSlot := by
    have hle := hv.nextSlot_le
    have hnew : (g.allocate name).nextSlot = g.nextSlot + 1 := by simp [Gen.allocate, Gen.nextSlot]
    omega
  unfold letGen
  dsimp only
  split
  · exact h.addCell (Nat.le_refl _) hlt
  · exact h

/-- what is generated for an expression is added to what was there -/
theorem genCode_extends (e : Core) (scope : Scope) (start : Nat) (g : Gen) :
    g.Extends (genCode scope start e g).2 := by
  induction e generalizing scope start g with
  | var name => rw [genCode]; exact loadCode_extends scope g name
  | val v => rw [genCode]; exact .addConstant g _
  | quote v => rw [genCode]; exact .addConstant g _
  | letIn name value body ihv ihb =>
    rw [genCode_letIn]
    exact (letGen_extends scope start name value body g (ihv _ _ _)).trans (ihb _ _ _)
  | lambda params rest body ih =>
    rw [genCode_lambda]
    let l : LambdaSite := ⟨scope, params, rest, body, g⟩
    have hb : l.inner.Extends l.bodyCode.2 := ih _ _ _
    have ho : g.Extends l.outer := ⟨List.prefix_rfl, hb.constants, fun _ h => h, fun _ h => Or.inl h⟩
    exact ho.trans (.addConstant _ _)
  | app operator operands ihf ihas =>
    rw [genCode]
    exact (genAll_extends scope start g ihas).trans (ihf _ _ _)
  | branch test consequent alternative iht ihc iha =>
    cases alternative with
    | none =>
      rw [genCode_branch_none, genCode_branch]
      exact ((iht _ _ _).trans (ihc _ _ _)).trans (.addConstant _ _)
    | some alternative =>
      rw [genCode_branch]
      exact ((iht _ _ _).trans (ihc _ _ _)).trans (iha _ rfl _ _ _)
  | assign name value ih =>
    rw [genCode]
    exact (ih _ _ _).trans (storeCode_extends _ _ _)

/-- and so is what is generated for several -/
theorem genAll_extends_all (es : List Core) (scope : Scope) (start : Nat) (g : Gen) :
    g.Extends (genAll scope start es g).2 :=
  genAll_extends scope start g fun e _ => genCode_extends e

/-! ## The pool -/

section Pool

variable {l : LambdaSite} {pool : List Constant}

/-- the procedure of a site is in the pool, at the index that its closures are made with -/
theorem LambdaSite.pool_procedure (h : (l.outer.addConstant (.procedure l.procedure)).constants <+: pool) :
    pool[l.outer.nextIndex]? = some (.procedure l.procedure) := by
  obtain ⟨rest, rfl⟩ := h
  simp [Gen.addConstant, Gen.nextIndex]

/-- each procedure among the constants is that of a site, and what was generated for its body is there too -/
def FromSites (constants : List Constant) : Prop :=
  ∀ p, Constant.procedure p ∈ constants → ∃ l : LambdaSite, p = l.procedure ∧ l.bodyCode.2.constants <+: constants

theorem FromSites.addValue {g : Gen} (h : FromSites g.constants) (v : Value) :
    FromSites (g.addConstant (.value v)).constants := by
  intro p hp
  rcases List.mem_append.1 hp with hp | hp
  · obtain ⟨l, hl, hle⟩ := h p hp
    exact ⟨l, hl, hle.trans (List.prefix_append _ _)⟩
  · cases List.mem_singleton.1 hp

/-- generating the code of the expression adds procedures of sites only -/
def AddsSites (e : Core) : Prop :=
  ∀ scope start (g : Gen), FromSites g.constants → FromSites (genCode scope start e g).2.constants

theorem genAll_sites {es : List Core} (h : ∀ e ∈ es, AddsSites e) (scope : Scope) (start : Nat) {g : Gen}
    (hg : FromSites g.constants) : FromSites (genAll scope start es g).2.constants := by
  induction es generalizing start g with
  | nil => exact hg
  | cons e es ih =>
    exact ih (fun e' he' => h e' (List.mem_cons_of_mem e he')) _ (h e List.mem_cons_self scope start g hg)

theorem letGen_constants (scope : Scope) (start : Nat) (name : String) (value body : Core) (g : Gen) :
    (letGen scope start name value body g).constants = (genCode scope start value (g.allocate name)).2.constants := by
  unfold letGen
  dsimp only
  split
  · rfl
  · rfl

theorem loadCode_constants (scope : Scope) (g : Gen) (name : String) :
    (loadCode scope g name).2.constants = g.constants := by
  unfold loadCode
  split
  · rfl
  · rfl

theorem storeCode_constants (scope : Scope) (g : Gen) (name : String) :
    (storeCode scope g name).2.constants = g.constants := by
  unfold storeCode
  split
  · rfl
  · rfl

theorem genCode_sites (e : Core) : AddsSites e := by
  induction e with
  | var name =>
    intro scope start g hg
    rw [genCode, loadCode_constants]
    exact hg
  | val v =>
    intro scope start g hg
    rw [genCode]
    exact hg.addValue v
  | quote v =>
    intro scope start g hg
    rw [genCode]
    exact hg.addValue v
  | letIn name value body ihv ihb =>
    intro scope start g hg
    rw [genCode_letIn]
    apply ihb
    rw [letGen_constants]
    exact ihv scope start (g.allocate name) hg
  | lambda params rest body ih =>
    intro scope start g hg p hp
    rw [genCode_lambda] at hp ⊢
    let l : LambdaSite := ⟨scope, params, rest, body, g⟩
    have hbody : FromSites l.bodyCode.2.constants := ih _ _ l.inner hg
    have hle : l.bodyCode.2.constants <+: (l.outer.addConstant (.procedure l.procedure)).constants :=
      List.prefix_append _ _
    rcases List.mem_append.1 hp with hp | hp
    · obtain ⟨l', hl', hle'⟩ := hbody p hp
      exact ⟨l', hl', hle'.trans hle⟩
    · cases List.mem_singleton.1 hp
      exact ⟨l, rfl, hle⟩
  | app operator operands ihf ihas =>
    intro scope start g hg
    rw [genCode]
    exact ihf _ _ _ (genAll_sites ihas scope start hg)
  | branch test consequent alternative iht ihc iha =>
    intro scope start g hg
    have hconsequent := ihc scope (start + (genCode scope start test g).1.length + 1) _ (iht scope start g hg)
    cases alternative with
    | none =>
      rw [genCode_branch_none, genCode_branch]
      exact hconsequent.addValue _
    | some alternative =>
      rw [genCode_branch]
      exact iha _ rfl _ _ _ hconsequent
  | assign name value ih =>
    intro scope start g hg
    rw [genCode, storeCode_constants]
    exact ih scope start g hg

/-- **every procedure in the pool of a program is that of a site** -/
theorem programPool_sites (exprs : List Core) (table : SymbolTable) :
    FromSites (Program.ofCore exprs table).constants := by
  have hempty : FromSites (Gen.ofTable table).constants := nofun
  exact genAll_sites (fun e _ => genCode_sites e) [] 0 hempty

end Pool

/-! ## Places of code -/

/-- the fragment stands in the code at the index -/
def CodeAt (code : List Instr) (start : Nat) (fragment : List Instr) : Prop :=
  ∀ i instr, fragment[i]? = some instr → code[start + i]? = some instr

namespace CodeAt

variable {code a b : List Instr} {start : Nat} {i : Instr}

theorem append : CodeAt code start (a ++ b) ↔ CodeAt code start a ∧ CodeAt code (start + a.length) b := by
  constructor
  · intro h
    refine ⟨fun i instr hi => h i instr ?_, fun i instr hi => ?_⟩
    · rw [List.getElem?_append_left (List.getElem?_eq_some_iff.1 hi).1]
      exact hi
    · have hab : (a ++ b)[a.length + i]? = some instr := by
        rw [List.getElem?_append_right (by omega)]
        simpa using hi
      have := h _ _ hab
      rwa [← Nat.add_assoc] at this
  · rintro ⟨ha, hb⟩ i instr hi
    by_cases hlt : i < a.length
    · rw [List.getElem?_append_left hlt] at hi
      exact ha i instr hi
    · rw [List.getElem?_append_right (by omega)] at hi
      have := hb _ _ hi
      rwa [show start + a.length + (i - a.length) = start + i by omega] at this

theorem singleton : CodeAt code start [i] ↔ code[start]? = some i := by
  constructor
  · intro h
    exact h 0 i rfl
  · intro h j instr hj
    cases j with
    | zero => simpa using hj ▸ h
    | succ j => simp at hj

theorem cons : CodeAt code start (i :: b) ↔ code[start]? = some i ∧ CodeAt code (start + 1) b := by
  rw [show i :: b = [i] ++ b from rfl, append, singleton]
  rfl

theorem self (code : List Instr) : CodeAt code 0 code := by
  intro i instr hi
  rwa [Nat.zero_add]

end CodeAt

end SchemeStack
