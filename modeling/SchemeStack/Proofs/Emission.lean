/-
What code generation emits, and from which procedures of the source those in the pool come.

`Emits` has one rule for each way in which code is made: the code of some expressions, the constants that are added to
the pool for it, and the state that is left. It forgets where the code is placed. Generated code is emitted
(`genCode_emits`, `genAll_emits`), so what is true of it is shown by induction along the rules, without opening the
generator.

`Core.lambdas` lists the procedures of an expression, each behind those inside it and with the names that are bound
around it. In this order they get their entries in the pool: `Emits.stems` pairs the two lists. A procedure finds in
its scope just those of its free names that are bound around it in the source, however many frames they have been
handed through.
-/
import Mathlib.Data.List.Forall2
import SchemeStack.Proofs.CellUse

namespace SchemeStack

/-! ## The rules -/

/-- the code of some expressions in a scope, the constants that are added for it, and what is left of a generator
state -/
inductive Emits : Scope → List Core → Gen → List Instr → List Constant → Gen → Prop
  | nil {scope : Scope} {g : Gen} : Emits scope [] g [] [] g
  | cons {scope : Scope} {e : Core} {es : List Core} {g g₁ g₂ : Gen} {c c' : List Instr} {n n' : List Constant} :
    Emits scope [e] g c n g₁ → Emits scope es g₁ c' n' g₂ → Emits scope (e :: es) g (c ++ c') (n ++ n') g₂
  | readGlobal {scope : Scope} {name : String} {g : Gen} : scope.slot? name = none →
    Emits scope [.var name] g [.loadGlobal name] [] (g.addGlobal name)
  | readSlot {scope : Scope} {name : String} {slot : Nat} {i : Instr} {g : Gen} : scope.slot? name = some slot →
    i = .load slot ∨ i = .loadCell slot → Emits scope [.var name] g [i] [] g
  | value {scope : Scope} {v : Value} {g : Gen} :
    Emits scope [.val v] g [.constant g.nextIndex] [.value v] (g.addConstant (.value v))
  | quoted {scope : Scope} {v : Value} {g : Gen} :
    Emits scope [.quote v] g [.constant g.nextIndex] [.value v] (g.addConstant (.value v))
  | letIn {scope : Scope} {name : String} {value body : Core} {g g₁ g₂ : Gen} {c c' box : List Instr}
    {n n' : List Constant} {cells : List Nat} : (∀ i ∈ box, i = .makeCell) →
    Emits scope [value] (g.allocate name) c n g₁ →
    Emits ((name, g.nextSlot) :: scope) [body] { g₁ with cells := cells } c' n' g₂ →
    Emits scope [.letIn name value body] g (c ++ box ++ [.bind g.nextSlot] ++ c') (n ++ n') g₂
  | lambda {l : LambdaSite} {n : List Constant} :
    Emits (frameScope l.names) [l.body] l.inner l.bodyCode.1 n l.bodyCode.2 →
    Emits l.scope [l.expr] l.gen (closureCode l.scope l.captured l.outer.nextIndex) (n ++ [.procedure l.procedure])
      (l.outer.addConstant (.procedure l.procedure))
  | app {scope : Scope} {operator : Core} {operands : List Core} {g g₁ g₂ : Gen} {c c' : List Instr}
    {n n' : List Constant} : Emits scope operands g c n g₁ → Emits scope [operator] g₁ c' n' g₂ →
    Emits scope [.app operator operands] g (c ++ c' ++ [.call operands.length]) (n ++ n') g₂
  | branch {scope : Scope} {test consequent alternative : Core} {g g₁ g₂ g₃ : Gen} {c c' c'' : List Instr}
    {n n' n'' : List Constant} {start : Nat} : Emits scope [test] g c n g₁ → Emits scope [consequent] g₁ c' n' g₂ →
    Emits scope [alternative] g₂ c'' n'' g₃ →
    Emits scope [.branch test consequent (some alternative)] g (branchCode start c c' c'') (n ++ n' ++ n'') g₃
  | oneArmed {scope : Scope} {test consequent : Core} {g g' : Gen} {c : List Instr} {n : List Constant} :
    Emits scope [.branch test consequent (some .falsity)] g c n g' → Emits scope [.branch test consequent none] g c n g'
  | writeGlobal {scope : Scope} {name : String} {value : Core} {g g' : Gen} {c : List Instr} {n : List Constant} :
    scope.slot? name = none → Emits scope [value] g c n g' →
    Emits scope [.assign name value] g (c ++ [.storeGlobal name]) n (g'.addGlobal name)
  | writeSlot {scope : Scope} {name : String} {value : Core} {slot : Nat} {i : Instr} {g g' : Gen} {c : List Instr}
    {n : List Constant} : scope.slot? name = some slot → i = .store slot ∨ i = .storeCell slot →
    Emits scope [value] g c n g' → Emits scope [.assign name value] g (c ++ [i]) n g'

section Generated

variable {scope : Scope} {start : Nat} {g : Gen}

theorem loadCode_emits (scope : Scope) (g : Gen) (name : String) :
    Emits scope [.var name] g (loadCode scope g name).1 [] (loadCode scope g name).2 := by
  unfold loadCode
  split
  · next hnone => exact .readGlobal hnone
  · next slot hslot =>
    refine .readSlot hslot ?_
    split
    · exact Or.inr rfl
    · exact Or.inl rfl

theorem storeCode_emits {value : Core} {c : List Instr} {n : List Constant} {g' : Gen}
    (h : Emits scope [value] g c n g') (name : String) :
    Emits scope [.assign name value] g (c ++ (storeCode scope g' name).1) n (storeCode scope g' name).2 := by
  unfold storeCode
  split
  · next hnone => exact .writeGlobal hnone h
  · next slot hslot =>
    refine .writeSlot hslot ?_ h
    split
    · exact Or.inr rfl
    · exact Or.inl rfl

/-- whatever the place, the code of the expression is emitted -/
def EmitsOwn (e : Core) : Prop :=
  ∀ scope start g, ∃ n, Emits scope [e] g (genCode scope start e g).1 n (genCode scope start e g).2

theorem genAll_emits_of {es : List Core} (h : ∀ e ∈ es, EmitsOwn e) (scope : Scope) (start : Nat) (g : Gen) :
    ∃ n, Emits scope es g (genAll scope start es g).1 n (genAll scope start es g).2 := by
  induction es generalizing start g with
  | nil => exact ⟨[], .nil⟩
  | cons e es ih =>
    obtain ⟨n, hn⟩ := h e List.mem_cons_self scope start g
    obtain ⟨n', hn'⟩ := ih (fun e' he' => h e' (List.mem_cons_of_mem e he')) _ _
    exact ⟨n ++ n', hn.cons hn'⟩

theorem letIn_emits {value body : Core} (hv : EmitsOwn value) (hb : EmitsOwn body) (name : String) :
    EmitsOwn (.letIn name value body) := by
  intro scope start g
  rw [genCode_letIn]
  obtain ⟨n, hn⟩ := hv scope start (g.allocate name)
  let gv := (genCode scope start value (g.allocate name)).2
  have hgen : ∃ cells, letGen scope start name value body g = { gv with cells := cells } := by
    unfold letGen
    dsimp only
    split
    · exact ⟨g.nextSlot :: gv.cells, rfl⟩
    · exact ⟨gv.cells, rfl⟩
  obtain ⟨cells, hcells⟩ := hgen
  rw [hcells]
  obtain ⟨n', hn'⟩ := hb ((name, g.nextSlot) :: scope) (start + (letFront scope start name value body g).length)
    { gv with cells := cells }
  refine ⟨n ++ n', .letIn ?_ hn hn'⟩
  intro i hi
  split at hi
  · exact List.mem_singleton.1 hi
  · cases hi

theorem branch_emits {test consequent alternative : Core} (ht : EmitsOwn test) (hc : EmitsOwn consequent)
    (ha : EmitsOwn alternative) : EmitsOwn (.branch test consequent (some alternative)) := by
  intro scope start g
  rw [genCode_branch]
  obtain ⟨n, hn⟩ := ht scope start g
  obtain ⟨n', hn'⟩ := hc scope (start + (genCode scope start test g).1.length + 1) _
  obtain ⟨n'', hn''⟩ := ha scope _ _
  exact ⟨n ++ n' ++ n'', .branch hn hn' hn''⟩

/-- the code of an expression is emitted -/
theorem genCode_emits (e : Core) : EmitsOwn e := by
  induction e with
  | var name =>
    intro scope start g
    rw [genCode]
    exact ⟨[], loadCode_emits scope g name⟩
  | val v =>
    intro scope start g
    rw [genCode]
    exact ⟨[.value v], .value⟩
  | quote v =>
    intro scope start g
    rw [genCode]
    exact ⟨[.value v], .quoted⟩
  | letIn name value body ihv ihb => exact letIn_emits ihv ihb name
  | lambda params rest body ih =>
    intro scope start g
    rw [genCode_lambda]
    let l : LambdaSite := ⟨scope, params, rest, body, g⟩
    obtain ⟨n, hn⟩ := ih (frameScope l.names) l.prologue.length l.inner
    have hsite : Emits l.scope [l.expr] l.gen _ _ _ := .lambda hn
    exact ⟨_, hsite⟩
  | app operator operands ihf ihas =>
    intro scope start g
    rw [genCode]
    obtain ⟨n, hn⟩ := genAll_emits_of ihas scope start g
    obtain ⟨n', hn'⟩ := ihf scope (start + (genAll scope start operands g).1.length) _
    exact ⟨n ++ n', .app hn hn'⟩
  | branch test consequent alternative iht ihc iha =>
    cases alternative with
    | none =>
      intro scope start g
      have hfalse : EmitsOwn .falsity := by
        intro scope start g
        rw [Core.falsity, genCode]
        exact ⟨[.value (.boolean false)], .value⟩
      rw [genCode_branch_none]
      obtain ⟨n, hn⟩ := branch_emits iht ihc hfalse scope start g
      exact ⟨n, .oneArmed hn⟩
    | some alternative => exact branch_emits iht ihc (iha _ rfl)
  | assign name value ih =>
    intro scope start g
    rw [genCode]
    obtain ⟨n, hn⟩ := ih scope start g
    exact ⟨n, storeCode_emits hn name⟩

/-- and so is that of several -/
theorem genAll_emits (es : List Core) (scope : Scope) (start : Nat) (g : Gen) :
    ∃ n, Emits scope es g (genAll scope start es g).1 n (genAll scope start es g).2 :=
  genAll_emits_of (fun e _ => genCode_emits e) scope start g

end Generated

section Growth

variable {scope : Scope} {es : List Core} {g g' : Gen} {code : List Instr} {added : List Constant}

/-- the pool grows by the constants that are added -/
theorem Emits.constants_eq (h : Emits scope es g code added g') : g'.constants = g.constants ++ added := by
  induction h with
  | nil => exact (List.append_nil _).symm
  | cons _ _ ih ih' => rw [ih', ih, List.append_assoc]
  | readGlobal _ => exact (List.append_nil _).symm
  | readSlot _ _ => exact (List.append_nil _).symm
  | value => rfl
  | quoted => rfl
  | letIn _ _ _ ih ih' => rw [ih', ih, List.append_assoc]; rfl
  | @lambda l n _ ih =>
    change l.bodyCode.2.constants ++ [.procedure l.procedure] = _
    rw [ih, List.append_assoc]
    rfl
  | app _ _ ih ih' => rw [ih', ih, List.append_assoc]
  | branch _ _ _ ih ih' ih'' => rw [ih'', ih', ih, List.append_assoc, List.append_assoc, List.append_assoc]
  | oneArmed _ ih => exact ih
  | writeGlobal _ _ ih => exact ih
  | writeSlot _ _ _ ih => exact ih

theorem Emits.nextIndex_eq (h : Emits scope es g code added g') : g'.nextIndex = g.nextIndex + added.length := by
  rw [Gen.nextIndex, h.constants_eq, List.length_append]
  rfl

end Growth

/-- what a program is made of was emitted for its expressions, outside all scopes -/
theorem program_emits (exprs : List Core) (table : SymbolTable) :
    let p := Program.ofCore exprs table
    ∃ code g, Emits [] exprs (.ofTable table) code p.constants g ∧ p.code = code ++ [.ret] ∧ p.frameSize = g.nextSlot ∧
      p.table = g.table := by
  intro p
  obtain ⟨n, hn⟩ := genAll_emits exprs [] 0 (.ofTable table)
  have hpool : p.constants = n := hn.constants_eq
  exact ⟨_, _, hpool ▸ hn, rfl, rfl, rfl⟩

/-! ## All code -/

/-- the code of an entry of the pool: a procedure has some, a value has none -/
def Constant.code : Constant → List Instr
  | .value _ => []
  | .procedure p => p.code

/-- some code, and the code of the procedures among constants -/
def wholeCode (code : List Instr) (constants : List Constant) : List Instr := code ++ constants.flatMap Constant.code

def Program.wholeCode (p : Program) : List Instr := SchemeStack.wholeCode p.code p.constants

/-- an instruction that neither refers to the pool nor to a global variable: it works on the frame alone -/
def Instr.isPlain : Instr → Bool
  | loadGlobal _ => false
  | storeGlobal _ => false
  | constant _ => false
  | closure _ _ => false
  | _ => true

theorem Instr.isPlain_of_read {i : Instr} {slot : Nat} (h : i = .load slot ∨ i = .loadCell slot) :
    i.isPlain = true := by
  rcases h with rfl | rfl <;> rfl

theorem Instr.isPlain_of_write {i : Instr} {slot : Nat} (h : i = .store slot ∨ i = .storeCell slot) :
    i.isPlain = true := by
  rcases h with rfl | rfl <;> rfl

section Collected

variable {β : Type} {f : Instr → Option β} {c c' c'' box code : List Instr}

theorem filterMap_wholeCode (f : Instr → Option β) (code : List Instr) (constants : List Constant) :
    (wholeCode code constants).filterMap f = code.filterMap f ++ (constants.flatMap Constant.code).filterMap f :=
  List.filterMap_append

/-- what is found in the code of a whole, if its own code adds nothing to that of two parts -/
theorem filterMap_wholeCode_append (h : code.filterMap f = c.filterMap f ++ c'.filterMap f) (n n' : List Constant) :
    ((wholeCode code (n ++ n')).filterMap f).Perm
      ((wholeCode c n).filterMap f ++ (wholeCode c' n').filterMap f) := by
  simp only [filterMap_wholeCode, h, List.flatMap_append, List.filterMap_append, List.append_assoc]
  refine List.Perm.append_left _ ?_
  rw [← List.append_assoc, ← List.append_assoc]
  exact List.perm_append_comm.append_right _

variable (hf : ∀ i : Instr, i.isPlain = true → f i = none)

include hf

theorem filterMap_plain (h : ∀ i ∈ code, i.isPlain = true) : code.filterMap f = [] :=
  List.filterMap_eq_nil_iff.2 fun i hi => hf i (h i hi)

theorem filterMap_behind {i : Instr} (h : i.isPlain = true) (c : List Instr) :
    (c ++ [i]).filterMap f = c.filterMap f := by
  have hi : [i].filterMap f = [] := filterMap_plain hf (by simpa using h)
  rw [List.filterMap_append, hi, List.append_nil]

theorem filterMap_letCode (hbox : ∀ i ∈ box, i = .makeCell) (slot : Nat) :
    (c ++ box ++ [Instr.bind slot] ++ c').filterMap f = c.filterMap f ++ c'.filterMap f := by
  have hbox' : box.filterMap f = [] := filterMap_plain hf fun i hi => by rw [hbox i hi]; rfl
  rw [List.filterMap_append, filterMap_behind hf rfl, List.filterMap_append, hbox', List.append_nil]

theorem filterMap_branchCode (start : Nat) :
    (branchCode start c c' c'').filterMap f = (c ++ c').filterMap f ++ c''.filterMap f := by
  rw [branchCode, List.filterMap_append, filterMap_behind hf rfl, List.filterMap_append, filterMap_behind hf rfl,
    ← List.filterMap_append]

theorem LambdaSite.filterMap_procedure (l : LambdaSite) : l.procedure.code.filterMap f = l.bodyCode.1.filterMap f := by
  have hprologue : l.prologue.filterMap f = [] := by
    apply filterMap_plain hf
    intro i hi
    obtain ⟨slot, -, hi⟩ := List.mem_flatMap.1 hi
    simp only [cellArgument, List.mem_cons, List.not_mem_nil, or_false] at hi
    rcases hi with rfl | rfl | rfl <;> rfl
  rw [procedure, filterMap_behind hf rfl, List.filterMap_append, hprologue, List.nil_append]

/-- the code of a body has become the code of its procedure, and the closure is new -/
theorem LambdaSite.filterMap_closure (l : LambdaSite) (index : Nat) (n : List Constant) :
    ((wholeCode (closureCode l.scope l.captured index) (n ++ [.procedure l.procedure])).filterMap f).Perm
      ((wholeCode l.bodyCode.1 n).filterMap f ++ (f (.closure index l.captured.length)).toList) := by
  have hcapture : (captureCode l.scope l.captured).filterMap f = [] := by
    apply filterMap_plain hf
    intro i hi
    obtain ⟨x, -, rfl⟩ := List.mem_map.1 hi
    rfl
  have hclosure : (closureCode l.scope l.captured index).filterMap f =
      (f (.closure index l.captured.length)).toList := by
    rw [closureCode, List.filterMap_append, hcapture, List.nil_append, List.filterMap_cons]
    cases f (.closure index l.captured.length) <;> rfl
  rw [filterMap_wholeCode, filterMap_wholeCode, hclosure, List.flatMap_append,
    List.filterMap_append, List.flatMap_singleton, Constant.code, l.filterMap_procedure hf]
  apply List.perm_append_comm.trans
  exact List.perm_append_comm.append_right _

end Collected

/-! ## Procedures of the source -/

/-- a procedure inside an expression, with the names that are bound around it -/
structure EnclosedLambda where
  bound : List String
  params : List String
  rest : Option String
  body : Core

def EnclosedLambda.expr (l : EnclosedLambda) : Core := .lambda l.params l.rest l.body

/-- a compiled form of the procedure, in whatever scope -/
def EnclosedLambda.CompilesTo (l : EnclosedLambda) (q : Procedure) : Prop :=
  ∃ site : LambdaSite, site.expr = l.expr ∧ q = site.procedure

namespace Core

mutual

/-- the procedures of an expression around which the names `bound` are bound, each behind those inside it -/
def lambdas (bound : List String) : Core → List EnclosedLambda
  | var _ => []
  | val _ => []
  | quote _ => []
  | letIn name value body => value.lambdas bound ++ body.lambdas (name :: bound)
  | lambda params rest body => body.lambdas (binders params rest ++ bound) ++ [⟨bound, params, rest, body⟩]
  | app operator operands => lambdasAll bound operands ++ operator.lambdas bound
  | branch test consequent none => test.lambdas bound ++ consequent.lambdas bound
  | branch test consequent (some alternative) =>
    test.lambdas bound ++ consequent.lambdas bound ++ alternative.lambdas bound
  | assign _ value => value.lambdas bound

def lambdasAll (bound : List String) : List Core → List EnclosedLambda
  | [] => []
  | e :: es => e.lambdas bound ++ lambdasAll bound es

end

@[simp] theorem lambdasAll_singleton (bound : List String) (e : Core) : lambdasAll bound [e] = e.lambdas bound :=
  List.append_nil _

end Core

/-- the procedures among constants whose indices start from some index -/
def proceduresFrom (start : Nat) (constants : List Constant) : List (Nat × Procedure) :=
  (constants.zipIdx start).filterMap fun (c, n) =>
    match c with
    | .procedure proc => some (n, proc)
    | .value _ => none

theorem proceduresFrom_append (start : Nat) (as bs : List Constant) :
    proceduresFrom start (as ++ bs) = proceduresFrom start as ++ proceduresFrom (start + as.length) bs := by
  rw [proceduresFrom, List.zipIdx_append, List.filterMap_append]
  rfl

/-- the scope has, of the free names of expressions, those that are bound around them -/
def Scope.Sees (scope : Scope) (bound : List String) (es : List Core) : Prop :=
  ∀ e ∈ es, ∀ x ∈ e.freeNames, (scope.slot? x).isSome ↔ x ∈ bound

/-- the entry of the pool was made from the procedure, in a scope that has what is bound around it -/
def StemsFrom (l : EnclosedLambda) (entry : Nat × Procedure) : Prop :=
  ∃ site : LambdaSite, site.expr = l.expr ∧ entry = (site.outer.nextIndex, site.procedure) ∧
    site.scope.Sees l.bound [l.expr]

section Sees

variable {scope : Scope} {bound : List String}

theorem Scope.sees_single {e : Core} :
    scope.Sees bound [e] ↔ ∀ x ∈ e.freeNames, (scope.slot? x).isSome ↔ x ∈ bound := by
  simp [Scope.Sees]

/-- a part whose free names are free in the whole -/
theorem Scope.Sees.part {e e' : Core} (h : scope.Sees bound [e]) (hsub : ∀ x ∈ e'.freeNames, x ∈ e.freeNames) :
    scope.Sees bound [e'] :=
  Scope.sees_single.2 fun x hx => Scope.sees_single.1 h x (hsub x hx)

theorem Scope.Sees.letBody {name : String} {value body : Core} (h : scope.Sees bound [.letIn name value body])
    (slot : Nat) :
    Scope.Sees ((name, slot) :: scope) (name :: bound) [body] := by
  refine Scope.sees_single.2 fun x hx => ?_
  rw [Scope.slot?_cons, List.mem_cons]
  split
  · next heq => simp [heq]
  · next hne =>
    rw [Scope.sees_single.1 h x (Core.mem_freeNames_letIn.2 (Or.inr ⟨hx, hne⟩))]
    simp [hne]

theorem frameScope_isSome {names : List String} {x : String} : ((frameScope names).slot? x).isSome ↔ x ∈ names := by
  rcases lookup_zipIdx names x with ⟨hmem, hnone⟩ | ⟨i, hi, hsome⟩
  · rw [show (frameScope names).slot? x = none from hnone 0]
    simp [hmem]
  · rw [show (frameScope names).slot? x = some (0 + i) from hsome 0]
    simp [List.mem_of_getElem? hi]

/-- inside a procedure: what is bound around it and free in it was captured, and its parameters are new -/
theorem LambdaSite.sees_body (l : LambdaSite) (h : l.scope.Sees bound [l.expr]) :
    (frameScope l.names).Sees (l.binders ++ bound) [l.body] := by
  refine Scope.sees_single.2 fun x hx => ?_
  rw [frameScope_isSome, names, List.mem_append, List.mem_append, l.mem_captured]
  by_cases hbinder : x ∈ l.binders
  · simp [hbinder]
  · have hfree : x ∈ l.expr.freeNames := Core.mem_freeNames_lambda.2 ⟨hx, hbinder⟩
    rw [Scope.sees_single.1 h x hfree]
    simp [hbinder, hfree]

end Sees

/-- **The procedures that are added stem from those of the source,** in the same order -/
theorem Emits.stems {scope : Scope} {es : List Core} {g g' : Gen} {code : List Instr} {added : List Constant}
    (h : Emits scope es g code added g') (bound : List String) (hsees : scope.Sees bound es) :
    List.Forall₂ StemsFrom (Core.lambdasAll bound es) (proceduresFrom g.nextIndex added) := by
  induction h generalizing bound with
  | nil => exact .nil
  | @cons scope e es g g₁ g₂ c c' n n' h h' ih ih' =>
    have he := ih bound fun e' he' => hsees e' (List.mem_cons.2 (Or.inl (List.mem_singleton.1 he')))
    have hes := ih' bound fun e' he' => hsees e' (List.mem_cons_of_mem e he')
    rw [h.nextIndex_eq] at hes
    rw [Core.lambdasAll_singleton] at he
    rw [proceduresFrom_append]
    exact List.rel_append he hes
  | readGlobal _ => exact .nil
  | readSlot _ _ => exact .nil
  | value => exact .nil
  | quoted => exact .nil
  | @letIn scope name value body g g₁ g₂ c c' box n n' cells hbox h h' ih ih' =>
    have hv := ih bound (hsees.part fun x hx => Core.mem_freeNames_letIn.2 (Or.inl hx))
    have hb := ih' (name :: bound) (hsees.letBody g.nextSlot)
    have hindex : Gen.nextIndex { g₁ with cells := cells } = g.nextIndex + n.length := h.nextIndex_eq
    rw [hindex] at hb
    rw [Core.lambdasAll_singleton] at hv hb ⊢
    rw [proceduresFrom_append]
    exact List.rel_append hv hb
  | @lambda l n h ih =>
    have hb := ih (l.binders ++ bound) (l.sees_body hsees)
    have hindex : l.outer.nextIndex = l.gen.nextIndex + n.length := h.nextIndex_eq
    rw [Core.lambdasAll_singleton] at hb ⊢
    rw [proceduresFrom_append, ← hindex]
    have hlast : StemsFrom ⟨bound, l.params, l.rest, l.body⟩ (l.outer.nextIndex, l.procedure) := ⟨l, rfl, rfl, hsees⟩
    exact List.rel_append hb (.cons hlast .nil)
  | @app scope operator operands g g₁ g₂ c c' n n' h h' ih ih' =>
    have has := ih bound fun e he x hx =>
      Scope.sees_single.1 hsees x (Core.mem_freeNames_app.2 ⟨e, List.mem_cons_of_mem _ he, hx⟩)
    have hf := ih' bound (hsees.part fun x hx => Core.mem_freeNames_app.2 ⟨_, List.mem_cons_self, hx⟩)
    rw [h.nextIndex_eq] at hf
    rw [Core.lambdasAll_singleton] at hf ⊢
    rw [proceduresFrom_append]
    exact List.rel_append has hf
  | @branch scope test consequent alternative g g₁ g₂ g₃ c c' c'' n n' n'' start h h' h'' ih ih' ih'' =>
    have ht := ih bound (hsees.part fun x hx => Core.mem_freeNames_branch.2 (Or.inl hx))
    have hc := ih' bound (hsees.part fun x hx => Core.mem_freeNames_branch.2 (Or.inr (Or.inl hx)))
    have ha := ih'' bound (hsees.part fun x hx => Core.mem_freeNames_branch.2 (Or.inr (Or.inr ⟨_, rfl, hx⟩)))
    rw [h.nextIndex_eq] at hc
    rw [h'.nextIndex_eq, h.nextIndex_eq] at ha
    rw [Core.lambdasAll_singleton] at ht hc ha ⊢
    rw [proceduresFrom_append, proceduresFrom_append, List.length_append, ← Nat.add_assoc]
    exact List.rel_append (List.rel_append ht hc) ha
  | @oneArmed scope test consequent g g' c n _ ih =>
    have hboth := ih bound (hsees.part fun x hx => by simpa [Core.freeNames, Core.falsity] using hx)
    simpa [Core.lambdasAll, Core.lambdas, Core.falsity] using hboth
  | writeGlobal _ _ ih => exact ih bound (hsees.part fun x hx => Core.mem_freeNames_assign.2 (Or.inr hx))
  | writeSlot _ _ _ ih => exact ih bound (hsees.part fun x hx => Core.mem_freeNames_assign.2 (Or.inr hx))

/-- the procedures in the pool of a program stem from those of its expressions -/
theorem program_stems (exprs : List Core) (table : SymbolTable) :
    List.Forall₂ StemsFrom (Core.lambdasAll [] exprs) (Program.ofCore exprs table).procedures := by
  obtain ⟨code, g, hemits, -⟩ := program_emits exprs table
  exact hemits.stems [] fun e _ x _ => by simp [Scope.slot?]

end SchemeStack
