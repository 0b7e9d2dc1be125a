/-
Generated code does what its expression means.

`SimulatesAt` tells what that is for one expression: if it evaluates to a value, then the machine, started at its code
in a frame that is in order, gets to the end of the code with a corresponding value pushed onto the stack, in a frame
that is in order for the memory after the evaluation. It is shown for all expressions by induction
(`genCode_simulates`), if calls do the same (`CallsSimulated`); and calls do so to any depth, since the code of a
procedure's body was generated from it (`calls_simulated`).

`program_simulates` is the result for whole programs.
-/
import SchemeStack.Proofs.CodeCorrespondence

namespace SchemeStack

open MachineState

variable {α : Type}

/-- generated code stands at its index, its constants are in the pool and its slots in a frame of that size -/
structure Fits (pool : List Constant) (code : List Instr) (size start : Nat) (c : List Instr × Gen) : Prop where
  code : CodeAt code start c.1
  pool : c.2.constants <+: pool
  room : c.2.nextSlot ≤ size

/-- the machine gets from one index to the other and pushes the items; the first is on top then -/
def Reaches (builtins : Builtins α) (pool : List Constant) (code : List Instr) (V V' : View α) (pc pc' : Nat)
    (items : List (Item (MachineValue α))) : Prop :=
  ∀ stack callers, Steps builtins pool (V.state code pc stack callers) (V'.state code pc' (items ++ stack) callers)

/-- the machine gets to the end of some code and pushes the value -/
def Yields (builtins : Builtins α) (pool : List Constant) (code : List Instr) (V : View α) (next start : Nat)
    (c : List Instr × Gen) (v : CoreValue α) (m : CoreMemory α) : Prop :=
  ∃ V' w, V'.memory = m ∧ View.Le next V V' ∧ V'.Ok pool c.2.cells c.2.nextSlot ∧ ValueRel pool V'.placement v w ∧
    Reaches builtins pool code V V' start (start + c.1.length) [.value w]

/-- the expression's code does what the expression means, with calls to a depth -/
def SimulatesAt (builtins : Builtins α) (pool : List Constant) (depth : Nat) (e : Core) : Prop :=
  ∀ ⦃scope : Scope⦄ ⦃start : Nat⦄ ⦃g : Gen⦄ ⦃ρ : Env⦄ ⦃code : List Instr⦄ ⦃V : View α⦄ ⦃v : CoreValue α⦄
    ⦃m : CoreMemory α⦄, Core.evalAt builtins .operandsFirst depth e ρ V.memory = .done (v, m) →
    Fits pool code V.slots.length start (genCode scope start e g) → V.Ok pool g.cells g.nextSlot →
      ScopeRel V scope ρ e →
    Yields builtins pool code V g.nextSlot start (genCode scope start e g) v m

/-- a call does what it means, to a depth -/
def CallsSimulated (builtins : Builtins α) (pool : List Constant) (depth : Nat) : Prop :=
  ∀ ⦃code : List Instr⦄ ⦃pc next : Nat⦄ ⦃cells : List Nat⦄ ⦃V : View α⦄ ⦃f v : CoreValue α⦄ ⦃f' : MachineValue α⦄
    ⦃args : List (CoreValue α)⦄ ⦃args' : List (MachineValue α)⦄ ⦃m : CoreMemory α⦄,
    Core.callAt builtins .operandsFirst depth f args V.memory = .done (v, m) → ValueRel pool V.placement f f' →
    List.Forall₂ (ValueRel pool V.placement) args args' → V.Ok pool cells next → code[pc]? = some (.call args.length) →
    ∃ V' w, V'.memory = m ∧ View.Le next V V' ∧ V'.Ok pool cells next ∧ ValueRel pool V'.placement v w ∧
      ∀ stack callers, Steps builtins pool
        (V.state code pc (.value f' :: ((args'.map .value).reverse ++ stack)) callers)
        (V'.state code (pc + 1) (.value w :: stack) callers)

variable {builtins : Builtins α} {pool : List Constant} {code : List Instr} {V V' V'' : View α} {ρ : Env}
  {scope : Scope} {g : Gen} {start pc pc' pc'' : Nat} {v : CoreValue α} {w : MachineValue α} {m : CoreMemory α}

theorem Reaches.trans {items items' : List (Item (MachineValue α))} (h : Reaches builtins pool code V V' pc pc' items)
    (h' : Reaches builtins pool code V' V'' pc' pc'' items') :
    Reaches builtins pool code V V'' pc pc'' (items' ++ items) := by
  intro stack callers
  rw [List.append_assoc]
  exact (h stack callers).trans (h' (items ++ stack) callers)

/-! ## Constants and variables -/

theorem constantCode_simulates (a : Value) (hfits : Fits pool code V.slots.length start (constantCode g a))
    (hok : V.Ok pool g.cells g.nextSlot) :
    Yields builtins pool code V g.nextSlot start (constantCode g a) (.atom a) V.memory := by
  have hi : code[start]? = some (.constant g.nextIndex) := CodeAt.singleton.1 hfits.code
  have hpool : pool[g.nextIndex]? = some (.value a) := by
    obtain ⟨rest, hrest⟩ := hfits.pool
    rw [← hrest]
    simp [constantCode, Gen.addConstant, Gen.nextIndex]
  exact ⟨V, .atom a, rfl, .refl _ V, hok, .atom a, fun stack callers => .constant hi hpool⟩

theorem loadCode_simulates {name : String} {e : Core} (hv : V.memory.get ρ name = some v)
    (hfits : Fits pool code V.slots.length start (loadCode scope g name)) (hok : V.Ok pool g.cells g.nextSlot)
    (hscope : ScopeRel V scope ρ e) (hfree : name ∈ e.freeNames) :
    Yields builtins pool code V g.nextSlot start (loadCode scope g name) v V.memory := by
  have hcode := hfits.code
  unfold loadCode at hcode ⊢
  cases hs : scope.slot? name with
  | none =>
    rw [hs] at hcode
    have hi := CodeAt.singleton.1 hcode
    rw [Memory.get, hscope.global name hfree hs] at hv
    have hglobal := hok.memory.globals name
    simp only at hv
    rw [hv] at hglobal
    cases hM : V.machine.globals name with
    | none => rw [hM] at hglobal; cases hglobal
    | some w =>
      rw [hM] at hglobal
      exact ⟨V, w, rfl, .refl _ V, hok, Option.rel_some_some.1 hglobal, fun stack callers => .loadGlobal hi hM⟩
  | some s =>
    rw [hs] at hcode
    have hi := CodeAt.singleton.1 hcode
    obtain ⟨p, hl, hp, -⟩ := hscope.bound name s hs
    rw [Memory.get, hp] at hv
    simp only at hv
    cases hok.holds s p hl with
    | shared a kept slot cell =>
      obtain ⟨v', w, hv', hw, hr⟩ := hok.memory.shared p a kept
      cases hv.symm.trans hv'
      have hi' : code[start]? = some (.loadCell s) := by simpa [cell] using hi
      exact ⟨V, w, rfl, .refl _ V, hok, hr, fun stack callers => .loadCell hi' slot hw⟩
    | fixed w kept slot cell =>
      obtain ⟨v', hv', hr⟩ := hok.memory.fixed p w kept
      cases hv.symm.trans hv'
      have hi' : code[start]? = some (.load s) := by simpa [cell] using hi
      exact ⟨V, w, rfl, .refl _ V, hok, hr, fun stack callers => .load hi' slot⟩
    | owned v' w kept value slot rel cell =>
      cases hv.symm.trans value
      have hi' : code[start]? = some (.load s) := by simpa [cell] using hi
      exact ⟨V, w, rfl, .refl _ V, hok, rel, fun stack callers => .load hi' slot⟩

/-- the value on top of the stack is assigned and stays there -/
theorem storeCode_simulates {name : String} {e : Core} (hm : V.memory.put ρ name v = some m)
    (hv : ValueRel pool V.placement v w) (hcode : CodeAt code start (storeCode scope g name).1)
    (hok : V.Ok pool g.cells g.nextSlot) (hscope : ScopeRel V scope ρ e) (hfree : name ∈ e.freeNames)
    (hassigned : name ∈ e.assignedNames) :
    ∃ V', V'.memory = m ∧ View.Le g.nextSlot V V' ∧ V'.Ok pool g.cells g.nextSlot ∧ V'.placement = V.placement ∧
      ∀ stack callers, Steps builtins pool (V.state code start (.value w :: stack) callers)
        (V'.state code (start + (storeCode scope g name).1.length) (.value w :: stack) callers) := by
  unfold storeCode at hcode ⊢
  cases hs : scope.slot? name with
  | none =>
    rw [hs] at hcode
    have hi := CodeAt.singleton.1 hcode
    rw [Memory.put, hscope.global name hfree hs] at hm
    cases hm
    exact ⟨V.setGlobal name v w, rfl, .setGlobal V _ name v w, hok.setGlobal hv name, rfl,
      fun stack callers => .storeGlobal hi⟩
  | some s =>
    rw [hs] at hcode
    have hi := CodeAt.singleton.1 hcode
    obtain ⟨p, hl, hp, hsuits⟩ := hscope.bound name s hs
    have hpl := hok.place_lt hl
    rw [Memory.put, hp] at hm
    simp only [Memory.write, hpl, if_true, Option.some.injEq] at hm
    subst hm
    cases hok.holds s p hl with
    | shared a kept slot cell =>
      obtain ⟨_, w₀, -, hw₀, -⟩ := hok.memory.shared p a kept
      have ha := (List.getElem?_eq_some_iff.1 hw₀).1
      have hi' : code[start]? = some (.storeCell s) := by simpa [cell] using hi
      exact ⟨V.writeShared p a v w, rfl, .writeShared _ v w kept, hok.writeShared hv kept, rfl,
        fun stack callers => .storeCell hi' slot (by simp [Memory.write, ha, View.writeShared])⟩
    | fixed w' kept slot cell => exact absurd hassigned (hsuits.2 w' kept)
    | owned v' w' kept value slot rel cell =>
      have hlt := (List.getElem?_eq_some_iff.1 slot).1
      have hi' : code[start]? = some (.store s) := by simpa [cell] using hi
      exact ⟨V.writeOwned s p v w, rfl, .writeOwned _ v w hl, hok.writeOwned hv hl kept, rfl,
        fun stack callers => .store hi' hlt⟩

/-! ## New places -/

/-- every variable can be kept in a way that suits the body it is bound in, in a cell if and only if it needs one -/
theorem exists_stored (M : MachineMemory α) (w : MachineValue α) (name : String) (body : Core) :
    ∃ k M' item, Stored M w k M' item ∧ Suits (some k) name body ∧
      (needsCell name body = true ↔ ∃ a, k = .shared a) := by
  by_cases hassigned : name ∈ body.assignedNames
  · by_cases hcaptured : name ∈ body.capturedNames
    · exact ⟨_, _, _, .shared, ⟨nofun, nofun⟩, by simp [needsCell, hassigned, hcaptured]⟩
    · exact ⟨_, _, _, .owned, ⟨fun _ => hcaptured, nofun⟩, by simp [needsCell, hcaptured]⟩
  · exact ⟨_, _, _, .fixed, ⟨nofun, fun _ _ => hassigned⟩, by simp [needsCell, hassigned]⟩

section Place

variable {name : String} {body : Core} {s : Nat} {k : Keeping α} {M : MachineMemory α} {item : Item (MachineValue α)}

/-- the value on top of the stack is bound to a slot, in a cell if it needs one -/
theorem bind_steps (v : CoreValue α) (hk : Stored V.machine w k M item)
    (hcell : needsCell name body = true ↔ ∃ a, k = .shared a) (hlt : s < V.slots.length)
    (hcode : CodeAt code pc ((if needsCell name body then [.makeCell] else []) ++ [.bind s]))
    (stack : List (Item (MachineValue α))) (callers : List (Frame α)) :
    Steps builtins pool (V.state code pc (.value w :: stack) callers)
      ((V.place s v k M item).state code
        (pc + ((if needsCell name body then [Instr.makeCell] else []) ++ [Instr.bind s]).length) stack callers) := by
  cases hk with
  | shared =>
    have hboxed : needsCell name body = true := hcell.2 ⟨_, rfl⟩
    rw [hboxed] at hcode ⊢
    obtain ⟨hmake, hbind⟩ := CodeAt.cons.1 hcode
    exact (Steps.makeCell hmake).trans (.bind (CodeAt.singleton.1 hbind) hlt)
  | fixed =>
    have hboxed : needsCell name body = false := by simpa using hcell
    rw [hboxed] at hcode ⊢
    exact .bind (CodeAt.singleton.1 hcode) hlt
  | owned =>
    have hboxed : needsCell name body = false := by simpa using hcell
    rw [hboxed] at hcode ⊢
    exact .bind (CodeAt.singleton.1 hcode) hlt

theorem set_eq_self {β : Type} {l : List β} {i : Nat} {b : β} (h : l[i]? = some b) : l.set i b = l := by
  obtain ⟨hlt, rfl⟩ := List.getElem?_eq_some_iff.1 h
  exact List.set_getElem_self hlt

/-- the argument in a slot is put into a cell if it needs one -/
theorem box_steps (v : CoreValue α) (hk : Stored V.machine w k M item)
    (hcell : needsCell name body = true ↔ ∃ a, k = .shared a) (hslot : V.slots[s]? = some (some (.value w)))
    (hcode : CodeAt code pc (if needsCell name body then cellArgument s else [])) :
    Reaches builtins pool code V (V.place s v k M item) pc
      (pc + (if needsCell name body then cellArgument s else []).length) [] := by
  intro stack callers
  have hlt := (List.getElem?_eq_some_iff.1 hslot).1
  cases hk with
  | shared =>
    have hboxed : needsCell name body = true := hcell.2 ⟨_, rfl⟩
    rw [hboxed] at hcode ⊢
    obtain ⟨hload, hcode⟩ := CodeAt.cons.1 hcode
    obtain ⟨hmake, hbind⟩ := CodeAt.cons.1 hcode
    exact ((Steps.load hload hslot).trans (.makeCell hmake)).trans (.bind (CodeAt.singleton.1 hbind) hlt)
  | fixed =>
    have hboxed : needsCell name body = false := by simpa using hcell
    rw [hboxed]
    simp only [View.state, View.place, set_eq_self hslot]
    exact .refl _
  | owned =>
    have hboxed : needsCell name body = false := by simpa using hcell
    rw [hboxed]
    simp only [View.state, View.place, set_eq_self hslot]
    exact .refl _

end Place

/-- the parameters get their places one after the other, and those that need a cell are put into one -/
theorem prologue_simulates (builtins : Builtins α) (names : List String) (body : Core) {vs : List (CoreValue α)}
    {ws : List (MachineValue α)} {k : Nat} {cells : List Nat} (hlen : names.length = vs.length)
    (hvs : List.Forall₂ (ValueRel pool V.placement) vs ws)
    (hslots : ∀ i w, ws[i]? = some w → V.slots[k + i]? = some (some (.value w))) (hok : V.Ok pool cells k)
    (hcode : CodeAt code pc ((paramCells k names body).flatMap cellArgument)) :
    ∃ V', V'.memory = V.memory.allocAll vs ∧ View.Le k V V' ∧
      V'.Ok pool (paramCells k names body ++ cells) (k + names.length) ∧
      (∀ i x, names[i]? = some x → V'.layout (k + i) = some (V.memory.heap.length + i) ∧
        Suits (V'.placement (V.memory.heap.length + i)) x body) ∧
      Reaches builtins pool code V V' pc (pc + ((paramCells k names body).flatMap cellArgument).length) [] := by
  induction names generalizing V vs ws k cells pc with
  | nil =>
    obtain rfl : vs = [] := List.length_eq_zero_iff.1 hlen.symm
    exact ⟨V, by simp [Memory.allocAll], .refl _ V, by simpa [paramCells] using hok, by simp,
      fun stack callers => .refl _⟩
  | cons name names ih =>
    cases hvs with
    | nil => simp at hlen
    | @cons v w vs ws hv hvs =>
      have hslot : V.slots[k]? = some (some (.value w)) := hslots 0 w rfl
      have hlayout : V.layout k = none := by
        cases hl : V.layout k with
        | none => rfl
        | some p => exact absurd (hok.below k p hl) (by omega)
      obtain ⟨kept, M, item, hstored, hsuits, hcell⟩ := exists_stored V.machine w name body
      -- the first parameter has its place then
      let V₁ := V.place k v kept M item
      let cells₁ := (if needsCell name body then [k] else []) ++ cells
      have hle₁ : View.Le k V V₁ := .place hok hlayout (Nat.le_refl _) kept M item
      have hmem₁ : ∀ t, t ≠ k → (t ∈ cells₁ ↔ t ∈ cells) := by
        intro t ht
        cases hn : needsCell name body <;> simp [cells₁, hn, ht]
      have hk₁ : k ∈ cells₁ ↔ ∃ a, kept = .shared a := by
        have hno : k ∉ cells := fun h => absurd (hok.cells k h) (by omega)
        rw [← hcell]
        cases hn : needsCell name body <;> simp [cells₁, hn, hno]
      have hb₁ : ∀ t ∈ cells₁, t < k + 1 := by
        intro t ht
        by_cases htk : t = k
        · omega
        · exact Nat.lt_succ_of_lt (hok.cells t ((hmem₁ t htk).1 ht))
      have hok₁ : V₁.Ok pool cells₁ (k + 1) := by
        refine hok.place hlayout (List.getElem?_eq_some_iff.1 hslot).1 hv hstored
          (fun t ht => hmem₁ t ?_) hk₁ (by omega) (by omega) hb₁
        rintro rfl
        exact ht hlayout
      have hslots₁ : ∀ i w', ws[i]? = some w' → V₁.slots[k + 1 + i]? = some (some (.value w')) := by
        intro i w' hw'
        have := hslots (i + 1) w' (by simpa using hw')
        rw [show k + (i + 1) = k + 1 + i by omega] at this
        exact (List.getElem?_set_ne (by omega)).trans this
      rw [paramCells_cons, List.flatMap_append] at hcode ⊢
      have hhead : (if needsCell name body then [k] else []).flatMap cellArgument =
          if needsCell name body then cellArgument k else [] := by
        cases needsCell name body <;> simp
      rw [hhead] at hcode ⊢
      obtain ⟨hcode₁, hcode₂⟩ := CodeAt.append.1 hcode
      have hreach₁ : Reaches builtins pool code V V₁ pc _ [] := box_steps v hstored hcell hslot hcode₁
      obtain ⟨V₂, hm₂, hle₂, hok₂, hnames₂, hreach₂⟩ :=
        ih (by simpa using hlen) (hvs.imp fun _ _ h => h.mono hle₁.placement) hslots₁ hok₁ hcode₂
      have hheap₁ : V₁.memory.heap.length = V.memory.heap.length + 1 := by simp [V₁, View.place, Memory.alloc]
      refine ⟨V₂, ?_, hle₁.trans hle₂ (by omega), ?_, ?_, ?_⟩
      · rw [hm₂]
        simp [V₁, View.place, Memory.alloc, Memory.allocAll]
      · rw [List.length_cons, show k + (names.length + 1) = k + 1 + names.length by omega]
        have hmem : ∀ t, t ∈ ((if needsCell name body then [k] else []) ++ paramCells (k + 1) names body) ++ cells ↔
            t ∈ paramCells (k + 1) names body ++ cells₁ := by
          intro t
          simp only [cells₁, List.mem_append]
          rw [or_assoc, or_left_comm]
        exact hok₂.weaken (Nat.le_refl _) (fun t _ => hmem t) fun t ht => hok₂.cells t ((hmem t).1 ht)
      · intro i x hx
        cases i with
        | zero =>
          cases hx
          have hl : V₁.layout k = some V.memory.heap.length := by simp [V₁, View.place]
          have hp : V₁.placement V.memory.heap.length = some kept := by simp [V₁, View.place]
          refine ⟨hle₂.layout _ _ hl, ?_⟩
          rw [Nat.add_zero, hle₂.placement _ _ hp]
          exact hsuits
        | succ i =>
          have := hnames₂ i x (by simpa using hx)
          rw [hheap₁] at this
          rw [show k + (i + 1) = k + 1 + i by omega,
            show V.memory.heap.length + (i + 1) = V.memory.heap.length + 1 + i by omega]
          exact this
      · rw [List.length_append, ← Nat.add_assoc]
        exact hreach₁.trans hreach₂

/-! ## Closures -/

/-- the captured variables are pushed as they are kept: none of them is owned -/
theorem captureCode_simulates (builtins : Builtins α) (l : LambdaSite) (names : List String)
    (hnames : ∀ x ∈ names, x ∈ l.captured) (hok : V.Ok pool l.gen.cells l.gen.nextSlot)
    (hscope : ScopeRel V l.scope ρ l.expr) (hcode : CodeAt code pc (captureCode l.scope names)) :
    ∃ items, List.Forall₂ (CapturedAs V.placement l ρ) names items ∧
      Reaches builtins pool code V V pc (pc + names.length) items.reverse := by
  induction names generalizing pc with
  | nil => exact ⟨[], .nil, fun stack callers => .refl _⟩
  | cons x names ih =>
    obtain ⟨hload, hcode⟩ := CodeAt.cons.1 hcode
    obtain ⟨hfree, hsome⟩ := mem_capturedBy.1 (hnames x List.mem_cons_self)
    obtain ⟨s, hs⟩ := Option.isSome_iff_exists.1 hsome
    simp only [hs, Option.getD_some] at hload
    obtain ⟨p, hl, hp, hsuits⟩ := hscope.bound x s hs
    have hitem : ∃ item, CapturedAs V.placement l ρ x item ∧ V.slots[s]? = some (some item) := by
      cases hok.holds s p hl with
      | shared a kept slot cell => exact ⟨_, ⟨p, s, hp, hs, Or.inl ⟨a, kept, rfl, cell⟩⟩, slot⟩
      | fixed w kept slot cell => exact ⟨_, ⟨p, s, hp, hs, Or.inr ⟨w, kept, rfl, cell, hsuits.2 w kept⟩⟩, slot⟩
      | owned v w kept => exact absurd hfree (hsuits.1 kept)
    obtain ⟨item, hcaptured, hslot⟩ := hitem
    obtain ⟨items, hitems, hreach⟩ := ih (fun y hy => hnames y (List.mem_cons_of_mem x hy)) hcode
    refine ⟨item :: items, .cons hcaptured hitems, ?_⟩
    have hfirst : Reaches builtins pool code V V pc (pc + 1) [item] := fun stack callers => .load hload hslot
    rw [List.reverse_cons, List.length_cons, show pc + (names.length + 1) = pc + 1 + names.length by omega]
    exact hfirst.trans hreach

theorem lambda_simulates (l : LambdaSite)
    (hfits : Fits pool code V.slots.length start (genCode l.scope start l.expr l.gen))
    (hok : V.Ok pool l.gen.cells l.gen.nextSlot) (hscope : ScopeRel V l.scope ρ l.expr) :
    Yields builtins pool code V l.gen.nextSlot start (genCode l.scope start l.expr l.gen)
      (.closure ⟨l.params, l.rest, l.body, ρ⟩) V.memory := by
  have hgen : genCode l.scope start l.expr l.gen = (captureCode l.scope l.captured ++
      [.closure l.outer.nextIndex l.captured.length], l.outer.addConstant (.procedure l.procedure)) :=
    genCode_lambda l.scope start l.params l.rest l.body l.gen
  have hext := genCode_extends l.expr l.scope start l.gen
  rw [hgen] at hfits hext ⊢
  obtain ⟨hcode, hpool, -⟩ := hfits
  obtain ⟨hcapture, hclosure⟩ := CodeAt.append.1 hcode
  obtain ⟨items, hitems, hreach⟩ := captureCode_simulates builtins l l.captured (fun _ h => h) hok hscope hcapture
  have hlen : (captureCode l.scope l.captured).length = l.captured.length := List.length_map _
  rw [hlen, CodeAt.singleton, hitems.length_eq] at hclosure
  have hproc := LambdaSite.pool_procedure hpool
  have hconstants : l.bodyCode.2.constants <+: pool := (List.prefix_append _ _).trans hpool
  have hrel : ClosureRel pool V.placement ⟨l.params, l.rest, l.body, ρ⟩ (.mk l.procedure items) :=
    ⟨l, rfl, rfl, rfl, rfl, hconstants, hitems, hscope.global⟩
  refine ⟨V, _, rfl, .refl _ V, hok.extend hext, .closure hrel, fun stack callers => ?_⟩
  rw [List.length_append, List.length_singleton, hlen, ← Nat.add_assoc, hitems.length_eq]
  rw [hitems.length_eq] at hreach
  exact (hreach stack callers).trans (.closure hclosure hproc)

/-! ## Calls -/

/-- the frame of a callee before its parameters have places -/
def calleeView (V : View α) (l : LambdaSite) (ρ : Env) (items : List (Item (MachineValue α)))
    (ws : List (MachineValue α)) :
    View α where
  placement := V.placement
  layout := fun s => l.captured[s]?.bind fun x => ρ.lookup x
  memory := V.memory
  slots := Frame.layOut (items ++ ws.map .value) l.procedure.frameSize
  machine := V.machine

/-- the caller's frame after a call: its own slots, and the memory that the callee leaves -/
def View.back (V V' : View α) : View α := ⟨V'.placement, V.layout, V'.memory, V.slots, V'.machine⟩

section Back

variable {cells : List Nat} {next : Nat}
  (hkept : ∀ p < V.memory.heap.length, V.placement p = some .owned → V'.memory.heap[p]? = V.memory.heap[p]?)

include hkept

theorem View.Le.back (hμ : V.placement.Le V'.placement) (hheap : V.memory.heap.length ≤ V'.memory.heap.length) :
    View.Le next V (V.back V') :=
  ⟨hμ, fun _ _ h => h, fun _ _ h => Or.inl h, rfl, hheap, fun p hp hown _ => hkept p hp hown⟩

theorem View.Ok.back (hok : V.Ok pool cells next) (hm : MemoryRel pool V'.placement V'.memory V'.machine)
    (hμ : V.placement.Le V'.placement) : (V.back V').Ok pool cells next := by
  refine ⟨hm, fun s p hs => ?_, hok.below, fun s t p hs ht hown => hok.single s t p hs ht ?_, hok.cells⟩
  · cases hok.holds s p hs with
    | shared a kept slot cell => exact .shared a (hμ _ _ kept) slot cell
    | fixed w kept slot cell => exact .fixed w (hμ _ _ kept) slot cell
    | owned v w kept value slot rel cell =>
      have hvalue : V'.memory.heap[p]? = some v := (hkept p (hok.place_lt hs) kept).trans value
      exact .owned v w (hμ _ _ kept) hvalue slot (rel.mono hμ) cell
  · rw [← hμ.eq (hok.holds s p hs).placement_ne]
    exact hown

end Back

section Callee

variable {l : LambdaSite} {c : Core.Closure} {items : List (Item (MachineValue α))} {ws : List (MachineValue α)}
  {cells : List Nat} {next : Nat}

/-- the place that a callee's slot stands for is that of a captured variable, which is kept as it was captured -/
theorem calleeView_layout (hc : CompiledAt pool V.placement l c items) {s p : Nat}
    (hs : (calleeView V l c.env items ws).layout s = some p) :
    ∃ x item, l.captured[s]? = some x ∧ c.env.lookup x = some p ∧ items[s]? = some item ∧
      CapturedAs V.placement l c.env x item := by
  obtain ⟨x, hx, hp⟩ := Option.bind_eq_some_iff.1 hs
  obtain ⟨item, hitem, hcaptured⟩ := forall₂_getElem? hc.captured hx
  exact ⟨x, item, hx, hp, hitem, hcaptured⟩

/-- no frame owns a captured place -/
theorem calleeView_not_owned (hc : CompiledAt pool V.placement l c items) {s p : Nat}
    (hs : (calleeView V l c.env items ws).layout s = some p) : V.placement p ≠ some .owned := by
  obtain ⟨x, item, -, hp, -, p', s', hp', -, h⟩ := calleeView_layout hc hs
  cases hp.symm.trans hp'
  rcases h with ⟨a, ha, -⟩ | ⟨w, hw, -⟩
  · simp [ha]
  · simp [hw]

theorem calleeView_slot {item : Item (MachineValue α)} {s : Nat} (h : (items ++ ws.map .value)[s]? = some item) :
    (calleeView V l ρ items ws).slots[s]? = some (some item) := by
  have hlt := (List.getElem?_eq_some_iff.1 h).1
  rw [calleeView, Frame.layOut, List.getElem?_append_left (by simpa using hlt), List.getElem?_map, h]
  rfl

theorem calleeView_ok (hok : V.Ok pool cells next) (hc : CompiledAt pool V.placement l c items) :
    (calleeView V l c.env items ws).Ok pool (capturedCells l.scope l.gen.cells l.captured) l.captured.length := by
  refine ⟨hok.memory, fun s p hs => ?_, fun s p hs => ?_, fun s t p hs _ hown => ?_, fun s hs => ?_⟩
  · obtain ⟨x, item, hx, hp, hitem, p', s', hp', hs', h⟩ := calleeView_layout hc hs
    cases hp.symm.trans hp'
    have hslot : (calleeView V l c.env items ws).slots[s]? = some (some item) :=
      calleeView_slot ((List.getElem?_append_left (List.getElem?_eq_some_iff.1 hitem).1).trans hitem)
    have hcell : s ∈ capturedCells l.scope l.gen.cells l.captured ↔ s' ∈ l.gen.cells := by
      rw [mem_capturedCells]
      constructor
      · rintro ⟨y, t, hy, ht, hmem⟩
        cases hx.symm.trans hy
        cases hs'.symm.trans ht
        exact hmem
      · intro hmem
        exact ⟨x, s', hx, hs', hmem⟩
    rcases h with ⟨a, ha, rfl, hmem⟩ | ⟨w, hw, rfl, hmem, -⟩
    · exact .shared a ha hslot (hcell.2 hmem)
    · exact .fixed w hw hslot fun h => hmem (hcell.1 h)
  · obtain ⟨x, -, hx, -⟩ := calleeView_layout hc hs
    exact (List.getElem?_eq_some_iff.1 hx).1
  · exact absurd hown (calleeView_not_owned hc hs)
  · obtain ⟨x, -, hx, -⟩ := mem_capturedCells.1 hs
    exact (List.getElem?_eq_some_iff.1 hx).1

/-- the scope of a procedure's body, once the parameters have their places -/
theorem callee_scope {first : Nat} (hc : CompiledAt pool V.placement l c items)
    (hle : View.Le next (calleeView V l c.env items ws) V')
    (hnames : ∀ i x, l.binders[i]? = some x → V'.layout (l.captured.length + i) = some (first + i) ∧
      Suits (V'.placement (first + i)) x l.body) :
    ScopeRel V' (frameScope l.names) (Core.bindPlaces l.binders first c.env) l.body := by
  refine ⟨fun x s hs => ?_, fun x hx hs => ?_⟩
  · rw [LambdaSite.names, frameScope_slot?] at hs
    rcases lookup_zipIdx l.binders x with ⟨hmem, hnone⟩ | ⟨i, hi, hsome⟩
    · -- a captured variable: it is not bound again, and kept as in the closure
      rw [hnone, Option.none_or] at hs
      rcases lookup_zipIdx l.captured x with ⟨-, hnone'⟩ | ⟨i, hi, hsome'⟩
      · rw [hnone' 0] at hs
        cases hs
      · rw [hsome' 0, Nat.zero_add] at hs
        cases hs
        obtain ⟨item, hitem, p, s', hp, hs', h⟩ := forall₂_getElem? hc.captured hi
        have hl : (calleeView V l c.env items ws).layout s = some p := by
          simp only [calleeView, hi, Option.bind_some]
          exact hp
        have hlook : (Core.bindPlaces l.binders first c.env).lookup x = some p := by
          rw [Core.bindPlaces, List.lookup_append, hnone first, Option.none_or, hp]
        refine ⟨p, hle.layout s p hl, hlook, ?_⟩
        rcases h with ⟨a, ha, -⟩ | ⟨w, hw, -, -, hassigned⟩
        · rw [hle.placement p _ ha]
          exact ⟨nofun, nofun⟩
        · rw [hle.placement p _ hw]
          refine ⟨nofun, fun _ _ hmem' => hassigned ?_⟩
          simp only [LambdaSite.binders] at hmem
          simp [LambdaSite.expr, Core.assignedNames, hmem', hmem]
    · -- a parameter
      rw [hsome, Option.some_or] at hs
      cases hs
      obtain ⟨hl, hsuits⟩ := hnames i x hi
      refine ⟨first + i, hl, ?_, hsuits⟩
      rw [Core.bindPlaces, List.lookup_append, hsome first, Option.some_or]
  · rw [LambdaSite.names, frameScope_slot?] at hs
    obtain ⟨hb, hcap⟩ := Option.or_eq_none_iff.1 hs
    rcases lookup_zipIdx l.binders x with ⟨hmem, hnone⟩ | ⟨i, hi, hsome⟩
    · have hfree : x ∈ l.expr.freeNames := by
        simp only [LambdaSite.binders] at hmem
        simp [LambdaSite.expr, Core.freeNames, hx, hmem]
      have hnot : x ∉ l.captured := by
        rcases lookup_zipIdx l.captured x with ⟨hmem', -⟩ | ⟨i, -, hsome'⟩
        · exact hmem'
        · rw [hsome' 0] at hcap
          cases hcap
      have hslot : l.scope.slot? x = none := by
        cases hsl : l.scope.slot? x with
        | none => rfl
        | some s => exact absurd (mem_capturedBy.2 ⟨hfree, by simp [hsl]⟩) hnot
      rw [Core.bindPlaces, List.lookup_append, hnone first, Option.none_or]
      exact hc.globals x hfree hslot
    · rw [hsome] at hb
      cases hb

end Callee

theorem enter_builtin {s : MachineState α} {stack : List (Item (MachineValue α))} {f : MachineValue α}
    (hf : ∀ c, f ≠ .closure c) (args : List (MachineValue α)) :
    s.enter builtins stack f args = (RunValue.answer builtins f args).map fun d =>
      s.push stack (.value (RunValue.embed d)) := by
  cases f with
  | closure c => exact absurd rfl (hf c)
  | _ => rfl

section Call

variable {next : Nat} {cells : List Nat} {f : CoreValue α} {f' : MachineValue α} {args : List (CoreValue α)}
  {args' : List (MachineValue α)}

/-- a callee that is not a closure gives the machine the same answer -/
theorem builtin_simulates {depth : Nat} (hf : ∀ c, f ≠ .closure c) (hf' : ∀ c, f' ≠ .closure c)
    (hcall : Core.callAt builtins .operandsFirst depth f args V.memory = .done (v, m))
    (hrel : ValueRel pool V.placement f f') (hargs : List.Forall₂ (ValueRel pool V.placement) args args')
    (hok : V.Ok pool cells next) (hi : code[pc]? = some (.call args.length)) :
    ∃ V' w, V'.memory = m ∧ View.Le next V V' ∧ V'.Ok pool cells next ∧ ValueRel pool V'.placement v w ∧
      ∀ stack callers, Steps builtins pool
        (V.state code pc (.value f' :: ((args'.map .value).reverse ++ stack)) callers)
        (V'.state code (pc + 1) (.value w :: stack) callers) := by
  rw [Core.callAt_builtin hf, Outcome.ofOption_eq_done, Option.map_eq_some_iff] at hcall
  obtain ⟨d, hd, hvm⟩ := hcall
  cases hvm
  rw [RunValue.answer_rel builtins hrel hargs] at hd
  rw [hargs.length_eq] at hi
  exact ⟨V, RunValue.embed d, rfl, .refl _ V, hok, .embed d, fun stack callers => .call hi (by
    rw [enter_builtin hf', hd]
    rfl)⟩

/-- the code of a closure's procedure does what its body means -/
theorem closure_simulates {depth : Nat} {c : Core.Closure} {l : LambdaSite} {items : List (Item (MachineValue α))}
    (hbody : SimulatesAt builtins pool depth l.body)
    (hcall : Core.callAt builtins .operandsFirst (depth + 1) (.closure c) args V.memory = .done (v, m))
    (hc : CompiledAt pool V.placement l c items) (hargs : List.Forall₂ (ValueRel pool V.placement) args args')
    (hok : V.Ok pool cells next) (hi : code[pc]? = some (.call args.length)) :
    ∃ V' w, V'.memory = m ∧ View.Le next V V' ∧ V'.Ok pool cells next ∧ ValueRel pool V'.placement v w ∧
      ∀ stack callers, Steps builtins pool
        (V.state code pc (.value (.closure (.mk l.procedure items)) :: ((args'.map .value).reverse ++ stack)) callers)
        (V'.state code (pc + 1) (.value w :: stack) callers) := by
  obtain ⟨vs, hvs, hrun⟩ := Outcome.bind_eq_done.1 hcall
  rw [Outcome.ofOption_eq_done, hc.params, hc.rest] at hvs
  rw [hc.params, hc.rest, hc.body] at hrun
  obtain ⟨hnone, -⟩ | ⟨_, ws, hvs', hws', hvsws⟩ :=
    optionRel_iff.1 (RunValue.arguments?_rel l.params.length l.rest.isSome hargs)
  · cases hnone.symm.trans hvs
  cases hvs'.symm.trans hvs
  have hitems : items.length = l.captured.length := hc.captured.length_eq.symm
  have hlen : l.binders.length = vs.length := by
    rw [RunValue.length_arguments? hvs]
    cases hr : l.rest <;> simp [LambdaSite.binders, Core.binders, hr]
  -- the callee's frame: captured items, then arguments
  let V₀ := calleeView V l c.env items ws
  have hvsws₀ : List.Forall₂ (ValueRel pool V₀.placement) vs ws := hvsws
  have hok₀ : V₀.Ok pool (capturedCells l.scope l.gen.cells l.captured) l.captured.length := calleeView_ok hok hc
  have hslots₀ : ∀ i w, ws[i]? = some w → V₀.slots[l.captured.length + i]? = some (some (.value w)) := by
    intro i w hw
    refine calleeView_slot ?_
    rw [List.getElem?_append_right (by omega), ← hitems, Nat.add_sub_cancel_left, List.getElem?_map, hw]
    rfl
  have hcode : CodeAt l.procedure.code 0 (l.prologue ++ l.bodyCode.1 ++ [.ret]) := CodeAt.self _
  obtain ⟨hcode, hret⟩ := CodeAt.append.1 hcode
  obtain ⟨hprologue, hbodyCode⟩ := CodeAt.append.1 hcode
  obtain ⟨V₁, hm₁, hle₁, hok₁, hnames₁, hreach₁⟩ :=
    prologue_simulates builtins l.binders l.body hlen hvsws₀ hslots₀ hok₀ hprologue
  have hscope₁ : ScopeRel V₁ (frameScope l.names) (Core.bindPlaces l.binders V.memory.heap.length c.env) l.body :=
    callee_scope hc hle₁ hnames₁
  have hnext : l.inner.nextSlot = l.captured.length + l.binders.length := List.length_append
  have hsize₁ : V₁.slots.length = V₀.slots.length := hle₁.size
  have hroom : l.bodyCode.2.nextSlot ≤ V₁.slots.length := by
    rw [hsize₁]
    simp only [V₀, calleeView, Frame.layOut, List.length_append, List.length_map, List.length_replicate]
    have hframe : l.procedure.frameSize = l.bodyCode.2.nextSlot := rfl
    omega
  have hfits : Fits pool l.procedure.code V₁.slots.length l.prologue.length l.bodyCode := by
    refine ⟨?_, hc.pool, hroom⟩
    rwa [Nat.zero_add] at hbodyCode
  rw [← hnext] at hok₁
  obtain ⟨V₂, w, hm₂, hle₂, hok₂, hw, hreach₂⟩ := hbody (by rw [hm₁]; exact hrun) hfits hok₁ hscope₁
  have hle : View.Le l.captured.length V₀ V₂ := hle₁.trans hle₂ (by omega)
  -- the callee leaves the places alone that the caller's frame owns
  have hkept : ∀ p < V.memory.heap.length, V.placement p = some .owned →
      V₂.memory.heap[p]? = V.memory.heap[p]? := fun p hp hown =>
    hle.kept p hp hown fun s hs => calleeView_not_owned hc hs hown
  refine ⟨V.back V₂, w, hm₂, .back hkept hle.placement hle.heap, .back hkept hok hok₂.memory hle.placement, hw, ?_⟩
  · intro stack callers
    rw [hargs.length_eq] at hi
    have henter : enter builtins (V.state code pc (.value (.closure (.mk l.procedure items)) ::
        ((args'.map .value).reverse ++ stack)) callers) stack (.closure (.mk l.procedure items)) args' =
        some (V₀.state l.procedure.code 0 [] (⟨code, pc + 1, V.slots, stack⟩ :: callers)) := by
      change (RunValue.arguments? l.params.length l.rest.isSome args').map _ = _
      rw [hws']
      rfl
    have hret' : l.procedure.code[0 + l.prologue.length + l.bodyCode.1.length]? = some .ret := by
      have := CodeAt.singleton.1 hret
      rwa [List.length_append, ← Nat.add_assoc] at this
    rw [Nat.zero_add] at hret'
    have hsteps₁ := hreach₁ [] (⟨code, pc + 1, V.slots, stack⟩ :: callers)
    have hsteps₂ := hreach₂ [] (⟨code, pc + 1, V.slots, stack⟩ :: callers)
    rw [Nat.zero_add] at hsteps₁
    exact (((Steps.call hi henter).trans hsteps₁).trans hsteps₂).trans (.ret hret')

end Call

/-! ## Expressions -/

theorem Fits.earlier {c : List Instr × Gen} {g' : Gen} {size : Nat} (hcode : CodeAt code start c.1)
    (hext : c.2.Extends g')
    (hpool : g'.constants <+: pool) (hroom : g'.nextSlot ≤ size) : Fits pool code size start c :=
  ⟨hcode, hext.constants.trans hpool, Nat.le_trans hext.nextSlot_le hroom⟩

section Expressions

variable {depth : Nat}

/-- a slot that was given out and not used yet gets a place, in a cell if the variable needs one -/
theorem place_ok {n : Nat} {boxed : Bool} {k : Keeping α} {M : MachineMemory α} {item : Item (MachineValue α)}
    (hok : V.Ok pool g.cells g.nextSlot) (hlayout : V.layout n = none) (hnew : n ∉ g.cells) (hlt : n < g.nextSlot)
    (hroom : g.nextSlot ≤ V.slots.length) (hv : ValueRel pool V.placement v w) (hk : Stored V.machine w k M item)
    (hboxed : boxed = true ↔ ∃ a, k = .shared a) :
    (V.place n v k M item).Ok pool (if boxed then g.addCell n else g).cells
      (if boxed then g.addCell n else g).nextSlot := by
  have hnext : (if boxed then g.addCell n else g).nextSlot = g.nextSlot := by cases boxed <;> rfl
  have hmem : ∀ t, t ∈ (if boxed then g.addCell n else g).cells ↔ boxed = true ∧ t = n ∨ t ∈ g.cells := by
    intro t
    cases boxed <;> simp [Gen.addCell]
  rw [hnext]
  refine hok.place hlayout (by omega) hv hk (fun t ht => ?_) ?_ (Nat.le_refl _) hlt fun t ht => ?_
  · have htn : t ≠ n := by rintro rfl; exact ht hlayout
    simp [hmem, htn]
  · rw [hmem, ← hboxed]
    simp [hnew]
  · rcases (hmem t).1 ht with ⟨-, rfl⟩ | ht
    · exact hlt
    · exact hok.cells t ht

theorem letIn_simulates {name : String} {value body : Core} (hvalue : SimulatesAt builtins pool depth value)
    (hbody : SimulatesAt builtins pool depth body) : SimulatesAt builtins pool depth (.letIn name value body) := by
  intro scope start g ρ code V v m heval hfits hok hscope
  rw [genCode_letIn] at hfits ⊢
  let c := genCode scope start value (g.allocate name)
  let front := letFront scope start name value body g
  let g₁ := letGen scope start name value body g
  let b := genCode ((name, g.nextSlot) :: scope) (start + front.length) body g₁
  obtain ⟨hcode, hpool, hroom⟩ : Fits pool code V.slots.length start (front ++ b.1, b.2) := hfits
  have hc : (g.allocate name).Extends c.2 := genCode_extends value scope start _
  have hnext : (g.allocate name).nextSlot = g.nextSlot + 1 := by simp [Gen.allocate, Gen.nextSlot]
  have hb : g₁.Extends b.2 := genCode_extends body _ _ _
  have hlt : g.nextSlot < c.2.nextSlot := by
    have := hc.nextSlot_le
    omega
  have hg₁ : g₁.constants = c.2.constants ∧ g₁.nextSlot = c.2.nextSlot := by
    simp only [g₁, letGen]
    split <;> exact ⟨rfl, rfl⟩
  have hroom₁ : c.2.nextSlot ≤ V.slots.length := hg₁.2 ▸ Nat.le_trans hb.nextSlot_le hroom
  obtain ⟨hfront, hcode₂⟩ := CodeAt.append.1 hcode
  have hfront' :
      CodeAt code start (c.1 ++ ((if needsCell name body then [.makeCell] else []) ++ [.bind g.nextSlot])) := by
    rw [← List.append_assoc]
    exact hfront
  obtain ⟨hcode₁, hbind⟩ := CodeAt.append.1 hfront'
  obtain ⟨⟨v₁, m₁⟩, hrun₁, hrun₂⟩ := Outcome.bind_eq_done.1 heval
  -- the value
  obtain ⟨V₁, w₁, rfl, hle₁, hok₁, hw₁, hreach₁⟩ := hvalue hrun₁ ⟨hcode₁, hg₁.1 ▸ hb.constants.trans hpool, hroom₁⟩
    (hok.extend (.allocate g name)) (hscope.part (.letValue name value body))
  have hlayout : V₁.layout g.nextSlot = none := by
    cases hl : V₁.layout g.nextSlot with
    | none => rfl
    | some p =>
      rcases hle₁.newSlots _ p hl with hl | ⟨hge, -⟩
      · exact absurd (hok.below _ p hl) (by omega)
      · omega
  have hnew : g.nextSlot ∉ c.2.cells := by
    intro h
    rcases hc.newCells _ h with h | ⟨hge, -⟩
    · exact absurd (hok.cells _ h) (by omega)
    · omega
  -- its place
  obtain ⟨k, M, item, hstored, hsuits, hcell⟩ := exists_stored V₁.machine w₁ name body
  let V₂ := V₁.place g.nextSlot v₁ k M item
  have hroom₂ : c.2.nextSlot ≤ V₁.slots.length := hle₁.size ▸ hroom₁
  have hok₂ : V₂.Ok pool g₁.cells g₁.nextSlot := place_ok hok₁ hlayout hnew hlt hroom₂ hw₁ hstored hcell
  have hle₂ : View.Le g.nextSlot V₁ V₂ := .place hok₁ hlayout (Nat.le_refl _) k M item
  have hscope₂ : ScopeRel V₂ ((name, g.nextSlot) :: scope) ((name, V₁.memory.heap.length) :: ρ) body :=
    (hscope.later hok hle₁).letBody hok₁ hlayout hsuits
  have hreach₂ : Reaches builtins pool code V V₂ start (start + front.length) [] := by
    intro stack callers
    have hlen : start + c.1.length + ((if needsCell name body then [Instr.makeCell] else []) ++
        [Instr.bind g.nextSlot]).length = start + front.length := by
      simp only [front, letFront, c, List.length_append]
      omega
    rw [← hlen]
    exact (hreach₁ stack callers).trans (bind_steps v₁ hstored hcell (by omega) hbind stack callers)
  -- the body
  have hsize₂ : V₂.slots.length = V.slots.length := hle₂.size.trans hle₁.size
  obtain ⟨V₃, w₃, hm₃, hle₃, hok₃, hw₃, hreach₃⟩ :=
    hbody (V := V₂) hrun₂ ⟨hcode₂, hpool, hsize₂ ▸ hroom⟩ hok₂ hscope₂
  have hle : View.Le g.nextSlot V V₃ :=
    (((View.Le.refl _ V).trans hle₁ (by omega)).trans hle₂ (Nat.le_refl _)).trans hle₃ (by omega)
  refine ⟨V₃, w₃, hm₃, hle, hok₃, hw₃, ?_⟩
  rw [List.length_append, ← Nat.add_assoc]
  exact hreach₂.trans hreach₃

/-- operands are pushed from left to right -/
theorem genAll_simulates {es : List Core} (hes : ∀ e ∈ es, SimulatesAt builtins pool depth e) {vs : List (CoreValue α)}
    (hrun : Core.runAll .operandsFirst (Core.callAt builtins .operandsFirst depth) es ρ V.memory = .done (vs, m))
    (hfits : Fits pool code V.slots.length start (genAll scope start es g)) (hok : V.Ok pool g.cells g.nextSlot)
    (hscope : ∀ e ∈ es, ScopeRel V scope ρ e) :
    ∃ V' ws, V'.memory = m ∧ View.Le g.nextSlot V V' ∧
      V'.Ok pool (genAll scope start es g).2.cells (genAll scope start es g).2.nextSlot ∧
      List.Forall₂ (ValueRel pool V'.placement) vs ws ∧
      Reaches builtins pool code V V' start (start + (genAll scope start es g).1.length) (ws.map .value).reverse := by
  induction es generalizing V g start vs with
  | nil =>
    cases hrun
    exact ⟨V, [], rfl, .refl _ V, hok, .nil, fun stack callers => .refl _⟩
  | cons e es ih =>
    obtain ⟨⟨v₁, m₁⟩, hrun₁, hrun⟩ := Outcome.bind_eq_done.1 hrun
    obtain ⟨⟨vs₂, m₂⟩, hrun₂, hrun⟩ := Outcome.bind_eq_done.1 hrun
    cases hrun
    let c := genCode scope start e g
    let cs := genAll scope (start + c.1.length) es c.2
    obtain ⟨hcode, hpool, hroom⟩ : Fits pool code V.slots.length start (c.1 ++ cs.1, cs.2) := hfits
    obtain ⟨hcode₁, hcode₂⟩ := CodeAt.append.1 hcode
    have hext : c.2.Extends cs.2 := genAll_extends_all _ scope _ _
    obtain ⟨V₁, w₁, rfl, hle₁, hok₁, hw₁, hreach₁⟩ := hes e List.mem_cons_self hrun₁
      (.earlier hcode₁ hext hpool hroom) hok (hscope e List.mem_cons_self)
    obtain ⟨V₂, ws₂, hm₂, hle₂, hok₂, hws₂, hreach₂⟩ := ih (fun e' h => hes e' (List.mem_cons_of_mem e h)) hrun₂
      ⟨hcode₂, hpool, hle₁.size ▸ hroom⟩ hok₁ fun e' h => (hscope e' (List.mem_cons_of_mem e h)).later hok hle₁
    have hle : View.Le g.nextSlot V V₂ := hle₁.trans hle₂ (genCode_extends e scope start g).nextSlot_le
    refine ⟨V₂, w₁ :: ws₂, hm₂, hle, hok₂, .cons (hw₁.mono hle₂.placement) hws₂, ?_⟩
    have hlen : (genAll scope start (e :: es) g).1.length = c.1.length + cs.1.length := List.length_append
    rw [List.map_cons, List.reverse_cons, hlen, ← Nat.add_assoc]
    exact hreach₁.trans hreach₂

theorem app_simulates {operator : Core} {operands : List Core} (hcalls : CallsSimulated builtins pool depth)
    (hoperator : SimulatesAt builtins pool depth operator)
    (hoperands : ∀ e ∈ operands, SimulatesAt builtins pool depth e) :
    SimulatesAt builtins pool depth (.app operator operands) := by
  intro scope start g ρ code V v m heval hfits hok hscope
  rw [genCode] at hfits ⊢
  let as := genAll scope start operands g
  let f := genCode scope (start + as.1.length) operator as.2
  obtain ⟨hcode, hpool, hroom⟩ : Fits pool code V.slots.length start (as.1 ++ f.1 ++ [.call operands.length], f.2) :=
    hfits
  obtain ⟨hcode, hcall⟩ := CodeAt.append.1 hcode
  obtain ⟨hcode₁, hcode₂⟩ := CodeAt.append.1 hcode
  rw [CodeAt.singleton, List.length_append, ← Nat.add_assoc] at hcall
  obtain ⟨⟨vs, m₁⟩, hrun₁, hrun⟩ := Outcome.bind_eq_done.1 heval
  obtain ⟨⟨vf, m₂⟩, hrun₂, hrun₃⟩ := Outcome.bind_eq_done.1 hrun
  have hext : as.2.Extends f.2 := genCode_extends operator _ _ _
  have hextAll : g.Extends as.2 := genAll_extends_all _ scope _ _
  obtain ⟨V₁, ws, rfl, hle₁, hok₁, hws, hreach₁⟩ :=
    genAll_simulates hoperands hrun₁ (.earlier hcode₁ hext hpool hroom) hok
    fun e he => hscope.part (.operand operator he)
  obtain ⟨V₂, wf, rfl, hle₂, hok₂, hwf, hreach₂⟩ := hoperator hrun₂ ⟨hcode₂, hpool, hle₁.size ▸ hroom⟩ hok₁
    ((hscope.part (.operator operator operands)).later hok hle₁)
  have hlen : operands.length = vs.length := (Core.length_runAll hrun₁).symm
  rw [hlen] at hcall
  obtain ⟨V₃, w, hm₃, hle₃, hok₃, hw, hreach₃⟩ :=
    hcalls hrun₃ hwf (hws.imp fun _ _ h => h.mono hle₂.placement) hok₂ hcall
  have hle : View.Le g.nextSlot V V₃ :=
    (hle₁.trans hle₂ hextAll.nextSlot_le).trans hle₃ (hextAll.trans hext).nextSlot_le
  refine ⟨V₃, w, hm₃, hle, hok₃, hw, fun stack callers => ?_⟩
  have hsteps := (hreach₁.trans hreach₂ stack callers).trans (hreach₃ stack callers)
  rwa [List.length_append, List.length_append, List.length_singleton, ← Nat.add_assoc, ← Nat.add_assoc]

theorem branch_simulates {test consequent alternative : Core} (ht : SimulatesAt builtins pool depth test)
    (hc : SimulatesAt builtins pool depth consequent) (ha : SimulatesAt builtins pool depth alternative) :
    SimulatesAt builtins pool depth (.branch test consequent (some alternative)) := by
  intro scope start g ρ code V v m heval hfits hok hscope
  rw [genCode_branch] at hfits ⊢
  let t := genCode scope start test g
  let c := genCode scope (start + t.1.length + 1) consequent t.2
  let a := genCode scope (start + t.1.length + 1 + c.1.length + 1) alternative c.2
  obtain ⟨hcode, hpool, hroom⟩ : Fits pool code V.slots.length start (branchCode start t.1 c.1 a.1, a.2) := hfits
  simp only [branchCode, CodeAt.append, CodeAt.singleton, List.length_append, List.length_singleton, ← Nat.add_assoc]
    at hcode
  obtain ⟨⟨⟨⟨hcode₁, htest⟩, hcode₂⟩, hjump⟩, hcode₃⟩ := hcode
  have hext₁ : g.Extends t.2 := genCode_extends test _ _ _
  have hext₂ : t.2.Extends c.2 := genCode_extends consequent _ _ _
  have hext₃ : c.2.Extends a.2 := genCode_extends alternative _ _ _
  obtain ⟨⟨vt, m₁⟩, hrun₁, hrun₂⟩ := Outcome.bind_eq_done.1 heval
  obtain ⟨V₁, wt, rfl, hle₁, hok₁, hwt, hreach₁⟩ := ht hrun₁ (.earlier hcode₁ (hext₂.trans hext₃) hpool hroom) hok
    (hscope.part (.test test consequent _))
  have hscope₁ := hscope.later hok hle₁
  have hsteps₁ : ∀ stack callers, Steps builtins pool (V.state code start stack callers)
      (V₁.state code (if wt.isFalse then start + t.1.length + 1 + c.1.length + 1 else start + t.1.length + 1) stack
        callers) := fun stack callers => (hreach₁ stack callers).trans (.jumpIfFalse htest)
  -- both arms end where the conditional ends
  simp only [Yields, length_branchCode]
  cases hfalse : wt.isFalse with
  | true =>
    simp only [hwt.isFalse_eq, hfalse, if_true] at hrun₂ hsteps₁
    obtain ⟨V₂, w, hm₂, hle₂, hok₂, hw, hreach₂⟩ := ha hrun₂ ⟨hcode₃, hpool, hle₁.size ▸ hroom⟩ (hok₁.extend hext₂)
      (hscope₁.part (.alternative test consequent alternative))
    have hle : View.Le g.nextSlot V V₂ := hle₁.trans hle₂ (hext₁.trans hext₂).nextSlot_le
    exact ⟨V₂, w, hm₂, hle, hok₂, hw, fun stack callers => (hsteps₁ stack callers).trans (hreach₂ stack callers)⟩
  | false =>
    simp only [hwt.isFalse_eq, hfalse, Bool.false_eq_true, if_false] at hrun₂ hsteps₁
    obtain ⟨V₂, w, hm₂, hle₂, hok₂, hw, hreach₂⟩ := hc hrun₂ (.earlier hcode₂ hext₃ hpool (hle₁.size ▸ hroom)) hok₁
      (hscope₁.part (.consequent test consequent _))
    have hle : View.Le g.nextSlot V V₂ := hle₁.trans hle₂ hext₁.nextSlot_le
    exact ⟨V₂, w, hm₂, hle, hok₂.extend hext₃, hw, fun stack callers =>
      ((hsteps₁ stack callers).trans (hreach₂ stack callers)).trans (.jump hjump)⟩

theorem assign_simulates {name : String} {value : Core} (hvalue : SimulatesAt builtins pool depth value) :
    SimulatesAt builtins pool depth (.assign name value) := by
  intro scope start g ρ code V v m heval hfits hok hscope
  rw [genCode] at hfits ⊢
  let c := genCode scope start value g
  let s := storeCode scope c.2 name
  obtain ⟨hcode, hpool, hroom⟩ : Fits pool code V.slots.length start (c.1 ++ s.1, s.2) := hfits
  obtain ⟨hcode₁, hcode₂⟩ := CodeAt.append.1 hcode
  have hext : c.2.Extends s.2 := storeCode_extends scope c.2 name
  obtain ⟨⟨v₁, m₁⟩, hrun₁, hrun₂⟩ := Outcome.bind_eq_done.1 heval
  rw [Outcome.ofOption_eq_done, Option.map_eq_some_iff] at hrun₂
  obtain ⟨m₂, hput, heq⟩ := hrun₂
  cases heq
  obtain ⟨V₁, w, rfl, hle₁, hok₁, hw, hreach₁⟩ := hvalue hrun₁ (.earlier hcode₁ hext hpool hroom) hok
    (hscope.part (.assignValue name value))
  obtain ⟨V₂, hm₂, hle₂, hok₂, hplacement, hsteps₂⟩ := storeCode_simulates hput hw hcode₂ hok₁ (hscope.later hok hle₁)
    (by simp [Core.freeNames]) (by simp [Core.assignedNames])
  have hle : View.Le g.nextSlot V V₂ := hle₁.trans hle₂ (genCode_extends value scope start g).nextSlot_le
  refine ⟨V₂, w, hm₂, hle, hok₂.extend hext, hplacement ▸ hw, fun stack callers => ?_⟩
  rw [List.length_append, ← Nat.add_assoc]
  exact (hreach₁ stack callers).trans (hsteps₂ stack callers)

theorem val_simulates (a : Value) : SimulatesAt builtins pool depth (.val a) := by
  intro scope start g ρ code V v m heval hfits hok hscope
  cases heval
  rw [genCode] at hfits ⊢
  exact constantCode_simulates a hfits hok

/-- the code of every expression does what the expression means, if calls do -/
theorem genCode_simulates (hcalls : CallsSimulated builtins pool depth) (e : Core) :
    SimulatesAt builtins pool depth e := by
  induction e with
  | var name =>
    intro scope start g ρ code V v m heval hfits hok hscope
    rw [Core.evalAt, Core.run, Outcome.ofOption_eq_done, Option.map_eq_some_iff] at heval
    obtain ⟨v', hv', heq⟩ := heval
    cases heq
    rw [genCode] at hfits ⊢
    exact loadCode_simulates hv' hfits hok hscope (by simp [Core.freeNames])
  | val a => exact val_simulates a
  | quote a =>
    intro scope start g ρ code V v m heval hfits hok hscope
    cases heval
    rw [genCode] at hfits ⊢
    exact constantCode_simulates a hfits hok
  | letIn name value body ihv ihb => exact letIn_simulates ihv ihb
  | lambda params rest body ih =>
    intro scope start g ρ code V v m heval hfits hok hscope
    cases heval
    exact lambda_simulates ⟨scope, params, rest, body, g⟩ hfits hok hscope
  | app operator operands ihf ihas => exact app_simulates hcalls ihf ihas
  | branch test consequent alternative iht ihc iha =>
    cases alternative with
    | none =>
      intro scope start g ρ code V v m heval hfits hok hscope
      rw [genCode_branch_none] at hfits ⊢
      exact branch_simulates iht ihc (val_simulates _) heval hfits hok (hscope.part (.branch_none test consequent _))
    | some alternative => exact branch_simulates iht ihc (iha _ rfl)
  | assign name value ih => exact assign_simulates ih

/-- calls to any depth do what they mean -/
theorem calls_simulated (builtins : Builtins α) (pool : List Constant) (depth : Nat) :
    CallsSimulated builtins pool depth := by
  induction depth with
  | zero =>
    intro code pc next cells V f v f' args args' m hcall hf hargs hok hi
    have hrel := hf
    cases hf with
    | closure _ => cases hcall
    | _ => exact builtin_simulates (by simp) (by simp) hcall hrel hargs hok hi
  | succ depth ih =>
    intro code pc next cells V f v f' args args' m hcall hf hargs hok hi
    have hrel := hf
    cases hf with
    | @closure c c' hc =>
      cases c' with
      | mk p items =>
        obtain ⟨l, rfl, hl⟩ := hc
        exact closure_simulates (genCode_simulates ih l.body) hcall hl hargs hok hi
    | _ => exact builtin_simulates (by simp) (by simp) hcall hrel hargs hok hi

end Expressions

/-! ## Programs -/

/-- the frame in which a program starts: no slot stands for a place yet -/
def startView (p : Program) (μ : Placement α) (m : CoreMemory α) (M : MachineMemory α) : View α :=
  ⟨μ, fun _ => none, m, Frame.layOut [] p.frameSize, M⟩

theorem startView_ok {p : Program} {μ : Placement α} {M : MachineMemory α} (table : SymbolTable)
    (hm : MemoryRel pool μ m M) :
    (startView p μ m M).Ok pool (Gen.ofTable table).cells (Gen.ofTable table).nextSlot :=
  ⟨hm, nofun, nofun, nofun, nofun⟩

/-- without scope, every variable is global -/
theorem ScopeRel.nil (V : View α) (e : Core) : ScopeRel V [] [] e := ⟨nofun, fun _ _ _ => rfl⟩

/-- **Compiled programs do what their expressions mean.** Expressions that evaluate, one after the other, to values
and a memory have a program that ends at its `ret`, with a value corresponding to the last one on top of the stack and
a corresponding memory, whatever corresponding memories they start with. Corresponding values are the same if one of
them is plain; this holds for the value on top and for the global variables. -/
theorem program_simulates (builtins : Builtins α) {exprs : List Core} (table : SymbolTable) (hne : exprs ≠ [])
    {μ : Placement α} {m m' : CoreMemory α} {M : MachineMemory α} {vs : List (CoreValue α)}
    (hm : MemoryRel (Program.ofCore exprs table).constants μ m M)
    (heval : Core.EvaluateAll builtins .operandsFirst exprs [] m vs m') :
    let p := Program.ofCore exprs table
    ∃ v s w μ', vs.getLast? = some v ∧ Steps builtins p.constants (MachineState.start p M) s ∧ s.Halted w ∧
      s.frame.code = p.code ∧ μ.Le μ' ∧ ValueRel p.constants μ' v w ∧ MemoryRel p.constants μ' m' s.memory ∧
      (∀ d, v = .embed d ↔ w = .embed d) ∧
      ∀ x d, m'.globals x = some (.embed d) ↔ s.memory.globals x = some (.embed d) := by
  intro p
  obtain ⟨depth, hrun⟩ := heval
  let c := genAll [] 0 exprs (.ofTable table)
  obtain ⟨hcode, hret⟩ : CodeAt p.code 0 c.1 ∧ CodeAt p.code (0 + c.1.length) [.ret] :=
    CodeAt.append.1 (CodeAt.self p.code)
  have hfits : Fits p.constants p.code (startView p μ m M).slots.length 0 c :=
    ⟨hcode, List.prefix_rfl, by simp [startView, Frame.layOut, p, c, Program.ofCore, Gen.nextSlot]⟩
  obtain ⟨V, ws, hm', hle, hok, hws, hreach⟩ := genAll_simulates (V := startView p μ m M)
    (fun e _ => genCode_simulates (calls_simulated builtins p.constants depth) e) hrun hfits (startView_ok table hm)
    fun e _ => .nil _ e
  have hlen : vs.length = exprs.length := Core.length_runAll hrun
  have hlast : vs.length - 1 < vs.length := by
    have := List.length_pos_iff.2 hne
    omega
  obtain ⟨w, hw, hvw⟩ := forall₂_getElem? hws (List.getElem?_eq_getElem hlast)
  have hmem : MemoryRel p.constants V.placement m' V.machine := hm' ▸ hok.memory
  refine ⟨_, V.state p.code (0 + c.1.length) ((ws.map Item.value).reverse ++ []) [], w, V.placement, ?_, hreach [] [],
    ⟨CodeAt.singleton.1 hret, rfl, ?_⟩, rfl, hle.placement, hvw, hmem, fun d => ?_, fun x d => ?_⟩
  · rw [List.getLast?_eq_getElem?, List.getElem?_eq_getElem hlast]
  · rw [hws.length_eq, ← List.getLast?_eq_getElem?] at hw
    simp [View.state, List.head?_reverse, hw]
  · exact ⟨fun h => (h ▸ hvw).embed_left, fun h => (h ▸ hvw).embed_right⟩
  · exact RunValue.Rel.some_embed_iff (hmem.globals x) d

/-- a procedure assigns a global variable's value to a variable of the code around it, which then reads it -/
theorem shared_variable_halts :
    let e := Core.letIn "n" (.val (.integer 1)) (.letIn "set" (.lambda [] none (.assign "n" (.var "g")))
      (.letIn "t" (.app (.var "set") []) (.var "n")))
    let p := Program.ofCore [e] .empty
    let globals : String → Option (Plain Empty) := fun x => if x = "g" then some (.atom (.integer 2)) else none
    ∃ s, Steps (fun _ _ => none) p.constants (MachineState.start p ⟨[], fun x => (globals x).map .embed⟩) s ∧
      s.Halted (.atom (.integer 2)) := by
  intro e p globals
  obtain ⟨v, s, w, -, hv, hsteps, hhalted, -, -, -, -, hplain, -⟩ :=
    program_simulates (fun _ _ => none) .empty (List.cons_ne_nil e []) (.ofPlain _ globals) ⟨1, rfl⟩
  cases hv
  cases (hplain (.atom (.integer 2))).1 rfl
  exact ⟨s, hsteps, hhalted⟩

end SchemeStack
