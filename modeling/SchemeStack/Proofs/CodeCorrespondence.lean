/-
How the machine represents what an evaluation works with.

The machine keeps the value of a place in one of three ways (`Keeping`), which is settled when the place is made and
never changes: shared, in a cell, if the variable is assigned and captured; owned, in a slot of a single frame, if it
is assigned and not captured; or fixed, copied wherever it is needed, if it is never assigned. A `Placement` tells how
each place is kept. It decides everything else:

- `ValueRel`: values are the same up to closures, and a closure of the machine is a closure of an expression if its
  procedure is compiled from that closure's and its captured items are what its variables' places are kept as;
- `MemoryRel`: cells hold what shared places hold, fixed places hold what was copied, global variables agree;
- `View`: a frame together with an evaluation. Its layout tells which place each slot stands for, and `View.Ok` that
  each slot holds what its place is kept as;
- `ScopeRel`: the variables in scope have slots for their places, and none is kept in a way that the expression at hand
  forbids (`Suits`): an owned variable is not captured, a fixed one is not assigned.

`View.Le` is what evaluation in a frame may change: it adds places and slots, and leaves alone the places that are
owned by other frames.
-/
import Mathlib.Logic.Function.Basic
import SchemeStack.Proofs.CodeLayout
import SchemeStack.Proofs.CoreEvaluation
import SchemeStack.Proofs.MachineExecution

namespace SchemeStack

/-- how the machine keeps the value of a place -/
inductive Keeping (α : Type) where
  /-- in a cell -/
  | shared (address : Nat)
  /-- copied wherever it is needed -/
  | fixed (w : MachineValue α)
  /-- in a slot of one frame -/
  | owned

/-- how the places are kept -/
abbrev Placement (α : Type) := Nat → Option (Keeping α)

variable {α : Type}

/-- the variable may be kept like this while the expression is evaluated -/
def Suits (kept : Option (Keeping α)) (name : String) (e : Core) : Prop :=
  (kept = some .owned → name ∉ e.capturedNames) ∧ ∀ w, kept = some (.fixed w) → name ∉ e.assignedNames

namespace Placement

/-- the places of one placement are kept as in another, which may have more -/
def Le (μ μ' : Placement α) : Prop := ∀ p k, μ p = some k → μ' p = some k

/-- a place that is kept is kept as before in a placement with more places -/
theorem Le.eq {μ μ' : Placement α} (h : μ.Le μ') {p : Nat} (hp : μ p ≠ none) : μ' p = μ p := by
  cases hk : μ p with
  | none => exact absurd hk hp
  | some k => exact h p k hk

theorem le_update {μ : Placement α} {p : Nat} (hp : μ p = none) (k : Keeping α) :
    μ.Le (Function.update μ p (some k)) := by
  intro q k' hq
  have hne : q ≠ p := by rintro rfl; rw [hp] at hq; cases hq
  rw [Function.update_of_ne hne]
  exact hq

end Placement

/-! ## Closures and values -/

/-- the item is what the captured variable's place is kept as -/
def CapturedAs (μ : Placement α) (l : LambdaSite) (ρ : Env) (name : String) (item : Item (MachineValue α)) : Prop :=
  ∃ p s, ρ.lookup name = some p ∧ l.scope.slot? name = some s ∧
    ((∃ a, μ p = some (.shared a) ∧ item = .cell a ∧ s ∈ l.gen.cells) ∨
      ∃ w, μ p = some (.fixed w) ∧ item = .value w ∧ s ∉ l.gen.cells ∧ name ∉ l.expr.assignedNames)

/-- the closure is one of the procedure that is compiled at the site, with the items as what it captures -/
structure CompiledAt (pool : List Constant) (μ : Placement α) (l : LambdaSite) (c : Core.Closure)
    (items : List (Item (MachineValue α))) : Prop where
  params : c.params = l.params
  rest : c.rest = l.rest
  body : c.body = l.body
  pool : l.bodyCode.2.constants <+: pool
  captured : List.Forall₂ (CapturedAs μ l c.env) l.captured items
  globals : ∀ x ∈ l.expr.freeNames, l.scope.slot? x = none → c.env.lookup x = none

/-- the machine's closure is compiled from the expression's closure, and shares its variables -/
def ClosureRel (pool : List Constant) (μ : Placement α) (c : Core.Closure) : MachineClosure α → Prop
  | .mk p items => ∃ l : LambdaSite, p = l.procedure ∧ CompiledAt pool μ l c items

/-- the machine's value is the expression's value, up to closures -/
abbrev ValueRel (pool : List Constant) (μ : Placement α) : CoreValue α → MachineValue α → Prop :=
  RunValue.Rel (ClosureRel pool μ)

variable {pool : List Constant} {μ μ' : Placement α}

theorem CapturedAs.mono (hμ : μ.Le μ') {l : LambdaSite} {ρ : Env} {x : String} {item : Item (MachineValue α)}
    (h : CapturedAs μ l ρ x item) : CapturedAs μ' l ρ x item := by
  obtain ⟨p, s, hp, hs, ⟨a, ha, h⟩ | ⟨w, hw, h⟩⟩ := h
  · exact ⟨p, s, hp, hs, Or.inl ⟨a, hμ _ _ ha, h⟩⟩
  · exact ⟨p, s, hp, hs, Or.inr ⟨w, hμ _ _ hw, h⟩⟩

theorem ClosureRel.mono (hμ : μ.Le μ') {c : Core.Closure} {c' : MachineClosure α} (h : ClosureRel pool μ c c') :
    ClosureRel pool μ' c c' := by
  cases c' with
  | mk p items =>
    obtain ⟨l, hp, hl⟩ := h
    exact ⟨l, hp, { hl with captured := hl.captured.imp fun _ _ h => h.mono hμ }⟩

theorem ValueRel.mono (hμ : μ.Le μ') {v : CoreValue α} {w : MachineValue α} (h : ValueRel pool μ v w) :
    ValueRel pool μ' v w :=
  RunValue.Rel.mono (fun _ _ => ClosureRel.mono hμ) h

/-! ## Memories -/

/-- the machine's memory is the expression's memory, places kept as the placement says -/
structure MemoryRel (pool : List Constant) (μ : Placement α) (m : CoreMemory α) (M : MachineMemory α) : Prop where
  known : ∀ p k, μ p = some k → p < m.heap.length
  shared : ∀ p a, μ p = some (.shared a) → ∃ v w, m.heap[p]? = some v ∧ M.heap[a]? = some w ∧ ValueRel pool μ v w
  fixed : ∀ p w, μ p = some (.fixed w) → ∃ v, m.heap[p]? = some v ∧ ValueRel pool μ v w
  single : ∀ p q a, μ p = some (.shared a) → μ q = some (.shared a) → p = q
  globals : ∀ x, Option.Rel (ValueRel pool μ) (m.globals x) (M.globals x)

/-- the value of a new place is kept like this: the memory then, and the item that stands for the place -/
inductive Stored (M : MachineMemory α) (w : MachineValue α) : Keeping α → MachineMemory α → Item (MachineValue α) → Prop
  | shared : Stored M w (.shared M.heap.length) (M.alloc w) (.cell M.heap.length)
  | fixed : Stored M w (.fixed w) M (.value w)
  | owned : Stored M w .owned M (.value w)

namespace Stored

variable {M M' : MachineMemory α} {w : MachineValue α} {k : Keeping α} {item : Item (MachineValue α)}

theorem globals_eq (h : Stored M w k M' item) : M'.globals = M.globals := by
  cases h <;> rfl

/-- the cells that were there stay -/
theorem heap_eq (h : Stored M w k M' item) {a : Nat} (ha : a < M.heap.length) : M'.heap[a]? = M.heap[a]? := by
  cases h with
  | shared => exact List.getElem?_append_left ha
  | fixed => rfl
  | owned => rfl

end Stored

namespace MemoryRel

variable {m : CoreMemory α} {M : MachineMemory α} {v : CoreValue α} {w : MachineValue α}

/-- memories without places and with the same plain values as global variables -/
theorem ofPlain (pool : List Constant) (globals : String → Option (Plain α)) :
    MemoryRel pool (fun _ => none) ⟨[], fun x => (globals x).map RunValue.embed⟩
      ⟨[], fun x => (globals x).map RunValue.embed⟩ := by
  refine ⟨nofun, nofun, nofun, nofun, fun x => ?_⟩
  change Option.Rel _ ((globals x).map _) ((globals x).map _)
  cases globals x with
  | none => exact .none
  | some d => exact .some (.embed d)

theorem fresh (h : MemoryRel pool μ m M) {p : Nat} (hp : m.heap.length ≤ p) : μ p = none := by
  cases hk : μ p with
  | none => rfl
  | some k => exact absurd (h.known p k hk) (by omega)

/-- a new place, kept in any way -/
theorem alloc (h : MemoryRel pool μ m M) {k : Keeping α} {M' : MachineMemory α} {item : Item (MachineValue α)}
    (hv : ValueRel pool μ v w) (hk : Stored M w k M' item) :
    MemoryRel pool (Function.update μ m.heap.length (some k)) (m.alloc v) M' := by
  have hle : μ.Le (Function.update μ m.heap.length (some k)) := Placement.le_update (h.fresh (Nat.le_refl _)) k
  have hnew : (m.heap ++ [v])[m.heap.length]? = some v := by simp
  have hold : ∀ p, p < m.heap.length → (m.heap ++ [v])[p]? = m.heap[p]? := fun p hp => List.getElem?_append_left hp
  -- a shared place other than the new one has a cell that was there before
  have hcell : ∀ p a, μ p = some (.shared a) → a < M.heap.length := by
    intro p a hp
    obtain ⟨_, w', -, hw', -⟩ := h.shared p a hp
    exact (List.getElem?_eq_some_iff.1 hw').1
  refine ⟨?_, ?_, ?_, ?_, ?_⟩
  · intro p k' hp
    simp only [Memory.alloc, List.length_append, List.length_singleton]
    by_cases hpn : p = m.heap.length
    · omega
    · rw [Function.update_of_ne hpn] at hp
      have := h.known p k' hp
      omega
  · intro p a hp
    by_cases hpn : p = m.heap.length
    · subst hpn
      rw [Function.update_self] at hp
      cases hp
      cases hk
      exact ⟨v, w, hnew, by simp [Memory.alloc], hv.mono hle⟩
    · rw [Function.update_of_ne hpn] at hp
      obtain ⟨v', w', hv', hw', hr⟩ := h.shared p a hp
      exact ⟨v', w', (hold p (h.known p _ hp)).trans hv', (hk.heap_eq (hcell p a hp)).trans hw', hr.mono hle⟩
  · intro p w' hp
    by_cases hpn : p = m.heap.length
    · subst hpn
      rw [Function.update_self] at hp
      cases hp
      cases hk
      exact ⟨v, hnew, hv.mono hle⟩
    · rw [Function.update_of_ne hpn] at hp
      obtain ⟨v', hv', hr⟩ := h.fixed p w' hp
      exact ⟨v', (hold p (h.known p _ hp)).trans hv', hr.mono hle⟩
  · intro p q a hp hq
    by_cases hpn : p = m.heap.length <;> by_cases hqn : q = m.heap.length
    · rw [hpn, hqn]
    · subst hpn
      rw [Function.update_self] at hp
      rw [Function.update_of_ne hqn] at hq
      cases hp
      cases hk
      exact absurd (hcell q _ hq) (by omega)
    · subst hqn
      rw [Function.update_self] at hq
      rw [Function.update_of_ne hpn] at hp
      cases hq
      cases hk
      exact absurd (hcell p _ hp) (by omega)
    · rw [Function.update_of_ne hpn] at hp
      rw [Function.update_of_ne hqn] at hq
      exact h.single p q a hp hq
  · intro x
    rw [hk.globals_eq]
    exact optionRel_mono (fun _ _ hr => hr.mono hle) (h.globals x)

/-- an assignment to a global variable -/
theorem setGlobal (h : MemoryRel pool μ m M) (hv : ValueRel pool μ v w) (name : String) :
    MemoryRel pool μ (m.setGlobal name v) (M.setGlobal name w) := by
  refine ⟨h.known, h.shared, h.fixed, h.single, fun x => ?_⟩
  simp only [Memory.setGlobal]
  split
  · exact .some hv
  · exact h.globals x

/-- an assignment to a shared place -/
theorem writeShared (h : MemoryRel pool μ m M) (hv : ValueRel pool μ v w) {p a : Nat} (hp : μ p = some (.shared a)) :
    MemoryRel pool μ { m with heap := m.heap.set p v } { M with heap := M.heap.set a w } := by
  obtain ⟨_, w₀, -, hw₀, -⟩ := h.shared p a hp
  have hpl := h.known p _ hp
  have hal := (List.getElem?_eq_some_iff.1 hw₀).1
  refine ⟨fun q k hq => by simpa using h.known q k hq, fun q b hq => ?_, fun q w' hq => ?_, h.single, h.globals⟩
  · by_cases hqp : q = p
    · subst hqp
      rw [hp] at hq
      cases hq
      exact ⟨v, w, by simp [hpl], by simp [hal], hv⟩
    · have hba : b ≠ a := fun hba => hqp (h.single q p a (hba ▸ hq) hp)
      obtain ⟨v', w', hv', hw', hr⟩ := h.shared q b hq
      exact ⟨v', w', by rw [List.getElem?_set_ne (Ne.symm hqp), hv'], by rw [List.getElem?_set_ne (Ne.symm hba), hw'],
        hr⟩
  · have hqp : q ≠ p := by rintro rfl; rw [hp] at hq; cases hq
    obtain ⟨v', hv', hr⟩ := h.fixed q w' hq
    exact ⟨v', by rw [List.getElem?_set_ne (Ne.symm hqp), hv'], hr⟩

/-- an assignment to an owned place, which is no concern of the machine's memory -/
theorem writeOwned (h : MemoryRel pool μ m M) (v : CoreValue α) {p : Nat} (hp : μ p = some .owned) :
    MemoryRel pool μ { m with heap := m.heap.set p v } M := by
  refine ⟨fun q k hq => by simpa using h.known q k hq, fun q b hq => ?_, fun q w' hq => ?_, h.single, h.globals⟩
  · have hqp : q ≠ p := by rintro rfl; rw [hp] at hq; cases hq
    obtain ⟨v', w', hv', hw', hr⟩ := h.shared q b hq
    exact ⟨v', w', by rw [List.getElem?_set_ne (Ne.symm hqp), hv'], hw', hr⟩
  · have hqp : q ≠ p := by rintro rfl; rw [hp] at hq; cases hq
    obtain ⟨v', hv', hr⟩ := h.fixed q w' hq
    exact ⟨v', by rw [List.getElem?_set_ne (Ne.symm hqp), hv'], hr⟩

end MemoryRel

/-! ## Frames -/

/-- a frame of the machine, together with the evaluation that it carries out -/
structure View (α : Type) where
  placement : Placement α
  /-- the places that slots stand for -/
  layout : Nat → Option Nat
  memory : CoreMemory α
  slots : List (Option (Item (MachineValue α)))
  machine : MachineMemory α

namespace View

/-- the state of the machine in this frame -/
def state (V : View α) (code : List Instr) (pc : Nat) (stack : List (Item (MachineValue α)))
    (callers : List (Frame α)) :
    MachineState α :=
  ⟨⟨code, pc, V.slots, stack⟩, callers, V.machine⟩

/-- the slot holds what the place is kept as -/
inductive Holds (pool : List Constant) (V : View α) (cells : List Nat) (s p : Nat) : Prop
  | shared (a : Nat) (kept : V.placement p = some (.shared a)) (slot : V.slots[s]? = some (some (.cell a)))
    (cell : s ∈ cells)
  | fixed (w : MachineValue α) (kept : V.placement p = some (.fixed w)) (slot : V.slots[s]? = some (some (.value w)))
    (cell : s ∉ cells)
  | owned (v : CoreValue α) (w : MachineValue α) (kept : V.placement p = some .owned)
    (value : V.memory.heap[p]? = some v) (slot : V.slots[s]? = some (some (.value w)))
    (rel : ValueRel pool V.placement v w) (cell : s ∉ cells)

/-- the frame is in order: `cells` are the slots that hold cells, and slots from `next` on are not given out yet -/
structure Ok (pool : List Constant) (cells : List Nat) (next : Nat) (V : View α) : Prop where
  memory : MemoryRel pool V.placement V.memory V.machine
  holds : ∀ s p, V.layout s = some p → V.Holds pool cells s p
  below : ∀ s p, V.layout s = some p → s < next
  single : ∀ s t p, V.layout s = some p → V.layout t = some p → V.placement p = some .owned → s = t
  cells : ∀ s ∈ cells, s < next

/-- what evaluation in a frame may change; slots before `next` were given out before -/
structure Le (next : Nat) (V V' : View α) : Prop where
  placement : V.placement.Le V'.placement
  layout : ∀ s p, V.layout s = some p → V'.layout s = some p
  newSlots : ∀ s p, V'.layout s = some p → V.layout s = some p ∨ next ≤ s ∧ V.memory.heap.length ≤ p
  size : V'.slots.length = V.slots.length
  heap : V.memory.heap.length ≤ V'.memory.heap.length
  kept : ∀ p < V.memory.heap.length, V.placement p = some .owned → (∀ s, V.layout s ≠ some p) →
    V'.memory.heap[p]? = V.memory.heap[p]?

variable {V V' V'' : View α} {cells cells' : List Nat} {next next' s p : Nat} {v : CoreValue α} {w : MachineValue α}

theorem Holds.placement_ne (h : V.Holds pool cells s p) : V.placement p ≠ none := by
  cases h with
  | shared a kept => simp [kept]
  | fixed w kept => simp [kept]
  | owned v w kept => simp [kept]

namespace Le

theorem refl (next : Nat) (V : View α) : Le next V V :=
  ⟨fun _ _ h => h, fun _ _ h => h, fun _ _ h => Or.inl h, rfl, Nat.le_refl _, fun _ _ _ _ => rfl⟩

theorem trans (h : Le next V V') (h' : Le next' V' V'') (hn : next ≤ next') : Le next V V'' := by
  have hheap := h.heap
  refine ⟨fun q k hq => h'.placement q k (h.placement q k hq), fun s p hs => h'.layout s p (h.layout s p hs), ?_,
    h'.size.trans h.size, Nat.le_trans h.heap h'.heap, ?_⟩
  · intro s p hs
    rcases h'.newSlots s p hs with hs | ⟨h1, h2⟩
    · exact h.newSlots s p hs
    · exact Or.inr ⟨by omega, by omega⟩
  · intro p hp hown hno
    have hno' : ∀ s, V'.layout s ≠ some p := by
      intro s hs
      rcases h.newSlots s p hs with hs | ⟨-, h2⟩
      · exact hno s hs
      · omega
    rw [h'.kept p (by omega) (h.placement p _ hown) hno', h.kept p hp hown hno]

end Le

namespace Ok

/-- the same frame, with more slots given out -/
theorem weaken (h : V.Ok pool cells next) (hn : next ≤ next') (hc : ∀ s < next, s ∈ cells' ↔ s ∈ cells)
    (hb : ∀ s ∈ cells', s < next') : V.Ok pool cells' next' := by
  refine ⟨h.memory, fun s p hs => ?_, fun s p hs => Nat.lt_of_lt_of_le (h.below s p hs) hn, h.single, hb⟩
  have hiff := hc s (h.below s p hs)
  cases h.holds s p hs with
  | shared a kept slot cell => exact .shared a kept slot (hiff.2 cell)
  | fixed w kept slot cell => exact .fixed w kept slot fun hs' => cell (hiff.1 hs')
  | owned v w kept value slot rel cell => exact .owned v w kept value slot rel fun hs' => cell (hiff.1 hs')

theorem extend {g g' : Gen} (h : V.Ok pool g.cells g.nextSlot) (hg : g.Extends g') :
    V.Ok pool g'.cells g'.nextSlot := by
  refine h.weaken hg.nextSlot_le (fun s hs => hg.mem_cells_iff hs) fun s hs => ?_
  rcases hg.newCells s hs with hs | ⟨-, hs⟩
  · exact Nat.lt_of_lt_of_le (h.cells s hs) hg.nextSlot_le
  · exact hs

/-- the place of a slot is there -/
theorem place_lt (h : V.Ok pool cells next) (hs : V.layout s = some p) : p < V.memory.heap.length := by
  cases hk : V.placement p with
  | none => exact absurd hk (h.holds s p hs).placement_ne
  | some k => exact h.memory.known p k hk

end Ok

/-! ### A new place -/

/-- the frame with a new place for a slot -/
def place (V : View α) (s : Nat) (v : CoreValue α) (k : Keeping α) (M : MachineMemory α)
    (item : Item (MachineValue α)) :
    View α where
  placement := Function.update V.placement V.memory.heap.length (some k)
  layout := Function.update V.layout s (some V.memory.heap.length)
  memory := V.memory.alloc v
  slots := V.slots.set s (some item)
  machine := M

theorem layout_place_of_ne {t : Nat} {k : Keeping α} {M : MachineMemory α} {item : Item (MachineValue α)} (h : t ≠ s) :
    (V.place s v k M item).layout t = V.layout t :=
  Function.update_of_ne h _ _

theorem Ok.place (h : V.Ok pool cells next) (hs : V.layout s = none) (hlt : s < V.slots.length)
    (hv : ValueRel pool V.placement v w) {k : Keeping α} {M : MachineMemory α} {item : Item (MachineValue α)}
    (hk : Stored V.machine w k M item) (hc : ∀ t, V.layout t ≠ none → (t ∈ cells' ↔ t ∈ cells))
    (hcs : s ∈ cells' ↔ ∃ a, k = .shared a) (hn : next ≤ next') (hsn : s < next') (hb : ∀ t ∈ cells', t < next') :
    (V.place s v k M item).Ok pool cells' next' := by
  have hle : V.placement.Le (V.place s v k M item).placement :=
    Placement.le_update (h.memory.fresh (Nat.le_refl _)) k
  have hslot : (V.place s v k M item).slots[s]? = some (some item) := by simp [View.place, hlt]
  have hnew : (V.place s v k M item).memory.heap[V.memory.heap.length]? = some v := by simp [View.place, Memory.alloc]
  -- the layout of another slot is as before
  have hold : ∀ t q, t ≠ s → (V.place s v k M item).layout t = some q → V.layout t = some q := by
    intro t q ht htq
    rwa [layout_place_of_ne ht] at htq
  refine ⟨h.memory.alloc hv hk, ?_, ?_, ?_, hb⟩
  · intro t q htq
    by_cases ht : t = s
    · subst ht
      simp only [View.place, Function.update_self, Option.some.injEq] at htq
      subst htq
      have hkept : (V.place t v k M item).placement V.memory.heap.length = some k := Function.update_self _ _ _
      cases hk with
      | shared => exact .shared _ hkept hslot (hcs.2 ⟨_, rfl⟩)
      | fixed => exact .fixed _ hkept hslot fun hmem => nomatch hcs.1 hmem
      | owned => exact .owned v w hkept hnew hslot (hv.mono hle) fun hmem => nomatch hcs.1 hmem
    · have htq' := hold t q ht htq
      have hq := h.place_lt htq'
      have hiff := hc t (by simp [htq'])
      have hslots : (V.place s v k M item).slots[t]? = V.slots[t]? := List.getElem?_set_ne (Ne.symm ht)
      have hheap : (V.place s v k M item).memory.heap[q]? = V.memory.heap[q]? := List.getElem?_append_left hq
      cases h.holds t q htq' with
      | shared a kept slot cell => exact .shared a (hle _ _ kept) (hslots.trans slot) (hiff.2 cell)
      | fixed w' kept slot cell => exact .fixed w' (hle _ _ kept) (hslots.trans slot) fun hmem => cell (hiff.1 hmem)
      | owned v' w' kept value slot rel cell =>
        exact .owned v' w' (hle _ _ kept) (hheap.trans value) (hslots.trans slot) (rel.mono hle) fun hmem =>
          cell (hiff.1 hmem)
  · intro t q htq
    by_cases ht : t = s
    · omega
    · exact Nat.lt_of_lt_of_le (h.below t q (hold t q ht htq)) hn
  · intro t u q htq huq hown
    by_cases ht : t = s <;> by_cases hu : u = s
    · rw [ht, hu]
    · subst ht
      have hq : V.memory.heap.length = q := by simpa [View.place] using htq
      exact absurd (h.place_lt (hold u q hu huq)) (by omega)
    · subst hu
      have hq : V.memory.heap.length = q := by simpa [View.place] using huq
      exact absurd (h.place_lt (hold t q ht htq)) (by omega)
    · have htq' := hold t q ht htq
      have hq := h.place_lt htq'
      have hown' : V.placement q = some .owned := by
        have hne : q ≠ V.memory.heap.length := by omega
        simpa only [View.place, Function.update_of_ne hne] using hown
      exact h.single t u q htq' (hold u q hu huq) hown'

theorem Le.place (h : V.Ok pool cells next) (hs : V.layout s = none) (hsn : next' ≤ s) (k : Keeping α)
    (M : MachineMemory α) (item : Item (MachineValue α)) : Le next' V (V.place s v k M item) := by
  refine ⟨Placement.le_update (h.memory.fresh (Nat.le_refl _)) k, ?_, ?_, by simp [View.place],
    by simp [View.place, Memory.alloc], ?_⟩
  · intro t q htq
    have ht : t ≠ s := by rintro rfl; rw [hs] at htq; cases htq
    rwa [layout_place_of_ne ht]
  · intro t q htq
    by_cases ht : t = s
    · subst ht
      have hq : V.memory.heap.length = q := by simpa [View.place] using htq
      exact Or.inr ⟨hsn, Nat.le_of_eq hq⟩
    · rw [layout_place_of_ne ht] at htq
      exact Or.inl htq
  · intro q hq _ _
    exact List.getElem?_append_left hq

/-! ### Assignments -/

/-- the frame with a place assigned that is kept in a cell -/
def writeShared (V : View α) (p a : Nat) (v : CoreValue α) (w : MachineValue α) : View α :=
  { V with memory := { V.memory with heap := V.memory.heap.set p v }
           machine := { V.machine with heap := V.machine.heap.set a w } }

/-- the frame with a place assigned that one of its slots owns -/
def writeOwned (V : View α) (s p : Nat) (v : CoreValue α) (w : MachineValue α) : View α :=
  { V with memory := { V.memory with heap := V.memory.heap.set p v }, slots := V.slots.set s (some (.value w)) }

def setGlobal (V : View α) (name : String) (v : CoreValue α) (w : MachineValue α) : View α :=
  { V with memory := V.memory.setGlobal name v, machine := V.machine.setGlobal name w }

theorem Ok.setGlobal (h : V.Ok pool cells next) (hv : ValueRel pool V.placement v w) (name : String) :
    (V.setGlobal name v w).Ok pool cells next := by
  refine ⟨h.memory.setGlobal hv name, fun s p hs => ?_, h.below, h.single, h.cells⟩
  cases h.holds s p hs with
  | shared a kept slot cell => exact .shared a kept slot cell
  | fixed w kept slot cell => exact .fixed w kept slot cell
  | owned v w kept value slot rel cell => exact .owned v w kept value slot rel cell

theorem Le.setGlobal (V : View α) (next : Nat) (name : String) (v : CoreValue α) (w : MachineValue α) :
    Le next V (V.setGlobal name v w) :=
  ⟨fun _ _ h => h, fun _ _ h => h, fun _ _ h => Or.inl h, rfl, Nat.le_refl _, fun _ _ _ _ => rfl⟩

theorem Ok.writeShared (h : V.Ok pool cells next) (hv : ValueRel pool V.placement v w) {a : Nat}
    (hp : V.placement p = some (.shared a)) : (V.writeShared p a v w).Ok pool cells next := by
  refine ⟨h.memory.writeShared hv hp, fun s q hs => ?_, h.below, h.single, h.cells⟩
  cases h.holds s q hs with
  | shared a kept slot cell => exact .shared a kept slot cell
  | fixed w kept slot cell => exact .fixed w kept slot cell
  | owned v' w' kept value slot rel cell =>
    have hne : p ≠ q := by rintro rfl; rw [hp] at kept; cases kept
    exact .owned v' w' kept ((List.getElem?_set_ne hne).trans value) slot rel cell

theorem Le.writeShared (next : Nat) (v : CoreValue α) (w : MachineValue α) {a : Nat}
    (hp : V.placement p = some (.shared a)) : Le next V (V.writeShared p a v w) := by
  refine ⟨fun _ _ h => h, fun _ _ h => h, fun _ _ h => Or.inl h, rfl, by simp [View.writeShared], fun q hq hown _ => ?_⟩
  have hne : p ≠ q := by rintro rfl; rw [hp] at hown; cases hown
  exact List.getElem?_set_ne hne

theorem Ok.writeOwned (h : V.Ok pool cells next) (hv : ValueRel pool V.placement v w) (hs : V.layout s = some p)
    (hp : V.placement p = some .owned) : (V.writeOwned s p v w).Ok pool cells next := by
  have hlt : s < V.slots.length := by
    cases h.holds s p hs with
    | shared a kept slot => exact (List.getElem?_eq_some_iff.1 slot).1
    | fixed w kept slot => exact (List.getElem?_eq_some_iff.1 slot).1
    | owned v w kept value slot => exact (List.getElem?_eq_some_iff.1 slot).1
  have hpl := h.place_lt hs
  refine ⟨h.memory.writeOwned v hp, fun t q ht => ?_, h.below, h.single, h.cells⟩
  by_cases hts : t = s
  · subst hts
    cases hs.symm.trans ht
    have hcell : t ∉ cells := by
      cases h.holds t p hs with
      | shared a kept => rw [hp] at kept; cases kept
      | fixed w kept slot cell => exact cell
      | owned v w kept value slot rel cell => exact cell
    exact .owned v w hp (by simp [View.writeOwned, hpl]) (by simp [View.writeOwned, hlt]) hv hcell
  · have hslots : (V.writeOwned s p v w).slots[t]? = V.slots[t]? := List.getElem?_set_ne (Ne.symm hts)
    cases h.holds t q ht with
    | shared a kept slot cell => exact .shared a kept (hslots.trans slot) cell
    | fixed w' kept slot cell => exact .fixed w' kept (hslots.trans slot) cell
    | owned v' w' kept value slot rel cell =>
      -- no two slots own the same place
      have hne : p ≠ q := by rintro rfl; exact hts (h.single t s p ht hs hp)
      exact .owned v' w' kept ((List.getElem?_set_ne hne).trans value) (hslots.trans slot) rel cell

theorem Le.writeOwned (next : Nat) (v : CoreValue α) (w : MachineValue α) (hs : V.layout s = some p) :
    Le next V (V.writeOwned s p v w) := by
  refine ⟨fun _ _ h => h, fun _ _ h => h, fun _ _ h => Or.inl h, by simp [View.writeOwned], by simp [View.writeOwned],
    fun q hq _ hno => ?_⟩
  have hne : p ≠ q := by rintro rfl; exact hno s hs
  exact List.getElem?_set_ne hne

end View

/-! ## Variables in scope -/

/-- the names of a part of an expression are among those of the expression -/
structure CensusLe (e' e : Core) : Prop where
  free : ∀ x ∈ e'.freeNames, x ∈ e.freeNames
  assigned : ∀ x ∈ e'.assignedNames, x ∈ e.assignedNames
  captured : ∀ x ∈ e'.capturedNames, x ∈ e.capturedNames

namespace CensusLe

theorem letValue (name : String) (value body : Core) : CensusLe value (.letIn name value body) :=
  ⟨fun _ => List.mem_append_left _, fun _ => List.mem_append_left _, fun _ => List.mem_append_left _⟩

theorem operator (f : Core) (es : List Core) : CensusLe f (.app f es) :=
  ⟨fun _ => List.mem_append_right _, fun _ => List.mem_append_right _, fun _ => List.mem_append_right _⟩

theorem operand (f : Core) {es : List Core} {e : Core} (he : e ∈ es) : CensusLe e (.app f es) := by
  refine ⟨fun x hx => List.mem_append_left _ ?_, fun x hx => List.mem_append_left _ ?_,
    fun x hx => List.mem_append_left _ ?_⟩
  · exact Core.mem_freeNamesAll.2 ⟨e, he, hx⟩
  · exact Core.mem_assignedNamesAll.2 ⟨e, he, hx⟩
  · exact Core.mem_capturedNamesAll.2 ⟨e, he, hx⟩

theorem arms (t c a : Core) : CensusLe (.branch t c none) (.branch t c (some a)) :=
  ⟨fun _ => List.mem_append_left _, fun _ => List.mem_append_left _, fun _ => List.mem_append_left _⟩

theorem trans {e₁ e₂ e₃ : Core} (h : CensusLe e₁ e₂) (h' : CensusLe e₂ e₃) : CensusLe e₁ e₃ :=
  ⟨fun x hx => h'.free x (h.free x hx), fun x hx => h'.assigned x (h.assigned x hx),
    fun x hx => h'.captured x (h.captured x hx)⟩

theorem test (t c : Core) (a : Option Core) : CensusLe t (.branch t c a) := by
  have hnone : CensusLe t (.branch t c none) :=
    ⟨fun _ => List.mem_append_left _, fun _ => List.mem_append_left _, fun _ => List.mem_append_left _⟩
  cases a with
  | none => exact hnone
  | some a => exact hnone.trans (arms t c a)

theorem consequent (t c : Core) (a : Option Core) : CensusLe c (.branch t c a) := by
  have hnone : CensusLe c (.branch t c none) :=
    ⟨fun _ => List.mem_append_right _, fun _ => List.mem_append_right _, fun _ => List.mem_append_right _⟩
  cases a with
  | none => exact hnone
  | some a => exact hnone.trans (arms t c a)

theorem alternative (t c a : Core) : CensusLe a (.branch t c (some a)) :=
  ⟨fun _ => List.mem_append_right _, fun _ => List.mem_append_right _, fun _ => List.mem_append_right _⟩

theorem branch_none (t c : Core) (v : Value) : CensusLe (.branch t c (some (.val v))) (.branch t c none) :=
  ⟨by simp [Core.freeNames], by simp [Core.assignedNames], by simp [Core.capturedNames]⟩

theorem assignValue (name : String) (value : Core) : CensusLe value (.assign name value) :=
  ⟨fun _ => List.mem_cons_of_mem _, fun _ => List.mem_cons_of_mem _, fun _ => id⟩

end CensusLe

theorem Suits.part {kept : Option (Keeping α)} {x : String} {e e' : Core} (h : Suits kept x e) (he : CensusLe e' e) :
    Suits kept x e' :=
  ⟨fun hk hx => h.1 hk (he.captured x hx), fun w hk hx => h.2 w hk (he.assigned x hx)⟩

/-- the variables in scope have slots, and the others are global -/
structure ScopeRel (V : View α) (scope : Scope) (ρ : Env) (e : Core) : Prop where
  bound : ∀ x s, scope.slot? x = some s → ∃ p, V.layout s = some p ∧ ρ.lookup x = some p ∧ Suits (V.placement p) x e
  global : ∀ x ∈ e.freeNames, scope.slot? x = none → ρ.lookup x = none

namespace ScopeRel

variable {V V' : View α} {scope : Scope} {ρ : Env} {e e' : Core} {cells : List Nat} {next next' : Nat}

theorem part (h : ScopeRel V scope ρ e) (he : CensusLe e' e) : ScopeRel V scope ρ e' := by
  refine ⟨fun x s hs => ?_, fun x hx => h.global x (he.free x hx)⟩
  obtain ⟨p, hl, hp, hsuits⟩ := h.bound x s hs
  exact ⟨p, hl, hp, hsuits.part he⟩

/-- evaluation in the frame does not change how the variables in scope are kept -/
theorem later (h : ScopeRel V scope ρ e) (hok : V.Ok pool cells next) (hle : View.Le next' V V') :
    ScopeRel V' scope ρ e := by
  refine ⟨fun x s hs => ?_, h.global⟩
  obtain ⟨p, hl, hp, hsuits⟩ := h.bound x s hs
  refine ⟨p, hle.layout s p hl, hp, ?_⟩
  rw [hle.placement.eq (hok.holds s p hl).placement_ne]
  exact hsuits

/-- the scope of a binding's body -/
theorem letBody {name : String} {value body : Core} {s : Nat} {v : CoreValue α} {k : Keeping α} {M : MachineMemory α}
    {item : Item (MachineValue α)} (h : ScopeRel V scope ρ (.letIn name value body)) (hok : V.Ok pool cells next)
    (hs : V.layout s = none) (hk : Suits (some k) name body) :
    ScopeRel (V.place s v k M item) ((name, s) :: scope) ((name, V.memory.heap.length) :: ρ) body := by
  refine ⟨fun x t ht => ?_, fun x hx ht => ?_⟩
  · by_cases hx : x = name
    · subst hx
      simp only [Scope.slot?, List.lookup_cons_self, Option.some.injEq] at ht
      subst ht
      exact ⟨V.memory.heap.length, by simp [View.place], List.lookup_cons_self, by simpa [View.place] using hk⟩
    · have hbeq : (x == name) = false := by simpa using hx
      simp only [Scope.slot?, List.lookup_cons, hbeq] at ht
      obtain ⟨p, hl, hp, hsuits⟩ := h.bound x t ht
      have htne : t ≠ s := by rintro rfl; rw [hs] at hl; cases hl
      have hpne : p ≠ V.memory.heap.length := by have := hok.place_lt hl; omega
      refine ⟨p, by rwa [View.layout_place_of_ne htne], by simpa only [List.lookup_cons, hbeq] using hp, ?_⟩
      have hkept : (V.place s v k M item).placement p = V.placement p := Function.update_of_ne hpne _ _
      rw [hkept]
      refine ⟨fun hown hc => hsuits.1 hown ?_, fun w hw hc => hsuits.2 w hw ?_⟩
      · simp [Core.capturedNames, hc, hx]
      · simp [Core.assignedNames, hc, hx]
  · have hne : x ≠ name := by rintro rfl; simp [Scope.slot?] at ht
    have hbeq : (x == name) = false := by simpa using hne
    simp only [Scope.slot?, List.lookup_cons, hbeq] at ht ⊢
    exact h.global x (by simp [Core.freeNames, hx, hne]) ht

end ScopeRel

end SchemeStack
