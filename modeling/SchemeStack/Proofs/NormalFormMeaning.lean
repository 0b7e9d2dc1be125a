/-
The A-normal form means the same.

`normalForm_evaluates`: with atoms read when a call is made (`CallOrder.atomsLast`), an expression and its A-normal form
evaluate alike, from any memory and any supply of names: one has a result if the other has, and the results correspond.

Results correspond (`ResultsCorrespond`) if
- the values are the same up to closures, so a plain value is the very same;
- every variable of the environment, and every global variable, has values that are;
- a call of the two values, with arguments that correspond, ends alike, and so do the calls that may follow it.
The order of calls and assignments is part of that: a closure that some variable holds can record each call in another.

A memory is well placed if no environment in it has a place that is missing. One that is missing could come into being
later, as a different variable on each side.
-/
import SchemeStack.Proofs.FlatteningMeaning
import SchemeStack.Proofs.NormalFormShape

namespace SchemeStack

/-! ## Memories beside themselves -/

/-- the variables of the environment, and of every closure in the memory, have places that exist -/
structure WellPlaced {α : Type} (ρ : Env) (m : CoreMemory α) : Prop where
  env : PlacesBelow m.heap.length ρ
  closures : m.Forall fun c => PlacesBelow m.heap.length c.env

namespace MemoryPair

variable {α : Type} {m : CoreMemory α}

/-- a memory beside itself -/
def diagonal (m : CoreMemory α) : MemoryPair α := ⟨fun p q => p = q ∧ p < m.heap.length, m, m⟩

theorem diagonal_env {ρ : Env} (h : PlacesBelow m.heap.length ρ) : EnvSim (diagonal m).places (· = ·) ρ ρ := by
  rintro a b rfl
  cases hp : ρ.lookup a with
  | none => exact Or.inr ⟨rfl, rfl, rfl⟩
  | some p => exact Or.inl ⟨p, p, rfl, rfl, rfl, h a p hp⟩

/-- a memory is alike to itself if the places of its closures exist and their bodies belong together with themselves -/
theorem diagonal_ok {bodies : NameRel → Core → Core → Prop}
    (hm : m.Forall fun c => PlacesBelow m.heap.length c.env ∧
      bodies (NameRel.bindSame (· = ·) (Core.binders c.params c.rest)) c.body c.body) : (diagonal m).Ok bodies := by
  have hclosure : ∀ c : Core.Closure, (PlacesBelow m.heap.length c.env ∧
      bodies (NameRel.bindSame (· = ·) (Core.binders c.params c.rest)) c.body c.body) →
      ClosureSim bodies (diagonal m).places c c := fun c h => ⟨rfl, rfl, (· = ·), h.2, diagonal_env h.1⟩
  refine ⟨?_, ?_, ?_, fun x => ?_⟩
  · rintro p q ⟨rfl, hp⟩
    have hget := List.getElem?_eq_getElem hp
    exact ⟨_, _, hget, hget, (hm.heap _ (List.getElem_mem hp)).rel hclosure⟩
  · rintro p q q' ⟨rfl, -⟩ ⟨rfl, -⟩
    rfl
  · rintro p p' q ⟨rfl, -⟩ ⟨rfl, -⟩
    rfl
  · change Option.Rel _ (m.globals x) (m.globals x)
    cases hx : m.globals x with
    | none => exact .none
    | some v => exact .some ((hm.globals x v hx).rel hclosure)

end MemoryPair

/-! ## Results that correspond -/

/-- two results that correspond: values, variables, and what later calls do -/
structure ResultsCorrespond {α : Type} (builtins : Builtins α) (bodies : NameRel → Core → Core → Prop)
    (order order' : CallOrder) (ρ : Env) (W : PlaceRel) (r r' : CoreValue α × CoreMemory α) : Prop where
  value : ValueSim bodies W r.1 r'.1
  plainValue : ∀ d : Plain α, r.1 = .embed d ↔ r'.1 = .embed d
  contents : ∀ x, Option.Rel (ValueSim bodies W) (r.2.get ρ x) (r'.2.get ρ x)
  plainContents : ∀ x (d : Plain α), r.2.get ρ x = some (.embed d) ↔ r'.2.get ρ x = some (.embed d)
  calls : ∀ depth args args', List.Forall₂ (ValueSim bodies W) args args' →
    Outcome.Rel (ResultSim bodies ⟨W, r.2, r'.2⟩) (Core.callAt builtins order depth r.1 args r.2)
      (Core.callAt builtins order' depth r'.1 args' r'.2)

namespace Core

variable {α : Type} {builtins : Builtins α} {keep : Prop} {order' : CallOrder} {e t : Core} {ρ : Env} {m : CoreMemory α}

theorem bodiesSim_flattens (hkeep : keep → order' = .atomsLast) : BodiesSim α (Flattens keep) .atomsLast order' :=
  fun _ _ hcall _ e _ h => flattens_sim hkeep hcall e h

/-- an expression and a flattened form of it end alike, to any depth of calls -/
theorem evalAt_flattens (hkeep : keep → order' = .atomsLast) (ht : Flattens keep (· = ·) e t)
    (hρ : PlacesBelow m.heap.length ρ) (hok : (MemoryPair.diagonal m).Ok (Flattens keep)) (depth : Nat) :
    Outcome.Rel (fun r r' => ∃ W, ResultsCorrespond builtins (Flattens keep) .atomsLast order' ρ W r r')
      (evalAt builtins .atomsLast depth e ρ m) (evalAt builtins order' depth t ρ m) := by
  have hcall := callAt_sim builtins (bodiesSim_flattens (α := α) hkeep)
  have henv := MemoryPair.diagonal_env hρ
  refine (flattens_sim hkeep (hcall depth) e ht hok henv).imp ?_
  rintro ⟨v, m₁⟩ ⟨v', m₂⟩ ⟨P, rfl, rfl, hle, hok', hv⟩
  have hcontents := fun x => hok'.get (henv.mono hle.places) (rfl : x = x)
  refine ⟨P.places, hv, fun d => ⟨?_, ?_⟩, hcontents, fun x d => RunValue.Rel.some_embed_iff (hcontents x) d, ?_⟩
  · rintro rfl
    exact hv.embed_left
  · rintro rfl
    exact hv.embed_right
  · intro depth args args' hargs
    exact hcall depth hok' hv hargs

/-- what the expression evaluates to, the flattened form does -/
theorem Evaluates.flattens (hkeep : keep → order' = .atomsLast) (ht : Flattens keep (· = ·) e t)
    (hρ : PlacesBelow m.heap.length ρ) (hok : (MemoryPair.diagonal m).Ok (Flattens keep)) {v : CoreValue α}
    {m₁ : CoreMemory α} (h : Evaluates builtins .atomsLast e ρ m v m₁) :
    ∃ v' m₂ W, Evaluates builtins order' t ρ m v' m₂ ∧
      ResultsCorrespond builtins (Flattens keep) .atomsLast order' ρ W (v, m₁) (v', m₂) := by
  obtain ⟨depth, h⟩ := h
  obtain ⟨⟨v', m₂⟩, h', W, hr⟩ := (evalAt_flattens hkeep ht hρ hok depth).of_done h
  exact ⟨v', m₂, W, ⟨depth, h'⟩, hr⟩

/-- what the flattened form evaluates to, the expression does -/
theorem Evaluates.unflattens (hkeep : keep → order' = .atomsLast) (ht : Flattens keep (· = ·) e t)
    (hρ : PlacesBelow m.heap.length ρ) (hok : (MemoryPair.diagonal m).Ok (Flattens keep)) {v' : CoreValue α}
    {m₂ : CoreMemory α} (h : Evaluates builtins order' t ρ m v' m₂) :
    ∃ v m₁ W, Evaluates builtins .atomsLast e ρ m v m₁ ∧
      ResultsCorrespond builtins (Flattens keep) .atomsLast order' ρ W (v, m₁) (v', m₂) := by
  obtain ⟨depth, h⟩ := h
  obtain ⟨⟨v, m₁⟩, h', W, hr⟩ := (evalAt_flattens hkeep ht hρ hok depth).of_done_right h
  exact ⟨v, m₁, W, ⟨depth, h'⟩, hr⟩

/-- a well placed memory is alike to itself if applications may keep their parts, or have atoms only in its closures -/
theorem diagonal_flattens (h : WellPlaced ρ m) (hkeep : m.Forall fun c => keep ∨ c.body.Every AtomicCall) :
    (MemoryPair.diagonal m).Ok (Flattens keep) := by
  refine MemoryPair.diagonal_ok ((h.closures.and hkeep).imp fun c hc => ⟨hc.1, .self hc.2 fun x _ => ?_⟩)
  by_cases hx : x ∈ binders c.params c.rest
  · exact Or.inl ⟨rfl, hx⟩
  · exact Or.inr ⟨hx, hx, rfl⟩

/-- **The A-normal form means the same** as the expression, whatever the supply of names, when atoms are read at the
call: each evaluates if the other does, to results that correspond -/
theorem normalForm_evaluates (builtins : Builtins α) (e : Core) (s : Supply) (ρ : Env) (m : CoreMemory α)
    (h : WellPlaced ρ m) :
    (∀ v m₁, Evaluates builtins .atomsLast e ρ m v m₁ →
      ∃ v' m₂ W, Evaluates builtins .atomsLast (e.normalForm s).1 ρ m v' m₂ ∧
        ResultsCorrespond builtins (Flattens True) .atomsLast .atomsLast ρ W (v, m₁) (v', m₂)) ∧
    ∀ v' m₂, Evaluates builtins .atomsLast (e.normalForm s).1 ρ m v' m₂ →
      ∃ v m₁ W, Evaluates builtins .atomsLast e ρ m v m₁ ∧
        ResultsCorrespond builtins (Flattens True) .atomsLast .atomsLast ρ W (v, m₁) (v', m₂) := by
  have hok : (MemoryPair.diagonal m).Ok (Flattens True) :=
    diagonal_flattens h (h.closures.imp fun _ _ => Or.inl trivial)
  constructor
  · intro v m₁ he
    exact he.flattens (fun _ => rfl) (normalForm_flattens e s) h.env hok
  · intro v' m₂ he
    exact he.unflattens (fun _ => rfl) (normalForm_flattens e s) h.env hok

/-- an operand binds the name of another operand, and calls a closure of the memory that assigns that one -/
theorem rebound_operand_evaluates :
    let x := Core.var "x"
    let e := app (.var "list") [x, .letIn "x" (.assign "x" (.val (.integer 2))) (.app (.var "set") [x])]
    let set : Closure := ⟨["y"], none, .assign "x" (.app (.var "list") [.var "x", .var "y"]), [("x", 0)]⟩
    let m : CoreMemory Unit := ⟨[.atom (.integer 1)],
      fun y => if y = "list" then some (.foreign ()) else if y = "set" then some (.closure set) else none⟩
    let twos : Plain Unit := .ofList [.atom (.integer 2), .atom (.integer 2)]
    WellPlaced [("x", 0)] m ∧
      ∃ m', Evaluates (fun _ args => some (.ofList args)) .atomsLast (e.normalForm (.ofTable .empty)).1 [("x", 0)] m
        (.embed (.ofList [twos, twos])) m' ∧ m'.get [("x", 0)] "x" = some (.embed twos) := by
  intro x e set m twos
  have hplaces : PlacesBelow 1 [("x", 0)] := by
    intro y p h
    rw [List.lookup_cons] at h
    split at h <;> cases h
    exact Nat.one_pos
  have hm : WellPlaced [("x", 0)] m := by
    refine ⟨hplaces, ⟨by simp [m, RunValue.Forall], fun y v hv => ?_⟩⟩
    simp only [m] at hv
    split_ifs at hv <;> cases hv
    · exact trivial
    · exact hplaces
  obtain ⟨v', m', W, heval, hr⟩ :=
    (normalForm_evaluates (fun _ args => some (.ofList args)) e (.ofTable .empty) [("x", 0)] m hm).1 _ _ ⟨1, rfl⟩
  cases (hr.plainValue (.ofList [twos, twos])).1 rfl
  exact ⟨hm, m', heval, (hr.plainContents "x" twos).1 rfl⟩

end Core

end SchemeStack
