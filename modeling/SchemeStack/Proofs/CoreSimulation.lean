/-
Two evaluations side by side.

An expression and a rewritten form of it are evaluated with memories of different shape: places are numbered
differently, and one side may have places that the other lacks. A `MemoryPair` is two memories with a relation between
their places that belong together. Everything else follows from that relation and from `bodies`, which tells which
procedure bodies belong together:

- `ValueSim`: the values are the same up to closures, and closures are alike if their bodies belong together and their
  environments are alike;
- `EnvSim`: related names have places that belong together, or are the same global variable;
- `MemoryPair.Ok`: places that belong together, and global variables, have such values.

`MemoryPair.Le` is what evaluation may change. It adds places, and leaves alone the places of the target that belong
to no place of the source: what the rewritten form keeps there for itself stays.

If bodies that belong together evaluate alike whenever calls do (`Outcome.Rel`), then calls to any depth are alike
(`callAt_sim`).
-/
import SchemeStack.Proofs.CoreEvaluation
import SchemeStack.Proofs.Flattening

namespace SchemeStack

/-- which places of two memories belong together -/
abbrev PlaceRel := Nat → Nat → Prop

/-- related names have places that belong together, or are the same global variable -/
def EnvSim (W : PlaceRel) (R : NameRel) (ρ ρ' : Env) : Prop :=
  ∀ a b, R a b → (∃ p q, ρ.lookup a = some p ∧ ρ'.lookup b = some q ∧ W p q) ∨
    ρ.lookup a = none ∧ ρ'.lookup b = none ∧ a = b

/-- closures with bodies that belong together and environments that are alike -/
def ClosureSim (bodies : NameRel → Core → Core → Prop) (W : PlaceRel) (c c' : Core.Closure) : Prop :=
  c'.params = c.params ∧ c'.rest = c.rest ∧
    ∃ R : NameRel, bodies (R.bindSame (Core.binders c.params c.rest)) c.body c'.body ∧ EnvSim W R c.env c'.env

/-- the same values up to closures that are alike -/
abbrev ValueSim {α : Type} (bodies : NameRel → Core → Core → Prop) (W : PlaceRel) : CoreValue α → CoreValue α → Prop :=
  RunValue.Rel (ClosureSim bodies W)

variable {α : Type} {bodies : NameRel → Core → Core → Prop} {W W' : PlaceRel} {R : NameRel} {ρ ρ' : Env}

theorem EnvSim.mono (h : EnvSim W R ρ ρ') (hW : ∀ p q, W p q → W' p q) : EnvSim W' R ρ ρ' := by
  intro a b hab
  rcases h a b hab with ⟨p, q, hp, hq, hpq⟩ | h
  · exact Or.inl ⟨p, q, hp, hq, hW p q hpq⟩
  · exact Or.inr h

theorem ValueSim.mono {v v' : CoreValue α} (h : ValueSim bodies W v v') (hW : ∀ p q, W p q → W' p q) :
    ValueSim bodies W' v v' := by
  refine RunValue.Rel.mono ?_ h
  rintro c c' ⟨hparams, hrest, R, hbody, henv⟩
  exact ⟨hparams, hrest, R, hbody, henv.mono hW⟩

/-! ## Environments -/

/-- the environment after it has more bindings, of names among those that are hidden -/
def Hides (hidden : List String) (ρ ρ₁ : Env) : Prop := ∀ x ∉ hidden, ρ₁.lookup x = ρ.lookup x

theorem Hides.cons {hidden : List String} {ρ₁ : Env} (h : Hides hidden ρ ρ₁) (g : String) (q : Nat) :
    Hides (g :: hidden) ρ ((g, q) :: ρ₁) := by
  intro x hx
  obtain ⟨hxg, hx⟩ := not_or.1 (mt List.mem_cons.2 hx)
  have hbeq : (x == g) = false := by simpa using hxg
  rw [List.lookup_cons, hbeq]
  exact h x hx

namespace EnvSim

/-- a binding on each side, of places that belong together -/
theorem bind (h : EnvSim W R ρ ρ') {p q : Nat} (hpq : W p q) (x y : String) :
    EnvSim W (R.bind x y) ((x, p) :: ρ) ((y, q) :: ρ') := by
  rintro a b (⟨rfl, rfl⟩ | ⟨ha, hb, hab⟩)
  · exact Or.inl ⟨p, q, List.lookup_cons_self, List.lookup_cons_self, hpq⟩
  · have ha' : (a == x) = false := by simpa using ha
    have hb' : (b == y) = false := by simpa using hb
    simpa only [List.lookup_cons, ha', hb'] using h a b hab

/-- bindings on the right alone hide their names -/
theorem without (h : EnvSim W R ρ ρ') {hidden : List String} {ρ₁ : Env} (hρ : Hides hidden ρ' ρ₁) :
    EnvSim W (R.without hidden) ρ ρ₁ := by
  rintro a b ⟨hab, hb⟩
  rw [hρ b hb]
  exact h a b hab

/-- the same bindings on both sides, of places that belong together one by one -/
theorem bindSame (h : EnvSim W R ρ ρ') (names : List String) {first first' : Nat}
    (hW : ∀ i < names.length, W (first + i) (first' + i)) :
    EnvSim W (R.bindSame names) (Core.bindPlaces names first ρ) (Core.bindPlaces names first' ρ') := by
  intro a b hab
  simp only [Core.bindPlaces, List.lookup_append]
  rcases hab with ⟨rfl, ha⟩ | ⟨ha, hb, hab⟩
  · rcases lookup_zipIdx names a with ⟨hmem, -⟩ | ⟨i, hi, hlookup⟩
    · exact absurd ha hmem
    · have hlt := (List.getElem?_eq_some_iff.1 hi).1
      exact Or.inl ⟨first + i, first' + i, by rw [hlookup]; rfl, by rw [hlookup]; rfl, hW i hlt⟩
  · rcases lookup_zipIdx names a with ⟨-, hnone⟩ | ⟨i, hi, -⟩
    · rcases lookup_zipIdx names b with ⟨-, hnone'⟩ | ⟨i, hi, -⟩
      · rw [hnone, hnone', Option.none_or, Option.none_or]
        exact h a b hab
      · exact absurd (List.mem_of_getElem? hi) hb
    · exact absurd (List.mem_of_getElem? hi) ha

end EnvSim

/-! ## Memories -/

/-- two memories, and which of their places belong together -/
structure MemoryPair (α : Type) where
  places : PlaceRel
  source : CoreMemory α
  target : CoreMemory α

namespace MemoryPair

/-- places that belong together and global variables have values that are alike -/
structure Ok (bodies : NameRel → Core → Core → Prop) (P : MemoryPair α) : Prop where
  values : ∀ p q, P.places p q →
    ∃ v v', P.source.heap[p]? = some v ∧ P.target.heap[q]? = some v' ∧ ValueSim bodies P.places v v'
  left : ∀ p q q', P.places p q → P.places p q' → q = q'
  right : ∀ p p' q, P.places p q → P.places p' q → p = p'
  globals : ∀ x, Option.Rel (ValueSim bodies P.places) (P.source.globals x) (P.target.globals x)

/-- what evaluation on both sides may change -/
structure Le (P P' : MemoryPair α) : Prop where
  places : ∀ p q, P.places p q → P'.places p q
  newPlaces : ∀ p q, P'.places p q → P.places p q ∨ P.source.heap.length ≤ p ∧ P.target.heap.length ≤ q
  source : P.source.heap.length ≤ P'.source.heap.length
  target : P.target.heap.length ≤ P'.target.heap.length
  kept : ∀ q < P.target.heap.length, (∀ p, ¬ P.places p q) → P'.target.heap[q]? = P.target.heap[q]?

variable {P P' P'' : MemoryPair α} {v v' : CoreValue α} {p q : Nat}

theorem Le.refl (P : MemoryPair α) : P.Le P :=
  ⟨fun _ _ h => h, fun _ _ h => Or.inl h, Nat.le_refl _, Nat.le_refl _, fun _ _ _ => rfl⟩

/-- a place of the target without partner gets none -/
theorem Le.unpaired (h : P.Le P') (hq : q < P.target.heap.length) (hno : ∀ p, ¬ P.places p q) :
    ∀ p, ¬ P'.places p q := by
  intro p hpq
  rcases h.newPlaces p q hpq with hpq | ⟨-, hle⟩
  · exact hno p hpq
  · omega

theorem Le.trans (h : P.Le P') (h' : P'.Le P'') : P.Le P'' := by
  have hsource := h.source
  have htarget := h.target
  refine ⟨fun p q hpq => h'.places p q (h.places p q hpq), ?_, Nat.le_trans h.source h'.source,
    Nat.le_trans h.target h'.target, ?_⟩
  · intro p q hpq
    rcases h'.newPlaces p q hpq with hpq | ⟨hp, hq⟩
    · exact h.newPlaces p q hpq
    · exact Or.inr ⟨by omega, by omega⟩
  · intro q hq hno
    rw [h'.kept q (by omega) (h.unpaired hq hno), h.kept q hq hno]

theorem Ok.source_lt (h : P.Ok bodies) (hpq : P.places p q) : p < P.source.heap.length := by
  obtain ⟨v, -, hv, -, -⟩ := h.values p q hpq
  exact (List.getElem?_eq_some_iff.1 hv).1

theorem Ok.target_lt (h : P.Ok bodies) (hpq : P.places p q) : q < P.target.heap.length := by
  obtain ⟨-, v', -, hv', -⟩ := h.values p q hpq
  exact (List.getElem?_eq_some_iff.1 hv').1

/-! ### New places -/

/-- a new place on each side; they belong together -/
def alloc (P : MemoryPair α) (v v' : CoreValue α) : MemoryPair α where
  places := fun p q => P.places p q ∨ p = P.source.heap.length ∧ q = P.target.heap.length
  source := P.source.alloc v
  target := P.target.alloc v'

/-- a new place of the target alone -/
def allocTarget (P : MemoryPair α) (v' : CoreValue α) : MemoryPair α :=
  { P with target := P.target.alloc v' }

theorem le_alloc (P : MemoryPair α) (v v' : CoreValue α) : P.Le (P.alloc v v') := by
  refine ⟨fun p q h => Or.inl h, ?_, by simp [alloc, Memory.alloc], by simp [alloc, Memory.alloc], ?_⟩
  · rintro p q (h | ⟨rfl, rfl⟩)
    · exact Or.inl h
    · exact Or.inr ⟨Nat.le_refl _, Nat.le_refl _⟩
  · intro q hq _
    exact List.getElem?_append_left hq

theorem le_allocTarget (P : MemoryPair α) (v' : CoreValue α) : P.Le (P.allocTarget v') :=
  ⟨fun _ _ h => h, fun _ _ h => Or.inl h, Nat.le_refl _, by simp [allocTarget, Memory.alloc],
    fun _ hq _ => List.getElem?_append_left hq⟩

theorem Ok.alloc (h : P.Ok bodies) (hv : ValueSim bodies P.places v v') : (P.alloc v v').Ok bodies := by
  have hle : ∀ p q, P.places p q → (P.alloc v v').places p q := fun p q h => Or.inl h
  refine ⟨?_, ?_, ?_, fun x => optionRel_mono (fun _ _ hr => ValueSim.mono hr hle) (h.globals x)⟩
  · rintro p q (hpq | ⟨rfl, rfl⟩)
    · obtain ⟨w, w', hw, hw', hr⟩ := h.values p q hpq
      have hp : (P.alloc v v').source.heap[p]? = P.source.heap[p]? := List.getElem?_append_left (h.source_lt hpq)
      have hq : (P.alloc v v').target.heap[q]? = P.target.heap[q]? := List.getElem?_append_left (h.target_lt hpq)
      exact ⟨w, w', hp.trans hw, hq.trans hw', hr.mono hle⟩
    · exact ⟨v, v', by simp [MemoryPair.alloc, Memory.alloc], by simp [MemoryPair.alloc, Memory.alloc], hv.mono hle⟩
  · rintro p q q' (hpq | ⟨hp, hq⟩) (hpq' | ⟨hp', hq'⟩)
    · exact h.left p q q' hpq hpq'
    · exact absurd (h.source_lt hpq) (by omega)
    · exact absurd (h.source_lt hpq') (by omega)
    · rw [hq, hq']
  · rintro p p' q (hpq | ⟨hp, hq⟩) (hpq' | ⟨hp', hq'⟩)
    · exact h.right p p' q hpq hpq'
    · exact absurd (h.target_lt hpq) (by omega)
    · exact absurd (h.target_lt hpq') (by omega)
    · rw [hp, hp']

theorem Ok.allocTarget (h : P.Ok bodies) (v' : CoreValue α) : (P.allocTarget v').Ok bodies := by
  refine ⟨fun p q hpq => ?_, h.left, h.right, h.globals⟩
  obtain ⟨w, w', hw, hw', hr⟩ := h.values p q hpq
  have hq : (P.allocTarget v').target.heap[q]? = P.target.heap[q]? := List.getElem?_append_left (h.target_lt hpq)
  exact ⟨w, w', hw, hq.trans hw', hr⟩

/-- the new place of the target belongs to no place of the source -/
theorem Ok.allocTarget_unpaired (h : P.Ok bodies) (v' : CoreValue α) :
    ∀ p, ¬ (P.allocTarget v').places p P.target.heap.length := fun _ hpq =>
  absurd (h.target_lt hpq) (Nat.lt_irrefl _)

/-- several new places on each side; they belong together one by one -/
theorem Ok.allocAll (h : P.Ok bodies) {vs vs' : List (CoreValue α)}
    (hvs : List.Forall₂ (ValueSim bodies P.places) vs vs') :
    ∃ P', P'.source = P.source.allocAll vs ∧ P'.target = P.target.allocAll vs' ∧ P.Le P' ∧ P'.Ok bodies ∧
      ∀ i < vs.length, P'.places (P.source.heap.length + i) (P.target.heap.length + i) := by
  induction vs generalizing P vs' with
  | nil =>
    cases hvs
    exact ⟨P, by simp [Memory.allocAll], by simp [Memory.allocAll], .refl P, h, by simp⟩
  | cons v vs ih =>
    cases hvs with
    | @cons _ v' _ vs' hv hvs =>
      have hle := P.le_alloc v v'
      obtain ⟨P', hs, ht, hle', hok, hplaces⟩ := ih (h.alloc hv) (hvs.imp fun _ _ hr => hr.mono hle.places)
      refine ⟨P', ?_, ?_, hle.trans hle', hok, fun i hi => ?_⟩
      · rw [hs]
        simp [MemoryPair.alloc, Memory.alloc, Memory.allocAll]
      · rw [ht]
        simp [MemoryPair.alloc, Memory.alloc, Memory.allocAll]
      · cases i with
        | zero => exact hle'.places _ _ (Or.inr ⟨rfl, rfl⟩)
        | succ i =>
          have := hplaces i (by simpa using hi)
          simp only [MemoryPair.alloc, Memory.alloc, List.length_append, List.length_singleton] at this
          rwa [Nat.add_right_comm, Nat.add_assoc, Nat.add_right_comm, Nat.add_assoc] at this

/-! ### Reading and assigning -/

theorem Ok.get (h : P.Ok bodies) (henv : EnvSim P.places R ρ ρ') {a b : String} (hab : R a b) :
    Option.Rel (ValueSim bodies P.places) (P.source.get ρ a) (P.target.get ρ' b) := by
  rcases henv a b hab with ⟨p, q, hp, hq, hpq⟩ | ⟨hp, hq, rfl⟩
  · obtain ⟨v, v', hv, hv', hr⟩ := h.values p q hpq
    simp only [Memory.get, hp, hq, hv, hv']
    exact .some hr
  · simp only [Memory.get, hp, hq]
    exact h.globals a

/-- an assignment to places that belong together -/
theorem Ok.write (h : P.Ok bodies) (hpq : P.places p q) (hv : ValueSim bodies P.places v v') :
    Ok bodies ⟨P.places, { P.source with heap := P.source.heap.set p v },
      { P.target with heap := P.target.heap.set q v' }⟩ := by
  have hp := h.source_lt hpq
  have hq := h.target_lt hpq
  refine ⟨fun p₁ q₁ hpq₁ => ?_, h.left, h.right, h.globals⟩
  by_cases heq : p₁ = p
  · subst heq
    obtain rfl := h.left _ _ _ hpq hpq₁
    exact ⟨v, v', by simp [hp], by simp [hq], hv⟩
  · have hne : q₁ ≠ q := by
      rintro rfl
      exact heq (h.right _ _ _ hpq₁ hpq)
    obtain ⟨w, w', hw, hw', hr⟩ := h.values p₁ q₁ hpq₁
    exact ⟨w, w', by rw [List.getElem?_set_ne (Ne.symm heq), hw], by rw [List.getElem?_set_ne (Ne.symm hne), hw'], hr⟩

theorem Ok.setGlobal (h : P.Ok bodies) (hv : ValueSim bodies P.places v v') (name : String) :
    Ok bodies ⟨P.places, P.source.setGlobal name v, P.target.setGlobal name v'⟩ := by
  refine ⟨h.values, h.left, h.right, fun x => ?_⟩
  simp only [Memory.setGlobal]
  split
  · exact .some hv
  · exact h.globals x

/-- the two memories are those of a pair that comes after `P`, with the same places -/
def Assigned (bodies : NameRel → Core → Core → Prop) (P : MemoryPair α) (m m' : CoreMemory α) : Prop :=
  P.Le ⟨P.places, m, m'⟩ ∧ Ok bodies ⟨P.places, m, m'⟩

theorem Ok.put (h : P.Ok bodies) (henv : EnvSim P.places R ρ ρ') {a b : String} (hab : R a b)
    (hv : ValueSim bodies P.places v v') :
    Option.Rel (P.Assigned bodies) (P.source.put ρ a v) (P.target.put ρ' b v') := by
  rcases henv a b hab with ⟨p, q, hp, hq, hpq⟩ | ⟨hp, hq, rfl⟩
  · simp only [Memory.put, hp, hq, Memory.write, h.source_lt hpq, h.target_lt hpq, if_true]
    refine .some ⟨⟨fun _ _ h => h, fun _ _ h => Or.inl h, by simp, by simp, fun q₁ _ hno => ?_⟩, h.write hpq hv⟩
    have hne : q ≠ q₁ := by
      rintro rfl
      exact hno p hpq
    exact List.getElem?_set_ne hne
  · simp only [Memory.put, hp, hq]
    exact .some ⟨⟨fun _ _ h => h, fun _ _ h => Or.inl h, Nat.le_refl _, Nat.le_refl _, fun _ _ _ => rfl⟩,
      h.setGlobal hv a⟩

end MemoryPair

/-! ## Evaluation -/

section Evaluation

variable {P P' : MemoryPair α} {order order' : CallOrder} {β β' : Type}
  {call call' : CoreValue α → List (CoreValue α) → CoreMemory α → CoreOutcome α}

/-- results that are alike, in memories that come after `P` -/
def ResultSim (bodies : NameRel → Core → Core → Prop) (P : MemoryPair α) (r r' : CoreValue α × CoreMemory α) : Prop :=
  ∃ P' : MemoryPair α, P'.source = r.2 ∧ P'.target = r'.2 ∧ P.Le P' ∧ P'.Ok bodies ∧ ValueSim bodies P'.places r.1 r'.1

theorem ResultSim.later {r r' : CoreValue α × CoreMemory α} (h : ResultSim bodies P' r r') (hle : P.Le P') :
    ResultSim bodies P r r' := by
  obtain ⟨P₁, hs, ht, hle', hok, hv⟩ := h
  exact ⟨P₁, hs, ht, hle.trans hle', hok, hv⟩

/-- the expressions evaluate alike in environments that are -/
def EvalSim (bodies : NameRel → Core → Core → Prop) (order order' : CallOrder)
    (call call' : CoreValue α → List (CoreValue α) → CoreMemory α → CoreOutcome α) (R : NameRel) (e e' : Core) : Prop :=
  ∀ ⦃P : MemoryPair α⦄ ⦃ρ ρ' : Env⦄, P.Ok bodies → EnvSim P.places R ρ ρ' →
    Outcome.Rel (ResultSim bodies P) (e.run order call ρ P.source) (e'.run order' call' ρ' P.target)

/-- calls of values that are alike are -/
def CallSim (bodies : NameRel → Core → Core → Prop)
    (call call' : CoreValue α → List (CoreValue α) → CoreMemory α → CoreOutcome α) : Prop :=
  ∀ ⦃P : MemoryPair α⦄ ⦃f f' : CoreValue α⦄ ⦃args args' : List (CoreValue α)⦄, P.Ok bodies →
    ValueSim bodies P.places f f' → List.Forall₂ (ValueSim bodies P.places) args args' →
    Outcome.Rel (ResultSim bodies P) (call f args P.source) (call' f' args' P.target)

/-- bodies that belong together evaluate alike if calls do -/
def BodiesSim (α : Type) (bodies : NameRel → Core → Core → Prop) (order order' : CallOrder) : Prop :=
  ∀ ⦃call call' : CoreValue α → List (CoreValue α) → CoreMemory α → CoreOutcome α⦄, CallSim bodies call call' →
    ∀ ⦃R : NameRel⦄ ⦃e e' : Core⦄, bodies R e e' → EvalSim bodies order order' call call' R e e'

theorem callAt_builtin_sim {builtins : Builtins α} {f f' : CoreValue α} {args args' : List (CoreValue α)}
    (hf : ∀ c, f ≠ .closure c) (hf' : ∀ c, f' ≠ .closure c) (depth : Nat) (hok : P.Ok bodies)
    (hrel : ValueSim bodies P.places f f') (hargs : List.Forall₂ (ValueSim bodies P.places) args args') :
    Outcome.Rel (ResultSim bodies P) (Core.callAt builtins order depth f args P.source)
      (Core.callAt builtins order' depth f' args' P.target) := by
  rw [Core.callAt_builtin hf, Core.callAt_builtin hf', RunValue.answer_rel builtins hrel hargs]
  cases RunValue.answer builtins f' args' with
  | none => exact .stuck
  | some d => exact .done ⟨P, rfl, rfl, .refl P, hok, .embed d⟩

/-- closures that are alike take arguments that are alike, or both refuse them; then their bodies belong together, in
environments with the new places of the parameters -/
theorem MemoryPair.Ok.enter {c c' : Core.Closure} {args args' : List (CoreValue α)} (hok : P.Ok bodies)
    (hc : ClosureSim bodies P.places c c') (hargs : List.Forall₂ (ValueSim bodies P.places) args args') :
    Option.Rel (fun vs vs' => ∃ (P' : MemoryPair α) (R : NameRel), P'.source = P.source.allocAll vs ∧
        P'.target = P.target.allocAll vs' ∧ P.Le P' ∧ P'.Ok bodies ∧ bodies R c.body c'.body ∧
        EnvSim P'.places R (Core.bindPlaces (Core.binders c.params c.rest) P.source.heap.length c.env)
          (Core.bindPlaces (Core.binders c'.params c'.rest) P.target.heap.length c'.env))
      (RunValue.arguments? c.params.length c.rest.isSome args)
        (RunValue.arguments? c'.params.length c'.rest.isSome args') := by
  obtain ⟨hparams, hrest, R, hbody, henv⟩ := hc
  rw [hparams, hrest]
  obtain ⟨hnone, hnone'⟩ | ⟨vs, vs', hvs, hvs', hrel⟩ :=
    optionRel_iff.1 (RunValue.arguments?_rel c.params.length c.rest.isSome hargs)
  · rw [hnone, hnone']
    exact .none
  · rw [hvs, hvs']
    obtain ⟨P', hs, ht, hle, hok', hplaces⟩ := hok.allocAll hrel
    have hlen : (Core.binders c.params c.rest).length = vs.length := by
      rw [RunValue.length_arguments? hvs]
      cases c.rest <;> simp [Core.binders]
    have henv' := (henv.mono hle.places).bindSame (Core.binders c.params c.rest) (by rwa [hlen])
    exact .some ⟨P', _, hs, ht, hle, hok', hbody, henv'⟩

/-- **Calls are alike, to any depth,** if bodies that belong together evaluate alike whenever calls do -/
theorem callAt_sim (builtins : Builtins α) (hbodies : BodiesSim α bodies order order') (depth : Nat) :
    CallSim bodies (Core.callAt builtins order depth) (Core.callAt builtins order' depth) := by
  induction depth with
  | zero =>
    intro P f f' args args' hok hf hargs
    have hrel := hf
    cases hf with
    | closure _ => exact .exhausted
    | _ => exact callAt_builtin_sim (by simp) (by simp) 0 hok hrel hargs
  | succ depth ih =>
    intro P f f' args args' hok hf hargs
    have hrel := hf
    cases hf with
    | closure hc =>
      refine (Outcome.Rel.ofOption (hok.enter hc hargs)).bind ?_
      rintro vs vs' ⟨P', R', hs, ht, hle, hok', hbody, henv⟩
      have hsim := hbodies ih hbody hok' henv
      rw [hs, ht] at hsim
      exact hsim.imp fun r r' h => h.later hle
    | _ => exact callAt_builtin_sim (by simp) (by simp) (depth + 1) hok hrel hargs

end Evaluation

end SchemeStack
