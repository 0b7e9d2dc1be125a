/-
Removing dead bindings keeps the meaning.

`dropDead_evaluates`: what an expression evaluates to, it also evaluates to without its dead bindings, from any
memory. The values are the same up to closures, so a plain value is the very same; every variable of the environment,
and every global variable, has values that are; and what a later call of the one yields, a call of the other does. The
converse fails: a dead binding may read a global variable that has no value, and the expression without it does not.

`Drops R e t` tells that `t` is `e` without some bindings. The name of a binding that is gone still hides an outer
variable in the source, so `R` loses it: no name of `t` may refer to a variable of that name. The value of such a
binding has no effect, so all that is left of it is a place of the source that belongs to no place of the target.

Liveness and effects are judged on parts that were already treated. That makes no difference for effects
(`actsIn_dropDead`): whatever is removed has none.
-/
import SchemeStack.Core.DeadBinding
import SchemeStack.Proofs.Effects
import SchemeStack.Proofs.NormalFormMeaning

namespace SchemeStack

/-! ## Results from left to right -/

namespace Outcome

variable {β β' γ γ' : Type} {P P' : β → γ → Prop} {Q : β' → γ' → Prop} {o : Outcome β} {o' : Outcome γ}

/-- a result on the left comes with a related one on the right -/
def Sim (P : β → γ → Prop) (o : Outcome β) (o' : Outcome γ) : Prop := ∀ b, o = .done b → ∃ c, o' = .done c ∧ P b c

theorem Rel.sim (h : Rel P o o') : Sim P o o' := fun _ hb => h.of_done hb

theorem Sim.done {b : β} {c : γ} (h : P b c) : Sim P (.done b) (.done c) := (Rel.done h).sim

theorem Sim.imp (h : Sim P o o') (hP : ∀ b c, P b c → P' b c) : Sim P' o o' := by
  intro b hb
  obtain ⟨c, hc, h⟩ := h b hb
  exact ⟨c, hc, hP b c h⟩

theorem Sim.bind {next : β → Outcome β'} {next' : γ → Outcome γ'} (h : Sim P o o')
    (hnext : ∀ b c, P b c → Sim Q (next b) (next' c)) : Sim Q (o.bind next) (o'.bind next') := by
  intro b hb
  obtain ⟨a, ha, hb⟩ := bind_eq_done.1 hb
  obtain ⟨c, rfl, hac⟩ := h a ha
  exact hnext a c hac b hb

/-- something that is done on the left alone -/
theorem Sim.bind_left {o : Outcome β'} {next : β' → Outcome β} (h : ∀ b, o = .done b → Sim P (next b) o') :
    Sim P (o.bind next) o' := by
  intro b hb
  obtain ⟨a, ha, hb⟩ := bind_eq_done.1 hb
  exact h a ha b hb

end Outcome

namespace MemoryPair

variable {α : Type} {bodies : NameRel → Core → Core → Prop} {P : MemoryPair α} {m : CoreMemory α}

def growSource (P : MemoryPair α) (m : CoreMemory α) : MemoryPair α := { P with source := m }

theorem le_growSource (h : P.source.Grows m) : P.Le (P.growSource m) :=
  ⟨fun _ _ h => h, fun _ _ h => Or.inl h, h.1.length_le, Nat.le_refl _, fun _ _ _ => rfl⟩

theorem Ok.growSource (hok : P.Ok bodies) (h : P.source.Grows m) : (P.growSource m).Ok bodies := by
  refine ⟨fun p q hpq => ?_, hok.left, hok.right, fun x => ?_⟩
  · obtain ⟨v, v', hv, hv', hr⟩ := hok.values p q hpq
    obtain ⟨added, hm⟩ := h.1
    refine ⟨v, v', ?_, hv', hr⟩
    change m.heap[p]? = some v
    rw [← hm, List.getElem?_append_left (hok.source_lt hpq), hv]
  · change Option.Rel _ (m.globals x) _
    rw [h.2]
    exact hok.globals x

end MemoryPair

/-! ## Expressions without some bindings -/

/-- the relation where a name on the left is hidden -/
def NameRel.hideLeft (R : NameRel) (x : String) : NameRel := fun a b => R a b ∧ a ≠ x

theorem EnvSim.hideLeft {W : PlaceRel} {R : NameRel} {ρ ρ' : Env} (h : EnvSim W R ρ ρ') (x : String) (p : Nat) :
    EnvSim W (R.hideLeft x) ((x, p) :: ρ) ρ' := by
  rintro a b ⟨hab, hax⟩
  have hbeq : (a == x) = false := by simpa using hax
  simpa only [List.lookup_cons, hbeq] using h a b hab

mutual

/-- the second expression is the first without some bindings of values that have no effect -/
inductive Drops : NameRel → Core → Core → Prop
  | var {R : NameRel} {a b : String} : R a b → Drops R (.var a) (.var b)
  | val {R : NameRel} (v : Value) : Drops R (.val v) (.val v)
  | quote {R : NameRel} (v : Value) : Drops R (.quote v) (.quote v)
  | letIn {R : NameRel} {x : String} {v v' b b' : Core} :
    Drops R v v' → Drops (R.bind x x) b b' → Drops R (.letIn x v b) (.letIn x v' b')
  | dropped {R : NameRel} {x : String} {v b b' : Core} :
    v.hasEffect true = false → Drops (R.hideLeft x) b b' → Drops R (.letIn x v b) b'
  | lambda {R : NameRel} {ps : List String} {r : Option String} {b b' : Core} :
    Drops (R.bindSame (Core.binders ps r)) b b' → Drops R (.lambda ps r b) (.lambda ps r b')
  | app {R : NameRel} {f f' : Core} {es es' : List Core} :
    Drops R f f' → DropsAll R es es' → Drops R (.app f es) (.app f' es')
  | branchNone {R : NameRel} {t t' c c' : Core} :
    Drops R t t' → Drops R c c' → Drops R (.branch t c none) (.branch t' c' none)
  | branchSome {R : NameRel} {t t' c c' a a' : Core} :
    Drops R t t' → Drops R c c' → Drops R a a' → Drops R (.branch t c (some a)) (.branch t' c' (some a'))
  | assign {R : NameRel} {x y : String} {v v' : Core} : R x y → Drops R v v' → Drops R (.assign x v) (.assign y v')

/-- so are the expressions of a list -/
inductive DropsAll : NameRel → List Core → List Core → Prop
  | nil {R : NameRel} : DropsAll R [] []
  | cons {R : NameRel} {e e' : Core} {es es' : List Core} :
    Drops R e e' → DropsAll R es es' → DropsAll R (e :: es) (e' :: es')

end

variable {R : NameRel} {e t : Core}

theorem NameRel.bind_self {x y : String} (h : y ≠ x → R y y) : R.bind x x y y := by
  by_cases hyx : y = x
  · exact Or.inl ⟨hyx, hyx⟩
  · exact Or.inr ⟨hyx, hyx, h hyx⟩

theorem NameRel.bindSame_self {names : List String} {y : String} (h : y ∉ names → R y y) : R.bindSame names y y := by
  by_cases hy : y ∈ names
  · exact Or.inl ⟨rfl, hy⟩
  · exact Or.inr ⟨hy, hy, h hy⟩

theorem DropsAll.of_map {f : Core → Core} {es : List Core} (h : ∀ e ∈ es, Drops R e (f e)) :
    DropsAll R es (es.map f) := by
  induction es with
  | nil => exact .nil
  | cons e es ih => exact .cons (h e List.mem_cons_self) (ih fun e' he' => h e' (List.mem_cons_of_mem e he'))

namespace Core

theorem dropDeadAll_eq_map (es : List Core) : dropDeadAll es = es.map dropDead := by
  induction es with
  | nil => rfl
  | cons e es ih => rw [dropDeadAll, ih, List.map_cons]

theorem isDead_iff {name : String} {v b : Core} :
    isDead name v b = true ↔ name ∉ b.freeNames ∧ v.hasEffect true = false := by
  simp [isDead]

/-- an expression acts if and only if it does without its dead bindings -/
theorem actsIn_dropDead (inLambda : Bool) (e : Core) : e.dropDead.actsIn true inLambda = e.actsIn true inLambda := by
  induction e generalizing inLambda with
  | var name => rfl
  | val v => rfl
  | quote v => rfl
  | letIn name value body ihv ihb =>
    rw [dropDead]
    split
    · rename_i hdead
      have hv : value.dropDead.actsIn true false = false := (isDead_iff.1 hdead).2
      have hv' : value.actsIn true inLambda = false := by
        rw [← ihv]
        cases inLambda with
        | false => exact hv
        | true => exact actsIn_lambda_of_false hv
      rw [actsIn_letIn, hv', Bool.false_or, ihb]
    · rw [actsIn_letIn, actsIn_letIn, ihv, ihb]
  | lambda params rest body ih => rw [dropDead, actsIn_lambda, actsIn_lambda, ih]
  | app operator operands ihf ihas =>
    have hany : (operands.map dropDead).any (actsIn true inLambda) = operands.any (actsIn true inLambda) := by
      rw [List.any_map, Bool.eq_iff_iff, List.any_eq_true, List.any_eq_true]
      exact exists_congr fun e => and_congr_right fun he => by rw [Function.comp_apply, ihas e he]
    rw [dropDead, dropDeadAll_eq_map, actsIn_app, actsIn_app, hany, ihf]
  | branch test consequent alternative iht ihc iha =>
    cases alternative with
    | none => rw [dropDead, actsIn_branch, actsIn_branch, iht, ihc]
    | some alternative =>
      rw [dropDead, actsIn_branch, actsIn_branch, iht, ihc, Option.any_some, Option.any_some, iha _ rfl]
  | assign name value ih => rw [dropDead, actsIn_assign, actsIn_assign]

/-- an expression without its dead bindings is the expression without some bindings -/
theorem dropDead_drops (h : ∀ x ∈ e.dropDead.freeNames, R x x) : Drops R e e.dropDead := by
  induction e generalizing R with
  | var name => exact .var (h name (by simp [dropDead, freeNames]))
  | val v => exact .val v
  | quote v => exact .quote v
  | letIn name value body ihv ihb =>
    rw [dropDead] at h ⊢
    split at h
    · rename_i hdead
      obtain ⟨hname, hvalue⟩ := isDead_iff.1 hdead
      rw [if_pos hdead]
      refine .dropped ((actsIn_dropDead false value).symm.trans hvalue) (ihb fun x hx => ⟨h x hx, ?_⟩)
      rintro rfl
      exact hname hx
    · rename_i hlive
      rw [if_neg hlive]
      refine .letIn (ihv fun x hx => h x (by simp [freeNames, hx]))
        (ihb fun x hx => NameRel.bind_self fun hxn => h x ?_)
      simp [freeNames, hx, hxn]
  | lambda params rest body ih =>
    refine .lambda (ih fun x hx => NameRel.bindSame_self fun hxb => h x ?_)
    simp [dropDead, freeNames, hx, hxb]
  | app operator operands ihf ihas =>
    rw [dropDead, dropDeadAll_eq_map] at h ⊢
    refine .app (ihf fun x hx => h x (by simp [freeNames, hx])) (.of_map fun e he => ihas e he fun x hx => h x ?_)
    simpa [freeNames] using Or.inl ⟨e, he, hx⟩
  | branch test consequent alternative iht ihc iha =>
    cases alternative with
    | none =>
      rw [dropDead] at h ⊢
      exact .branchNone (iht fun x hx => h x (by simp [freeNames, hx])) (ihc fun x hx => h x (by simp [freeNames, hx]))
    | some alternative =>
      rw [dropDead] at h ⊢
      exact .branchSome (iht fun x hx => h x (by simp [freeNames, hx])) (ihc fun x hx => h x (by simp [freeNames, hx]))
        (iha _ rfl fun x hx => h x (by simp [freeNames, hx]))
  | assign name value ih =>
    rw [dropDead] at h ⊢
    exact .assign (h name (by simp [freeNames])) (ih fun x hx => h x (by simp [freeNames, hx]))

end Core

open SchemeStack.Core in
/-- an expression is itself without no bindings, if its free names stand for themselves -/
theorem Drops.self (h : ∀ x ∈ e.freeNames, R x x) : Drops R e e := by
  induction e generalizing R with
  | var name => exact .var (h name (by simp [freeNames]))
  | val v => exact .val v
  | quote v => exact .quote v
  | letIn name value body ihv ihb =>
    refine .letIn (ihv fun x hx => h x (by simp [freeNames, hx])) (ihb fun x hx => NameRel.bind_self fun hxn => h x ?_)
    simp [freeNames, hx, hxn]
  | lambda params rest body ih =>
    refine .lambda (ih fun x hx => NameRel.bindSame_self fun hxb => h x ?_)
    simp [freeNames, hx, hxb]
  | app operator operands ihf ihas =>
    have hparts : DropsAll R operands (operands.map id) := by
      refine .of_map fun e he => ihas e he fun x hx => h x ?_
      simpa [freeNames] using Or.inl ⟨e, he, hx⟩
    rw [List.map_id] at hparts
    exact .app (ihf fun x hx => h x (by simp [freeNames, hx])) hparts
  | branch test consequent alternative iht ihc iha =>
    cases alternative with
    | none =>
      exact .branchNone (iht fun x hx => h x (by simp [freeNames, hx])) (ihc fun x hx => h x (by simp [freeNames, hx]))
    | some alternative =>
      exact .branchSome (iht fun x hx => h x (by simp [freeNames, hx])) (ihc fun x hx => h x (by simp [freeNames, hx]))
        (iha _ rfl fun x hx => h x (by simp [freeNames, hx]))
  | assign name value ih =>
    exact .assign (h name (by simp [freeNames])) (ih fun x hx => h x (by simp [freeNames, hx]))

/-! ## Simulation -/

section Simulation

open SchemeStack.Core

variable {α : Type} {builtins : Builtins α} {P : MemoryPair α} {ρ ρ' : Env}
  {call call' : CoreValue α → List (CoreValue α) → CoreMemory α → CoreOutcome α}

/-- what calls of values that are alike yield on the left, they do on the right -/
def DropsCall (call call' : CoreValue α → List (CoreValue α) → CoreMemory α → CoreOutcome α) : Prop :=
  ∀ ⦃P : MemoryPair α⦄ ⦃f f' : CoreValue α⦄ ⦃args args' : List (CoreValue α)⦄, P.Ok Drops →
    ValueSim Drops P.places f f' → List.Forall₂ (ValueSim Drops P.places) args args' →
    Outcome.Sim (ResultSim Drops P) (call f args P.source) (call' f' args' P.target)

/-- what the expression evaluates to, it does without some bindings -/
def DropsRun (call call' : CoreValue α → List (CoreValue α) → CoreMemory α → CoreOutcome α) (e : Core) : Prop :=
  ∀ ⦃R : NameRel⦄ ⦃t : Core⦄, Drops R e t → ∀ ⦃P : MemoryPair α⦄ ⦃ρ ρ' : Env⦄, P.Ok Drops → EnvSim P.places R ρ ρ' →
    Outcome.Sim (ResultSim Drops P) (e.run .operandsFirst call ρ P.source) (t.run .operandsFirst call' ρ' P.target)

theorem letIn_drops {x : String} {v b : Core} (hv : DropsRun call call' v) (hb : DropsRun call call' b) :
    DropsRun call call' (.letIn x v b) := by
  intro R t h P ρ ρ' hok henv
  cases h with
  | letIn hvt hbt =>
    rw [run, run]
    refine (hv hvt hok henv).bind ?_
    rintro ⟨r, m⟩ ⟨r', m'⟩ ⟨P₁, hs, ht, hle, hok₁, hr⟩
    cases hs
    cases ht
    have hle₁ := hle.trans (P₁.le_alloc r r')
    have hsim := hb hbt (hok₁.alloc hr) ((henv.mono hle₁.places).bind (Or.inr ⟨rfl, rfl⟩) x x)
    exact hsim.imp fun _ _ h => h.later hle₁
  | dropped hvalue hbt =>
    -- the value leaves a place that belongs to no place of the target
    rw [run]
    refine Outcome.Sim.bind_left fun r hr => ?_
    have hgrows := ((effectless hvalue).noAssignment _ _ _ _ r hr).trans (.alloc r.2 r.1)
    have hle := P.le_growSource hgrows
    have hsim := hb hbt (hok.growSource hgrows) ((henv.mono hle.places).hideLeft x r.2.heap.length)
    exact hsim.imp fun _ _ h => h.later hle

theorem operands_drops {es es' : List Core} (hes : ∀ e ∈ es, DropsRun call call' e) (h : DropsAll R es es')
    (hok : P.Ok Drops) (henv : EnvSim P.places R ρ ρ') :
    Outcome.Sim (ResultsSim Drops P) (runAll .operandsFirst call es ρ P.source)
      (runAll .operandsFirst call' es' ρ' P.target) := by
  induction es generalizing P es' with
  | nil =>
    cases h
    exact .done ⟨P, rfl, rfl, .refl P, hok, .nil⟩
  | cons e es ih =>
    cases h with
    | cons he h =>
      rw [runAll, runAll]
      refine (hes e List.mem_cons_self he hok henv).bind ?_
      rintro ⟨v, m⟩ ⟨v', m'⟩ ⟨P₁, hs, ht, hle₁, hok₁, hr⟩
      cases hs
      cases ht
      refine (ih (fun e' he' => hes e' (List.mem_cons_of_mem e he')) h hok₁ (henv.mono hle₁.places)).bind ?_
      rintro rs rs' ⟨P₂, hs, ht, hle₂, hok₂, hrs⟩
      exact .done ⟨P₂, hs, ht, hle₁.trans hle₂, hok₂, .cons (hr.mono hle₂.places) hrs⟩

theorem app_drops {f : Core} {es : List Core} (hcall : DropsCall call call') (hf : DropsRun call call' f)
    (hes : ∀ e ∈ es, DropsRun call call' e) : DropsRun call call' (.app f es) := by
  intro R t h P ρ ρ' hok henv
  cases h with
  | app hft hest =>
    rw [run, run]
    refine (operands_drops hes hest hok henv).bind ?_
    rintro ⟨vs, m⟩ ⟨vs', m'⟩ ⟨P₁, hs, ht, hle₁, hok₁, hvs⟩
    cases hs
    cases ht
    refine (hf hft hok₁ (henv.mono hle₁.places)).bind ?_
    rintro ⟨v, m⟩ ⟨v', m'⟩ ⟨P₂, hs, ht, hle₂, hok₂, hv⟩
    cases hs
    cases ht
    have hargs := hvs.imp fun _ _ hr => ValueSim.mono hr hle₂.places
    exact (hcall hok₂ hv hargs).imp fun _ _ h => h.later (hle₁.trans hle₂)

theorem branch_drops {c : Core} {a : Option Core} (ht : DropsRun call call' t) (hc : DropsRun call call' c)
    (ha : ∀ e ∈ a, DropsRun call call' e) : DropsRun call call' (.branch t c a) := by
  intro R u h P ρ ρ' hok henv
  cases h with
  | branchNone htt hct =>
    rw [run_branch, run_branch]
    refine (ht htt hok henv).bind ?_
    rintro ⟨v, m⟩ ⟨v', m'⟩ ⟨P₁, hs, ht, hle, hok₁, hr⟩
    cases hs
    cases ht
    rw [RunValue.Rel.isFalse_eq hr]
    cases v'.isFalse with
    | true => exact .done ⟨P₁, rfl, rfl, hle, hok₁, .atom _⟩
    | false => exact (hc hct hok₁ (henv.mono hle.places)).imp fun _ _ h => h.later hle
  | branchSome htt hct hat =>
    rw [run_branch, run_branch]
    refine (ht htt hok henv).bind ?_
    rintro ⟨v, m⟩ ⟨v', m'⟩ ⟨P₁, hs, ht, hle, hok₁, hr⟩
    cases hs
    cases ht
    rw [RunValue.Rel.isFalse_eq hr]
    cases v'.isFalse with
    | true => exact (ha _ rfl hat hok₁ (henv.mono hle.places)).imp fun _ _ h => h.later hle
    | false => exact (hc hct hok₁ (henv.mono hle.places)).imp fun _ _ h => h.later hle

/-- **What an expression evaluates to, it does without some bindings,** if the same is true of calls -/
theorem run_drops (hcall : DropsCall call call') (e : Core) : DropsRun call call' e := by
  induction e with
  | var name =>
    intro R t h P ρ ρ' hok henv
    cases h with
    | var h =>
      rw [run, run]
      refine (Outcome.Rel.ofOption ?_).sim
      obtain ⟨hv, hv'⟩ | ⟨v, v', hv, hv', hr⟩ := optionRel_iff.1 (hok.get henv h)
      · rw [hv, hv']
        exact .none
      · rw [hv, hv']
        exact .some ⟨P, rfl, rfl, .refl P, hok, hr⟩
  | val v =>
    intro R t h P ρ ρ' hok henv
    cases h
    exact .done ⟨P, rfl, rfl, .refl P, hok, .atom v⟩
  | quote v =>
    intro R t h P ρ ρ' hok henv
    cases h
    exact .done ⟨P, rfl, rfl, .refl P, hok, .atom v⟩
  | letIn name value body ihv ihb => exact letIn_drops ihv ihb
  | lambda params rest body _ =>
    intro R t h P ρ ρ' hok henv
    cases h with
    | lambda h => exact .done ⟨P, rfl, rfl, .refl P, hok, .closure ⟨rfl, rfl, R, h, henv⟩⟩
  | app operator operands ihf ihas => exact app_drops hcall ihf ihas
  | branch test consequent alternative iht ihc iha => exact branch_drops iht ihc iha
  | assign name value ih =>
    intro R t h P ρ ρ' hok henv
    cases h with
    | assign hx h =>
      rw [run, run]
      refine (ih h hok henv).bind ?_
      rintro ⟨v, m⟩ ⟨v', m'⟩ ⟨P', hs, ht, hle, hok', hr⟩
      cases hs
      cases ht
      refine (Outcome.Rel.ofOption ?_).sim
      obtain ⟨hm, hm'⟩ | ⟨m, m', hm, hm', hle', hok''⟩ := optionRel_iff.1 (hok'.put (henv.mono hle.places) hx hr)
      · rw [hm, hm']
        exact .none
      · rw [hm, hm']
        exact .some ⟨_, rfl, rfl, hle.trans hle', hok'', hr⟩

theorem callAt_drops (builtins : Builtins α) (depth : Nat) :
    DropsCall (callAt builtins .operandsFirst depth) (callAt builtins .operandsFirst depth) := by
  induction depth with
  | zero =>
    intro P f f' args args' hok hf hargs
    have hrel := hf
    cases hf with
    | closure _ => exact Outcome.Rel.exhausted.sim
    | _ => exact (callAt_builtin_sim (by simp) (by simp) 0 hok hrel hargs).sim
  | succ depth ih =>
    intro P f f' args args' hok hf hargs
    have hrel := hf
    cases hf with
    | closure hc =>
      refine (Outcome.Rel.ofOption (hok.enter hc hargs)).sim.bind ?_
      rintro vs vs' ⟨P', R, hs, ht, hle, hok', hbody, henv⟩
      have hsim := run_drops ih _ hbody hok' henv
      rw [hs, ht] at hsim
      exact hsim.imp fun _ _ h => h.later hle
    | _ => exact (callAt_builtin_sim (by simp) (by simp) (depth + 1) hok hrel hargs).sim

/-- two results, the second without some bindings: values, variables, and what later calls yield -/
structure ResultsFollow (builtins : Builtins α) (ρ : Env) (W : PlaceRel) (r r' : CoreValue α × CoreMemory α) :
    Prop where
  value : ValueSim Drops W r.1 r'.1
  plainValue : ∀ d : Plain α, r.1 = .embed d ↔ r'.1 = .embed d
  contents : ∀ x, Option.Rel (ValueSim Drops W) (r.2.get ρ x) (r'.2.get ρ x)
  plainContents : ∀ x (d : Plain α), r.2.get ρ x = some (.embed d) ↔ r'.2.get ρ x = some (.embed d)
  calls : ∀ depth args args', List.Forall₂ (ValueSim Drops W) args args' →
    Outcome.Sim (ResultSim Drops ⟨W, r.2, r'.2⟩) (callAt builtins .operandsFirst depth r.1 args r.2)
      (callAt builtins .operandsFirst depth r'.1 args' r'.2)

theorem ResultsFollow.of_pair {r r' : CoreValue α × CoreMemory α} (builtins : Builtins α) (hok : P.Ok Drops)
    (henv : EnvSim P.places (· = ·) ρ ρ) (hs : P.source = r.2) (ht : P.target = r'.2)
    (hv : ValueSim Drops P.places r.1 r'.1) : ResultsFollow builtins ρ P.places r r' := by
  obtain ⟨v, m⟩ := r
  obtain ⟨v', m'⟩ := r'
  cases hs
  cases ht
  have hcontents := fun x => hok.get henv (rfl : x = x)
  refine ⟨hv, fun d => ⟨?_, ?_⟩, hcontents, fun x d => RunValue.Rel.some_embed_iff (hcontents x) d, ?_⟩
  · rintro rfl
    exact hv.embed_left
  · rintro rfl
    exact hv.embed_right
  · intro depth args args' hargs
    exact callAt_drops builtins depth hok hv hargs

theorem Core.diagonal_drops {m : CoreMemory α} (h : WellPlaced ρ m) : (MemoryPair.diagonal m).Ok Drops := by
  refine MemoryPair.diagonal_ok (h.closures.imp fun c hc => ⟨hc, .self fun x _ => ?_⟩)
  exact NameRel.bindSame_self fun _ => rfl

/-- **Removing dead bindings keeps the meaning.** What an expression evaluates to, it also does without its dead
bindings; and an expression that has no effect, calls counted, makes no call, always ends and assigns no variable -/
theorem Core.dropDead_evaluates (builtins : Builtins α) (e : Core) (ρ : Env) (m : CoreMemory α) (h : WellPlaced ρ m) :
    (∀ v m₁, Evaluates builtins .operandsFirst e ρ m v m₁ →
      ∃ v' m₂ W, Evaluates builtins .operandsFirst e.dropDead ρ m v' m₂ ∧ ResultsFollow builtins ρ W (v, m₁) (v', m₂)) ∧
    ∀ d : Core, d.hasEffect true = false → Effectless α d := by
  refine ⟨?_, fun d hd => effectless hd⟩
  rintro v m₁ ⟨depth, he⟩
  have henv := MemoryPair.diagonal_env h.env
  have hdrops : Drops (· = ·) e e.dropDead := dropDead_drops fun _ _ => rfl
  obtain ⟨⟨v', m₂⟩, he', P, hs, ht, hle, hok, hv⟩ :=
    run_drops (callAt_drops builtins depth) e hdrops (diagonal_drops h) henv (v, m₁) he
  exact ⟨v', m₂, P.places, ⟨depth, he'⟩, .of_pair builtins hok (henv.mono hle.places) hs ht hv⟩

/-- a binding in a procedure that hides a variable assigned around it; a call stands in the value, but is not made -/
theorem Core.hiding_binding_evaluates :
    let d := Core.letIn "u" (.var "x") (.lambda [] none (.app (.var "u") []))
    let e := Core.assign "x" (.app (.lambda ["z"] none (.letIn "x" d (.var "z"))) [.val (.integer 2)])
    let m : CoreMemory Unit := ⟨[.atom (.integer 1)], fun _ => none⟩
    WellPlaced [("x", 0)] m ∧ d.hasEffect true = false ∧
      e.dropDead = .assign "x" (.app (.lambda ["z"] none (.var "z")) [.val (.integer 2)]) ∧
      (∃ m', Evaluates (fun _ _ => none) .operandsFirst e.dropDead [("x", 0)] m (.atom (.integer 2)) m' ∧
        m'.get [("x", 0)] "x" = some (.atom (.integer 2))) ∧ Effectless Unit d := by
  intro d e m
  have hm : WellPlaced [("x", 0)] m := by
    refine ⟨fun y p h => ?_, ⟨by simp [m, RunValue.Forall], nofun⟩⟩
    rw [List.lookup_cons] at h
    split at h <;> cases h
    exact Nat.one_pos
  have hd : d.hasEffect true = false := by simp [d, hasEffect_eq_actsIn]
  have he : e.dropDead = .assign "x" (.app (.lambda ["z"] none (.var "z")) [.val (.integer 2)]) := by
    simp [e, d, dropDead, dropDeadAll, isDead, hasEffect_eq_actsIn, freeNames, freeNamesAll, binders]
  obtain ⟨hevaluates, heffectless⟩ := dropDead_evaluates (fun _ _ => none) e [("x", 0)] m hm
  obtain ⟨v', m', W, heval, hr⟩ := hevaluates _ _ ⟨1, rfl⟩
  cases (hr.plainValue (.atom (.integer 2))).1 rfl
  exact ⟨hm, hd, he, ⟨m', heval, (hr.plainContents "x" (.atom (.integer 2))).1 rfl⟩, heffectless d hd⟩

end Simulation

end SchemeStack
