/-
Lowering means the same.

`Expr.lower_evaluates`: a well-formed expression has a core form, and with operands evaluated from left to right and
then the operator, the two evaluate alike from any environment and memory. One has a result if the other has, and the
results agree (`Expr.ResultsAgree`); one ends in a fault if the other does. The core form starts from the memory whose
closures have the core forms of their bodies (`Expr.lowerMemory`).

The rules of `Expr.LowersTo` are proved for `Follows`, one kind of expression after the other (`follows_lowersTo`):
- a body of several expressions lowers to the application of a procedure to all of them. They are evaluated outside that
  procedure, so its parameters capture nothing. Its own body is its last parameter (`Core.evalAt_lastStep`);
- names that are bound to false one after the other have the places that they would have been given at once
  (`Core.evalAt_bindFalse`);
- everything with a test goes by one lemma (`test_tracks`).
Calls are tracked to any depth by induction on it (`callAt_tracked`).

A memory is sound if no environment in it has a place that is missing and no closure in it has an empty body.
-/
import SchemeStack.Proofs.LoweringSimulation

namespace SchemeStack

theorem forall₂_getLast? {β γ : Type} {R : β → γ → Prop} {bs : List β} {cs : List γ} (h : List.Forall₂ R bs cs) :
    Option.Rel R bs.getLast? cs.getLast? := by
  induction h with
  | nil => exact .none
  | cons hr htail ih =>
    cases htail with
    | nil => exact .some hr
    | cons _ _ =>
      rw [List.getLast?_cons_cons, List.getLast?_cons_cons]
      exact ih

namespace Core

variable {α : Type} {builtins : Builtins α} {order : CallOrder}

theorem bindPlaces_cons (name : String) (names : List String) (first : Nat) (ρ : Env) :
    bindPlaces (name :: names) first ρ = bindPlaces names (first + 1) ((name, first) :: ρ) := by
  simp [bindPlaces, List.zipIdx_cons]

/-- names bound to false have new places, with false in them -/
theorem evalAt_bindFalse (names : List String) (e : Core) (d : Nat) (ρ : Env) (m : CoreMemory α) :
    evalAt builtins order d (bindFalse names e) ρ m =
      evalAt builtins order d e (bindPlaces names m.heap.length ρ)
        (m.allocAll (names.map fun _ => .atom (.boolean false))) := by
  induction names generalizing ρ m with
  | nil => simp [bindFalse, bindPlaces, Memory.allocAll]
  | cons name names ih =>
    have hcons : bindFalse (name :: names) e = letIn name falsity (bindFalse names e) := rfl
    rw [hcons, evalAt, run]
    change evalAt builtins order d (bindFalse names e) ((name, m.heap.length) :: ρ)
      (m.alloc (.atom (.boolean false))) = _
    rw [ih, bindPlaces_cons]
    simp [Memory.alloc, Memory.allocAll]

/-- the call of a procedure that is applied where it is written -/
theorem callAt_succ_lambda {names : List String} {vs : List (CoreValue α)} (hlen : vs.length = names.length)
    (b : Core) (d : Nat) (ρ : Env) (m : CoreMemory α) :
    callAt builtins order (d + 1) (.closure ⟨names, none, b, ρ⟩) vs m =
      evalAt builtins order d b (bindPlaces names m.heap.length ρ) (m.allocAll vs) := by
  have hvs : RunValue.arguments? names.length false vs = some vs := by simp [RunValue.arguments?, hlen]
  have hnames : binders names none = names := by simp [binders]
  rw [callAt]
  change (Outcome.ofOption (RunValue.arguments? names.length false vs)).bind _ = _
  rw [hvs, hnames]
  rfl

/-- the procedure that runs a sequence yields its last argument -/
theorem evalAt_lastStep {vs : List (CoreValue α)} (hne : vs ≠ []) (d : Nat) (ρ : Env) (m : CoreMemory α) :
    evalAt builtins order d (var ("$s" ++ toString (vs.length - 1))) (bindPlaces (stepNames vs.length) m.heap.length ρ)
      (m.allocAll vs) = .ofOption (vs.getLast?.map fun v => (v, m.allocAll vs)) := by
  obtain ⟨k, hk⟩ : ∃ k, vs.length = k + 1 := Nat.exists_eq_succ_of_ne_zero (by simpa using hne)
  have hlookup : (bindPlaces (stepNames (k + 1)) m.heap.length ρ).lookup ("$s" ++ toString k) =
      some (m.heap.length + k) := by
    have hnames : stepNames (k + 1) = stepNames k ++ ["$s" ++ toString k] := by simp [stepNames, List.range_succ]
    have hcount : (stepNames k).length = k := by simp [stepNames]
    rw [bindPlaces, hnames, List.zipIdx_append, hcount, List.reverse_append]
    exact List.lookup_cons_self
  have hget : (m.allocAll vs).heap[m.heap.length + k]? = vs.getLast? := by
    rw [List.getLast?_eq_getElem?, hk]
    simp [Memory.allocAll, List.getElem?_append_right]
  rw [evalAt, run, hk, Nat.add_sub_cancel]
  unfold Memory.get
  rw [hlookup]
  exact congrArg (fun o => Outcome.ofOption (Option.map _ o)) hget

end Core

section Rules

variable {α : Type} {builtins : Builtins α} {limit : Nat} {places : List Nat} {ρ ρ' : Env} {m : ExprMemory α}
  {m' : CoreMemory α} {call : ExprValue α → List (ExprValue α) → ExprMemory α → ExprOutcome α}

theorem tracks_done {v : ExprValue α} {v' : CoreValue α} (hm : MemoryAgree places m m') (hv : ValueAgree places v v') :
    Outcome.Tracks limit (ResultAgree ValueAgree places) (.done (v, m)) fun _ => .done (v', m') :=
  .of_rel (.done ⟨places, List.prefix_rfl, hm, hv⟩)

/-- a procedure applied where it is written: the core makes a call, and the surface language runs what belongs to its
body -/
theorem tracks_lambda {β : Type} {P : β → CoreValue α × CoreMemory α → Prop} {o : Outcome β} {names : List String}
    {vs' : List (CoreValue α)} {b : Core} (hlen : vs'.length = names.length)
    (h : Outcome.Tracks limit P o fun d =>
      b.evalAt builtins .operandsFirst d (Core.bindPlaces names m'.heap.length ρ') (m'.allocAll vs')) :
    Outcome.Tracks limit P o fun d => Core.callAt builtins .operandsFirst d (.closure ⟨names, none, b, ρ'⟩) vs' m' :=
  (h.later rfl fun d => Core.callAt_succ_lambda hlen b d ρ' m').lower_limit (Nat.le_succ limit)

/-- values that agree one by one, as many as were asked for -/
def ValuesAgree (count : Nat) (places : List Nat) (vs : List (ExprValue α)) (vs' : List (CoreValue α)) : Prop :=
  List.Forall₂ (ValueAgree places) vs vs' ∧ vs'.length = count

theorem runAll_tracks {es : List Expr} {es' : List Core} (h : List.Forall₂ (Follows builtins limit call) es es')
    (hm : MemoryAgree places m m') (henv : EnvAgree places ρ ρ') :
    Outcome.Tracks limit (ResultAgree (ValuesAgree es'.length) places) (Expr.runAll call es ρ m) fun d =>
      Core.runAll .operandsFirst (Core.callAt builtins .operandsFirst d) es' ρ' m' := by
  induction h generalizing places m m' with
  | nil => exact .of_rel (.done ⟨places, List.prefix_rfl, hm, .nil, rfl⟩)
  | @cons e e' es es' he _ ih =>
    refine (he hm henv).bind ?_
    rintro r r' ⟨places₁, hle₁, hm₁, hv⟩
    refine (ih hm₁ (henv.mono hle₁)).bind ?_
    rintro rs rs' ⟨places₂, hle₂, hm₂, hvs, hlen⟩
    exact .of_rel (.done ⟨places₂, hle₁.trans hle₂, hm₂, .cons (ValueAgree.mono hv hle₂) hvs, by simp [hlen]⟩)

/-- a test decides between continuations that are tracked -/
theorem test_tracks {t : Expr} {t' : Core} {onFalse onTrue : ExprMemory α → ExprOutcome α}
    {onFalse' onTrue' : Nat → CoreMemory α → CoreOutcome α} (ht : Follows builtins limit call t t')
    (hm : MemoryAgree places m m') (henv : EnvAgree places ρ ρ')
    (hfalse : ∀ places₁ m₁ m₁', places <+: places₁ → MemoryAgree places₁ m₁ m₁' →
      Outcome.Tracks limit (ResultAgree ValueAgree places₁) (onFalse m₁) fun d => onFalse' d m₁')
    (htrue : ∀ places₁ m₁ m₁', places <+: places₁ → MemoryAgree places₁ m₁ m₁' →
      Outcome.Tracks limit (ResultAgree ValueAgree places₁) (onTrue m₁) fun d => onTrue' d m₁') :
    Outcome.Tracks limit (ResultAgree ValueAgree places)
      ((t.run call ρ m).bind fun r => if r.1.isFalse then onFalse r.2 else onTrue r.2) fun d =>
        (t'.evalAt builtins .operandsFirst d ρ' m').bind fun r =>
          if r.1.isFalse then onFalse' d r.2 else onTrue' d r.2 := by
  refine (ht hm henv).bind ?_
  rintro ⟨v, m₁⟩ ⟨v', m₁'⟩ ⟨places₁, hle, hm₁, hv⟩
  simp only [hv.isFalse_eq]
  split
  · exact (hfalse places₁ m₁ m₁' hle hm₁).imp fun _ _ h => h.later hle
  · exact (htrue places₁ m₁ m₁' hle hm₁).imp fun _ _ h => h.later hle

theorem boolean_tracks (b : Bool) (hm : MemoryAgree places m m') :
    Outcome.Tracks limit (ResultAgree ValueAgree places) (Expr.runBoolean b m) fun _ =>
      .done (.atom (.boolean b), m') :=
  tracks_done hm (.atom _)

/-- a sequence: the core applies a procedure to the values of its expressions, and has new places for them -/
theorem follows_sequence {body : List Expr} {es : List Core} {b : Core}
    (h : List.Forall₂ (Follows builtins limit call) body es)
    (hb : Core.inSequence es = .ok b) : Follows builtins limit call (.sequence body) b := by
  intro places ρ ρ' m m' hm henv
  match es, h, hb with
  | [e], .cons he .nil, hb =>
    cases hb
    exact he hm henv
  | e₁ :: e₂ :: es, h, hb =>
    cases hb
    have hne : body ≠ [] := by
      rintro rfl
      cases h
    rw [Expr.run, Expr.runBody_eq hne]
    refine (runAll_tracks h hm henv).bind ?_
    rintro ⟨vs, m₁⟩ ⟨vs', m₁'⟩ ⟨places₁, hle, hm₁, hvs, hlen⟩
    refine tracks_lambda (by simpa [Core.stepNames] using hlen) ?_
    have hne' : vs' ≠ [] := by
      rintro rfl
      simp at hlen
    simp only [← hlen, Core.evalAt_lastStep hne']
    refine .of_rel (.ofOption ?_)
    rcases optionRel_iff.1 (forall₂_getLast? hvs) with ⟨hlast, hlast'⟩ | ⟨v, v', hlast, hlast', hv⟩
    · rw [hlast, hlast']
      exact .none
    · rw [hlast, hlast']
      exact .some ⟨places₁, hle, hm₁.allocTarget vs', hv⟩

theorem follows_call {f : Expr} {f' : Core} {es : List Expr} {es' : List Core}
    (hcall : CallsTracked builtins limit call)
    (hf : Follows builtins limit call f f') (hes : List.Forall₂ (Follows builtins limit call) es es') :
    Follows builtins limit call (.call f es) (.app f' es') := by
  intro places ρ ρ' m m' hm henv
  refine (runAll_tracks hes hm henv).bind ?_
  rintro ⟨vs, m₁⟩ ⟨vs', m₁'⟩ ⟨places₁, hle₁, hm₁, hvs, -⟩
  refine (hf hm₁ (henv.mono hle₁)).bind ?_
  rintro ⟨g, m₂⟩ ⟨g', m₂'⟩ ⟨places₂, hle₂, hm₂, hg⟩
  exact (hcall hm₂ hg (ValueAgree.mono_all hvs hle₂)).imp fun _ _ h => h.later (hle₁.trans hle₂)

/-- a binding form: the core applies the procedure of the body to the values -/
theorem follows_letIn {bindings : List (Binding Expr)} {vs : List Core} {body : List Expr} {b : Core}
    (hvs : List.Forall₂ (Follows builtins limit call) (bindings.map (·.value)) vs)
    (hb : Follows builtins limit call (.sequence body) b) :
    Follows builtins limit call (.letIn bindings body) (.app (.lambda (bindings.map (·.name)) none b) vs) := by
  intro places ρ ρ' m m' hm henv
  rw [Expr.run, Expr.runValues_eq]
  refine (runAll_tracks hvs hm henv).bind ?_
  rintro ⟨ws, m₁⟩ ⟨ws', m₁'⟩ ⟨places₁, hle₁, hm₁, hws, hlen⟩
  have hcount : ws'.length = (bindings.map (·.name)).length := by
    rw [hlen, ← hvs.length_eq, List.length_map, List.length_map]
  refine tracks_lambda hcount ?_
  obtain ⟨places₂, hle₂, hm₂, hnew⟩ := hm₁.allocAll hws
  rw [hws.length_eq, hcount] at hnew
  have henv₂ := ((henv.mono hle₁).mono hle₂).bindPlaces (bindings.map (·.name)) hnew
  exact (hb hm₂ henv₂).imp fun _ _ h => h.later (hle₁.trans hle₂)

/-- an expression in a scope where names have places with false in them -/
theorem tracks_bindFalse (names : List String) {e : Expr} {c : Core} (he : Follows builtins limit call e c)
    (hm : MemoryAgree places m m') (henv : EnvAgree places ρ ρ') :
    Outcome.Tracks limit (ResultAgree ValueAgree places)
      (e.run call (Core.bindPlaces names m.heap.length ρ) (m.allocAll (names.map fun _ => .atom (.boolean false))))
        fun d =>
        (Core.bindFalse names c).evalAt builtins .operandsFirst d ρ' m' := by
  simp only [Core.evalAt_bindFalse]
  have hfalse : List.Forall₂ (ValueAgree places) (names.map fun _ => (.atom (.boolean false) : ExprValue α))
      (names.map fun _ => (.atom (.boolean false) : CoreValue α)) := by
    simp only [List.forall₂_map_left_iff, List.forall₂_map_right_iff]
    exact List.forall₂_same.2 fun _ _ => .atom _
  obtain ⟨places₁, hle, hm₁, hnew⟩ := hm.allocAll hfalse
  rw [List.length_map] at hnew
  exact (he hm₁ ((henv.mono hle).bindPlaces names hnew)).imp fun _ _ h => h.later hle

theorem follows_assign {name : String} {e : Expr} {e' : Core} (he : Follows builtins limit call e e') :
    Follows builtins limit call (.assign name e) (.assign name e') := by
  intro places ρ ρ' m m' hm henv
  refine (he hm henv).bind ?_
  rintro ⟨v, m₁⟩ ⟨v', m₁'⟩ ⟨places₁, hle, hm₁, hv⟩
  refine .of_rel (.ofOption ?_)
  rcases optionRel_iff.1 (hm₁.put (henv.mono hle) name hv) with ⟨hput, hput'⟩ | ⟨m₂, m₂', hput, hput', hm₂⟩
  · rw [hput, hput']
    exact .none
  · rw [hput, hput']
    exact .some ⟨places₁, hle, hm₂, hv⟩

/-- **An expression is followed by its core form,** if calls are tracked -/
theorem follows_lowersTo (hcall : CallsTracked builtins limit call) : Expr.LowersTo (Follows builtins limit call) where
  literal d v hv := by
    intro places ρ ρ' m m' hm henv
    rw [Expr.run, Expr.runConstant, hv]
    exact tracks_done hm (.atom v)
  var name := by
    intro places ρ ρ' m m' hm henv
    refine .of_rel (.ofOption ?_)
    rcases optionRel_iff.1 (hm.get henv name) with ⟨hget, hget'⟩ | ⟨v, v', hget, hget', hv⟩
    · rw [hget, hget']
      exact .none
    · rw [hget, hget']
      exact .some ⟨places, List.prefix_rfl, hm, hv⟩
  quotation d v hv := by
    intro places ρ ρ' m m' hm henv
    rw [Expr.run, Expr.runConstant, hv]
    exact tracks_done hm (.atom v)
  call f f' es es' hf hes := follows_call hcall hf hes
  lambda params rest body b hformed hb := by
    intro places ρ ρ' m m' hm henv
    exact tracks_done hm (.closure ⟨rfl, rfl, hformed, hb, henv⟩)
  branchNone t t' c c' ht hc := by
    intro places ρ ρ' m m' hm henv
    exact test_tracks ht hm henv (fun _ _ _ _ hm₁ => boolean_tracks false hm₁) fun _ _ _ hle hm₁ =>
      hc hm₁ (henv.mono hle)
  branchSome t t' c c' a a' ht hc ha := by
    intro places ρ ρ' m m' hm henv
    exact test_tracks ht hm henv (fun _ _ _ hle hm₁ => ha hm₁ (henv.mono hle)) fun _ _ _ hle hm₁ =>
      hc hm₁ (henv.mono hle)
  assign name e e' he := follows_assign he
  letIn bindings vs body b hvs hb := follows_letIn hvs hb
  letRec bindings body e hne he := by
    intro places ρ ρ' m m' hm henv
    rw [Expr.run_letRec hne]
    simpa only [List.map_map, Function.comp_def] using tracks_bindFalse (bindings.map (·.name)) he hm henv
  namedLet name bindings body e he := by
    intro places ρ ρ' m m' hm henv
    rw [Expr.run_namedLet]
    exact tracks_bindFalse [name] he hm henv
  sequence body es b hes hb := follows_sequence hes hb
  condNone := fun _ _ _ _ _ hm _ => boolean_tracks false hm
  condEmpty := fun _ _ _ _ _ hm _ => boolean_tracks false hm
  condElse body b hne hb := by
    intro places ρ ρ' m m' hm henv
    have hbody : body.isEmpty = false := by simpa using hne
    have hrun : Expr.run call (.cond [] (some body)) ρ m = Expr.run call (.sequence body) ρ m := by
      simp only [Expr.run, Expr.runClauses, hbody, Bool.false_eq_true, if_false]
    rw [hrun]
    exact hb hm henv
  condClause t t' body b clauses otherwise r ht hb hr := by
    intro places ρ ρ' m m' hm henv
    rw [Expr.run_cond_cons]
    exact test_tracks ht hm henv (fun _ _ _ hle hm₁ => hr hm₁ (henv.mono hle)) fun _ _ _ hle hm₁ =>
      hb hm₁ (henv.mono hle)
  conjNil := fun _ _ _ _ _ hm _ => boolean_tracks false hm
  conjLast e e' he := by
    intro places ρ ρ' m m' hm henv
    exact test_tracks he hm henv (fun _ _ _ _ hm₁ => boolean_tracks false hm₁) fun _ _ _ _ hm₁ =>
      boolean_tracks true hm₁
  conjCons e e' es r hne he hr := by
    intro places ρ ρ' m m' hm henv
    rw [Expr.run_conj_cons e hne]
    exact test_tracks he hm henv (fun _ _ _ _ hm₁ => boolean_tracks false hm₁) fun _ _ _ hle hm₁ =>
      hr hm₁ (henv.mono hle)
  disjNil := fun _ _ _ _ _ hm _ => boolean_tracks false hm
  disjCons e e' es r he hr := by
    intro places ρ ρ' m m' hm henv
    exact test_tracks he hm henv (fun _ _ _ hle hm₁ => hr hm₁ (henv.mono hle)) fun _ _ _ _ hm₁ =>
      boolean_tracks true hm₁
  template depth e e' he := he

/-! ## Calls -/

/-- a closure that takes the arguments runs its body, with new places for its parameters -/
theorem enter_tracks {c : Expr.Closure} {c' : Core.Closure} {args : List (ExprValue α)} {args' : List (CoreValue α)}
    (hcall : CallsTracked builtins limit call) (hm : MemoryAgree places m m') (hc : ClosureAgree places c c')
    (hargs : List.Forall₂ (ValueAgree places) args args') :
    Outcome.Tracks limit (ResultAgree ValueAgree places)
      ((Outcome.ofOption (RunValue.arguments? c.params.length c.rest.isSome args)).bind fun vs =>
        Expr.runBody call c.body (Core.bindPlaces (Core.binders c.params c.rest) m.heap.length c.env) (m.allocAll vs))
      fun d => (Outcome.ofOption (RunValue.arguments? c'.params.length c'.rest.isSome args')).bind fun vs' =>
        c'.body.evalAt builtins .operandsFirst d
          (Core.bindPlaces (Core.binders c'.params c'.rest) m'.heap.length c'.env) (m'.allocAll vs') := by
  rw [hc.params, hc.rest]
  have hvalues := RunValue.arguments?_rel c.params.length c.rest.isSome hargs
  rcases optionRel_iff.1 hvalues with ⟨hnone, hnone'⟩ | ⟨vs, vs', hvs, hvs', hrel⟩
  · rw [hnone, hnone']
    exact .of_rel .stuck
  · rw [hvs, hvs']
    obtain ⟨b, hb, hfollows⟩ := Expr.exists_lower (follows_lowersTo hcall) hc.formed
    cases hb.symm.trans hc.body
    obtain ⟨places₁, hle, hm₁, hnew⟩ := hm.allocAll hrel
    have hlen : (Core.binders c.params c.rest).length = vs.length := by
      rw [RunValue.length_arguments? hvs]
      cases c.rest <;> simp [Core.binders]
    rw [← hlen] at hnew
    exact (hfollows hm₁ ((hc.env.mono hle).bindPlaces _ hnew)).imp fun _ _ h => h.later hle

theorem builtin_tracks {f : ExprValue α} {f' : CoreValue α} {args : List (ExprValue α)} {args' : List (CoreValue α)}
    (hf : ∀ c, f' ≠ .closure c) (hm : MemoryAgree places m m') (hrel : ValueAgree places f f')
    (hargs : List.Forall₂ (ValueAgree places) args args') :
    Outcome.Tracks limit (ResultAgree ValueAgree places)
      (.ofOption ((RunValue.answer builtins f args).map fun d => (RunValue.embed d, m))) fun d =>
        Core.callAt builtins .operandsFirst d f' args' m' := by
  simp only [Core.callAt_builtin hf, RunValue.answer_rel builtins hrel hargs]
  refine .of_rel (.ofOption ?_)
  cases RunValue.answer builtins f' args' with
  | none => exact .none
  | some d => exact .some ⟨places, List.prefix_rfl, hm, .embed d⟩

/-- **Calls are tracked,** up to the depth that the surface language is allowed -/
theorem callAt_tracked (builtins : Builtins α) (limit : Nat) :
    CallsTracked builtins limit (Expr.callAt builtins limit) := by
  induction limit with
  | zero =>
    intro places m m' f f' args args' hm hf hargs
    have hrel := hf
    cases hf with
    | closure _ =>
      refine ⟨Or.inl rfl, fun d hd => ?_⟩
      obtain rfl := Nat.le_zero.1 hd
      exact Or.inl rfl
    | _ => exact builtin_tracks (by simp) hm hrel hargs
  | succ limit ih =>
    intro places m m' f f' args args' hm hf hargs
    have hrel := hf
    cases hf with
    | closure hc => exact (enter_tracks ih hm hc hargs).later rfl fun d => rfl
    | _ => exact builtin_tracks (by simp) hm hrel hargs

end Rules

/-! ## Results -/

namespace RunValue

def map {α κ κ' : Type} (f : κ → κ') : RunValue α κ → RunValue α κ'
  | atom v => atom v
  | foreign a => foreign a
  | pair a b => pair (a.map f) (b.map f)
  | closure c => closure (f c)

theorem Forall.rel_map {α κ κ' : Type} {K : κ → Prop} {L : κ → κ' → Prop} {f : κ → κ'} (hKL : ∀ c, K c → L c (f c))
    {v : RunValue α κ} (h : v.Forall K) : Rel L v (v.map f) := by
  induction v with
  | atom v => exact .atom v
  | foreign a => exact .foreign a
  | pair a b iha ihb => exact .pair (iha h.1) (ihb h.2)
  | closure c => exact .closure (hKL c h)

end RunValue

namespace Expr

variable {α : Type}

def Closure.lowered (c : Closure) : Core.Closure where
  params := c.params
  rest := c.rest
  body :=
    match (sequence c.body).lower with
    | .ok b => b
    | .error _ => Core.falsity
  env := c.env

def lowerMemory (m : ExprMemory α) : CoreMemory α where
  heap := m.heap.map (RunValue.map Closure.lowered)
  globals := fun x => (m.globals x).map (RunValue.map Closure.lowered)

/-- the variables have places that exist, and closures have bodies that are well-formed -/
structure Sound (ρ : Env) (m : ExprMemory α) : Prop where
  env : PlacesBelow m.heap.length ρ
  closures : m.Forall fun c => PlacesBelow m.heap.length c.env ∧ (sequence c.body).WellFormed

/-- the results of an expression and its core form, from memories with `size` places: the values and the memories
agree, so do the variables of the environment, and calls of the values end alike -/
structure ResultsAgree (builtins : Builtins α) (size : Nat) (ρ : Env) (places : List Nat)
    (r : ExprValue α × ExprMemory α) (r' : CoreValue α × CoreMemory α) : Prop where
  placesKept : List.range size <+: places
  value : ValueAgree places r.1 r'.1
  plainValue : ∀ d : Plain α, r.1 = .embed d ↔ r'.1 = .embed d
  memory : MemoryAgree places r.2 r'.2
  contents : ∀ x, Option.Rel (ValueAgree places) (r.2.get ρ x) (r'.2.get ρ x)
  plainContents : ∀ x (d : Plain α), r.2.get ρ x = some (.embed d) ↔ r'.2.get ρ x = some (.embed d)
  calls : ∀ limit args args', List.Forall₂ (ValueAgree places) args args' →
    Outcome.Tracks limit (ResultAgree ValueAgree places) (callAt builtins limit r.1 args r.2) fun d =>
      Core.callAt builtins .operandsFirst d r'.1 args' r'.2

variable {ρ : Env} {m : ExprMemory α}

theorem Closure.agree_lowered {places : List Nat} {c : Closure} (hformed : (sequence c.body).WellFormed)
    (henv : EnvAgree places c.env c.env) : ClosureAgree places c c.lowered := by
  obtain ⟨b, hb⟩ := hformed.exists_lower
  refine ⟨rfl, rfl, hformed, ?_, henv⟩
  rw [Closure.lowered, hb]

/-- places are their own partners to begin with -/
theorem envAgree_range {n : Nat} {ρ : Env} (h : PlacesBelow n ρ) : EnvAgree (List.range n) ρ ρ := by
  intro x
  cases hx : ρ.lookup x with
  | none => exact .none
  | some p => exact .some (by simp [h x p hx])

theorem Sound.memoryAgree (h : Sound ρ m) : MemoryAgree (List.range m.heap.length) m (lowerMemory m) := by
  have hclosure : ∀ c : Closure, PlacesBelow m.heap.length c.env ∧ (sequence c.body).WellFormed →
      ClosureAgree (List.range m.heap.length) c c.lowered := fun c hc =>
        Closure.agree_lowered hc.2 (envAgree_range hc.1)
  refine ⟨List.length_range, List.nodup_range, fun p q hpq => ?_, fun x => ?_⟩
  · obtain ⟨hp, hq⟩ := List.getElem?_eq_some_iff.1 hpq
    rw [List.getElem_range] at hq
    subst hq
    rw [List.length_range] at hp
    have hget := List.getElem?_eq_getElem hp
    have hget' : (lowerMemory m).heap[p]? = some (m.heap[p].map Closure.lowered) := by simp [lowerMemory, hp]
    exact ⟨_, _, hget, hget', (h.closures.heap _ (List.getElem_mem hp)).rel_map hclosure⟩
  · change Option.Rel _ (m.globals x) ((m.globals x).map (RunValue.map Closure.lowered))
    cases hx : m.globals x with
    | none => exact .none
    | some v => exact .some ((h.closures.globals x v hx).rel_map hclosure)

theorem ResultAgree.results (builtins : Builtins α) {size : Nat} {r : ExprValue α × ExprMemory α}
    {r' : CoreValue α × CoreMemory α} (henv : EnvAgree (List.range size) ρ ρ)
    (h : ResultAgree ValueAgree (List.range size) r r') : ∃ places, ResultsAgree builtins size ρ places r r' := by
  obtain ⟨places, hle, hm, hv⟩ := h
  have hcontents := fun x => hm.get (henv.mono hle) x
  refine ⟨places, hle, hv, fun d => ⟨?_, ?_⟩, hm, hcontents, fun x d => RunValue.Rel.some_embed_iff (hcontents x) d, ?_⟩
  · intro hd
    rw [hd] at hv
    exact hv.embed_left
  · intro hd
    rw [hd] at hv
    exact hv.embed_right
  · intro limit args args' hargs
    exact callAt_tracked builtins limit hm hv hargs

/-- **Lowering means the same:** a well-formed expression has a core form, each of the two evaluates if the other
does, to results that agree, and each ends in a fault if the other does -/
theorem lower_evaluates (builtins : Builtins α) (e : Expr) (he : e.WellFormed) (ρ : Env) (m : ExprMemory α)
    (hm : Sound ρ m) :
    ∃ c, e.lower = .ok c ∧
      (∀ v m₁, Evaluates builtins e ρ m v m₁ → ∃ v' m₂ places,
        c.Evaluates builtins .operandsFirst ρ (lowerMemory m) v' m₂ ∧
        ResultsAgree builtins m.heap.length ρ places (v, m₁) (v', m₂)) ∧
      (∀ v' m₂, c.Evaluates builtins .operandsFirst ρ (lowerMemory m) v' m₂ → ∃ v m₁ places,
        Evaluates builtins e ρ m v m₁ ∧ ResultsAgree builtins m.heap.length ρ places (v, m₁) (v', m₂)) ∧
      (Faults builtins e ρ m ↔ c.Faults builtins .operandsFirst ρ (lowerMemory m)) := by
  have henv := envAgree_range hm.env
  obtain ⟨c, hc⟩ := he.exists_lower
  have htracks : ∀ limit, Outcome.Tracks limit (ResultAgree ValueAgree (List.range m.heap.length))
      (evalAt builtins limit e ρ m) fun d => c.evalAt builtins .operandsFirst d ρ (lowerMemory m) := by
    intro limit
    obtain ⟨c', hc', hfollows⟩ := exists_lower (follows_lowersTo (callAt_tracked builtins limit)) he
    cases hc.symm.trans hc'
    exact hfollows hm.memoryAgree henv
  refine ⟨c, hc, ?_, ?_, ?_, ?_⟩
  · rintro v m₁ ⟨depth, h⟩
    obtain ⟨depth', ⟨v', m₂⟩, h', hr⟩ := (htracks depth).exists_done h
    obtain ⟨places, hr⟩ := ResultAgree.results builtins henv hr
    exact ⟨v', m₂, places, ⟨depth', h'⟩, hr⟩
  · rintro v' m₂ ⟨depth, h'⟩
    obtain ⟨⟨v, m₁⟩, h, hr⟩ := (htracks depth).exists_done_right (Nat.le_refl depth) h'
    obtain ⟨places, hr⟩ := ResultAgree.results builtins henv hr
    exact ⟨v, m₁, places, ⟨depth, h⟩, hr⟩
  · rintro ⟨depth, h⟩
    exact (htracks depth).exists_stuck h
  · rintro ⟨depth, h'⟩
    exact ⟨depth, (htracks depth).stuck_of_right (Nat.le_refl depth) h'⟩

/-- a recursive procedure and a closure of the memory run sequences that assign and read `$s0` and `$s1`, variables of
the environment with the names of parameters that lowering makes -/
theorem step_named_variables_evaluate :
    let e := letRec [⟨"f", lambda ["x"] none [.assign "$s1" (.call (.var "g") [.var "x"]), .var "$s0"]⟩]
      [.call (.var "f") [.literal (.int 7 .unknown)], .call (.var "list") [.var "$s0", .var "$s1"]]
    let g : Closure := ⟨["y"], none, [.assign "$s0" (.var "y"), .literal (.int 8 .unknown)], [("$s0", 0)]⟩
    let ρ : Env := [("$s0", 0), ("$s1", 1)]
    let m : ExprMemory Unit := ⟨[.atom (.integer 1), .atom (.integer 2)],
      fun x => if x = "list" then some (.foreign ()) else if x = "g" then some (.closure g) else none⟩
    let answer : Plain Unit := .ofList [.atom (.integer 7), .atom (.integer 8)]
    e.WellFormed ∧ Sound ρ m ∧ ∃ c, e.lower = .ok c ∧
      ∃ m', c.Evaluates (fun _ args => some (.ofList args)) .operandsFirst ρ (lowerMemory m) (.embed answer) m' ∧
        m'.get ρ "$s0" = some (.atom (.integer 7)) := by
  intro e g ρ m answer
  have he : e.WellFormed := wellFormed_of_checkFormed 5 rfl
  have hg : (sequence g.body).WellFormed := wellFormed_of_checkFormed 3 rfl
  have hm : Sound ρ m := by
    refine ⟨placesBelow_of_forall_mem (by decide), by simp [m, RunValue.Forall], fun x v hv => ?_⟩
    simp only [m] at hv
    split_ifs at hv <;> cases hv
    · exact trivial
    · exact ⟨placesBelow_of_forall_mem (by decide), hg⟩
  obtain ⟨c, hc, hforward, -⟩ := lower_evaluates (fun _ args => some (.ofList args)) e he ρ m hm
  obtain ⟨v', m', places, heval, hr⟩ := hforward _ _ ⟨2, rfl⟩
  cases (hr.plainValue answer).1 rfl
  exact ⟨he, hm, c, hc, m', heval, (hr.plainContents "$s0" (.atom (.integer 7))).1 rfl⟩

end Expr

end SchemeStack
