/-
What core expressions mean: an evaluator with places.

A variable stands for a place whose value can be assigned. A binding evaluates its value and then its body, with a new
place for its name. A closure keeps the environment it was made in, so it shares the places of its variables. An
assignment yields the assigned value; only the constant false is false; a conditional without alternative yields
false. A name that is not in the environment is a global variable, and reading one that has no value is a fault.

The order in which an application evaluates its parts is a parameter (`CallOrder`); the three orders differ in when the
operator is evaluated and in when atomic operands are read.

`run` is structurally recursive: it leaves calls to a parameter. `callAt` makes calls to a depth that is given, so
that `evalAt` is a total function; `Evaluates` is evaluation at some depth. Evaluation to a greater depth changes no
result (`evalAt_mono`), so an expression evaluates to one value only (`Evaluates.unique`). Two evaluations are
compared by how they end (`Outcome.Rel`).
-/
import SchemeStack.Proofs.CoreInduction
import SchemeStack.Proofs.RunValue

namespace SchemeStack

/-- how a computation ends: with a result, with a fault, or with more calls inside each other than were allowed -/
inductive Outcome (β : Type) where
  | done (result : β)
  | stuck
  | exhausted
  deriving DecidableEq

namespace Outcome

variable {β γ : Type}

def bind (o : Outcome β) (next : β → Outcome γ) : Outcome γ :=
  match o with
  | done b => next b
  | stuck => stuck
  | exhausted => exhausted

def ofOption : Option β → Outcome β
  | some b => done b
  | none => stuck

@[simp] theorem bind_done (b : β) (next : β → Outcome γ) : (done b).bind next = next b := rfl

@[simp] theorem bind_stuck (next : β → Outcome γ) : (stuck : Outcome β).bind next = stuck := rfl

@[simp] theorem bind_exhausted (next : β → Outcome γ) : (exhausted : Outcome β).bind next = exhausted := rfl

theorem bind_assoc {δ : Type} (o : Outcome β) (f : β → Outcome γ) (g : γ → Outcome δ) :
    (o.bind f).bind g = o.bind fun b => (f b).bind g := by
  cases o <;> rfl

theorem bind_eq_done {o : Outcome β} {next : β → Outcome γ} {c : γ} :
    o.bind next = done c ↔ ∃ b, o = done b ∧ next b = done c := by
  cases o <;> simp

theorem ofOption_eq_done {o : Option β} {b : β} : ofOption o = done b ↔ o = some b := by
  cases o <;> simp [ofOption]

/-- the same way to end, unless too few calls were allowed -/
def Le (o o' : Outcome β) : Prop := o = exhausted ∨ o = o'

theorem Le.refl (o : Outcome β) : o.Le o := Or.inr rfl

theorem Le.trans {o o' o'' : Outcome β} (h : o.Le o') (h' : o'.Le o'') : o.Le o'' := by
  rcases h with rfl | rfl
  · exact Or.inl rfl
  · exact h'

theorem Le.bind {o o' : Outcome β} {next next' : β → Outcome γ} (h : o.Le o') (hnext : ∀ b, (next b).Le (next' b)) :
    (o.bind next).Le (o'.bind next') := by
  rcases h with rfl | rfl
  · exact Or.inl rfl
  · cases o with
    | done b => exact hnext b
    | stuck => exact .refl _
    | exhausted => exact .refl _

theorem Le.done {o o' : Outcome β} {b : β} (h : o.Le o') (hb : o = done b) : o' = done b := by
  rcases h with h | rfl
  · cases h.symm.trans hb
  · exact hb

variable {β' γ' : Type} {P P' : β → γ → Prop} {Q : β' → γ' → Prop} {o : Outcome β} {o' : Outcome γ}

/-- both end the same way, results are related -/
inductive Rel (P : β → γ → Prop) : Outcome β → Outcome γ → Prop
  | done {b : β} {c : γ} : P b c → Rel P (done b) (done c)
  | stuck : Rel P stuck stuck
  | exhausted : Rel P exhausted exhausted

theorem Rel.bind {next : β → Outcome β'} {next' : γ → Outcome γ'} (h : Rel P o o')
    (hnext : ∀ b c, P b c → Rel Q (next b) (next' c)) : Rel Q (o.bind next) (o'.bind next') := by
  cases h with
  | done h => exact hnext _ _ h
  | stuck => exact .stuck
  | exhausted => exact .exhausted

theorem Rel.imp (h : Rel P o o') (hP : ∀ b c, P b c → P' b c) : Rel P' o o' := by
  cases h with
  | done h => exact .done (hP _ _ h)
  | stuck => exact .stuck
  | exhausted => exact .exhausted

theorem Rel.ofOption {o : Option β} {o' : Option γ} (h : Option.Rel P o o') :
    Rel P (Outcome.ofOption o) (Outcome.ofOption o') := by
  cases h with
  | some h => exact .done h
  | none => exact .stuck

theorem Rel.of_done {b : β} (h : Rel P o o') (hb : o = .done b) : ∃ c, o' = .done c ∧ P b c := by
  cases h with
  | done h =>
    cases hb
    exact ⟨_, rfl, h⟩
  | stuck => cases hb
  | exhausted => cases hb

theorem Rel.of_done_right {c : γ} (h : Rel P o o') (hc : o' = .done c) : ∃ b, o = .done b ∧ P b c := by
  cases h with
  | done h =>
    cases hc
    exact ⟨_, rfl, h⟩
  | stuck => cases hc
  | exhausted => cases hc

end Outcome

/-- the order in which an application evaluates its parts -/
inductive CallOrder where
  /-- the operands from left to right, then the operator -/
  | operandsFirst
  /-- an operator that is not atomic, then the operands from left to right; an atomic operator last -/
  | inTurn
  /-- an operator that is not atomic, then the operands that are not, from left to right; atoms when the call is made -/
  | atomsLast
  deriving DecidableEq

namespace Core

structure Closure where
  params : List String
  rest : Option String
  body : Core
  env : Env
  deriving DecidableEq

end Core

abbrev CoreValue (α : Type) := RunValue α Core.Closure

abbrev CoreMemory (α : Type) := Memory (CoreValue α)

abbrev CoreOutcome (α : Type) := Outcome (CoreValue α × CoreMemory α)

namespace Core

variable {α : Type}

/-- new places, numbered from `first` on, for names, of which the last hides those before -/
def bindPlaces (names : List String) (first : Nat) (ρ : Env) : Env := (names.zipIdx first).reverse ++ ρ

def readAtom (ρ : Env) (m : CoreMemory α) : Core → Option (CoreValue α)
  | var name => m.get ρ name
  | val v => some (.atom v)
  | quote v => some (.atom v)
  | _ => none

/-- the values of operands: those of the atoms are read, those of the others are at hand -/
def fillAtoms (ρ : Env) (m : CoreMemory α) : List Core → List (CoreValue α) → Option (List (CoreValue α))
  | [], _ => some []
  | e :: es, vs =>
    if e.isAtomic then (e.readAtom ρ m).bind fun v => (fillAtoms ρ m es vs).map (v :: ·)
    else
      match vs with
      | [] => none
      | v :: vs => (fillAtoms ρ m es vs).map (v :: ·)

section Run

variable (order : CallOrder) (call : CoreValue α → List (CoreValue α) → CoreMemory α → CoreOutcome α)

mutual

/-- evaluates an expression; `call` makes the calls -/
def run : Core → Env → CoreMemory α → CoreOutcome α
  | var name, ρ, m => .ofOption ((m.get ρ name).map fun v => (v, m))
  | val v, _, m => .done (.atom v, m)
  | quote v, _, m => .done (.atom v, m)
  | letIn name value body, ρ, m =>
    (run value ρ m).bind fun r => run body ((name, r.2.heap.length) :: ρ) (r.2.alloc r.1)
  | lambda params rest body, ρ, m => .done (.closure ⟨params, rest, body, ρ⟩, m)
  | app operator operands, ρ, m =>
    match order with
    | .operandsFirst =>
      (runAll operands ρ m).bind fun as => (run operator ρ as.2).bind fun f => call f.1 as.1 f.2
    | .inTurn =>
      if operator.isAtomic then
        (runAll operands ρ m).bind fun as => (run operator ρ as.2).bind fun f => call f.1 as.1 f.2
      else
        (run operator ρ m).bind fun f => (runAll operands ρ f.2).bind fun as => call f.1 as.1 as.2
    | .atomsLast =>
      if operator.isAtomic then
        (runCompound operands ρ m).bind fun as => (Outcome.ofOption (operator.readAtom ρ as.2)).bind fun f =>
          (Outcome.ofOption (fillAtoms ρ as.2 operands as.1)).bind fun vs => call f vs as.2
      else
        (run operator ρ m).bind fun f => (runCompound operands ρ f.2).bind fun as =>
          (Outcome.ofOption (fillAtoms ρ as.2 operands as.1)).bind fun vs => call f.1 vs as.2
  | branch test consequent none, ρ, m =>
    (run test ρ m).bind fun t => if t.1.isFalse then .done (.atom (.boolean false), t.2) else run consequent ρ t.2
  | branch test consequent (some alternative), ρ, m =>
    (run test ρ m).bind fun t => if t.1.isFalse then run alternative ρ t.2 else run consequent ρ t.2
  | assign name value, ρ, m =>
    (run value ρ m).bind fun r => .ofOption ((r.2.put ρ name r.1).map fun m' => (r.1, m'))

def runAll : List Core → Env → CoreMemory α → Outcome (List (CoreValue α) × CoreMemory α)
  | [], _, m => .done ([], m)
  | e :: es, ρ, m => (run e ρ m).bind fun r => (runAll es ρ r.2).bind fun rs => .done (r.1 :: rs.1, rs.2)

/-- evaluates those expressions that are not atomic, from left to right -/
def runCompound : List Core → Env → CoreMemory α → Outcome (List (CoreValue α) × CoreMemory α)
  | [], _, m => .done ([], m)
  | e :: es, ρ, m =>
    if e.isAtomic then runCompound es ρ m
    else (run e ρ m).bind fun r => (runCompound es ρ r.2).bind fun rs => .done (r.1 :: rs.1, rs.2)

end

/-- each expression has one value -/
theorem length_runAll {order : CallOrder} {call : CoreValue α → List (CoreValue α) → CoreMemory α → CoreOutcome α}
    {es : List Core} {ρ : Env} {m m' : CoreMemory α} {vs : List (CoreValue α)}
    (h : runAll order call es ρ m = .done (vs, m')) : vs.length = es.length := by
  induction es generalizing m vs with
  | nil =>
    cases h
    rfl
  | cons e es ih =>
    obtain ⟨r, -, h⟩ := Outcome.bind_eq_done.1 h
    obtain ⟨rs, hrs, h⟩ := Outcome.bind_eq_done.1 h
    cases h
    exact congrArg (· + 1) (ih hrs)

section Le

variable {order : CallOrder} {call call' : CoreValue α → List (CoreValue α) → CoreMemory α → CoreOutcome α}

theorem runAll_le {es : List Core} (hes : ∀ e ∈ es, ∀ ρ m, (run order call e ρ m).Le (run order call' e ρ m)) (ρ : Env)
    (m : CoreMemory α) : (runAll order call es ρ m).Le (runAll order call' es ρ m) := by
  induction es generalizing m with
  | nil => exact .refl _
  | cons e es ih =>
    exact .bind (hes e List.mem_cons_self ρ m) fun r =>
      .bind (ih (fun e' he' => hes e' (List.mem_cons_of_mem e he')) r.2) fun _ => .refl _

theorem runCompound_le {es : List Core} (hes : ∀ e ∈ es, ∀ ρ m, (run order call e ρ m).Le (run order call' e ρ m))
    (ρ : Env) (m : CoreMemory α) : (runCompound order call es ρ m).Le (runCompound order call' es ρ m) := by
  induction es generalizing m with
  | nil => exact .refl _
  | cons e es ih =>
    have hes' := fun e' he' => hes e' (List.mem_cons_of_mem e he')
    rw [runCompound, runCompound]
    split
    · exact ih hes' m
    · exact .bind (hes e List.mem_cons_self ρ m) fun r => .bind (ih hes' r.2) fun _ => .refl _

/-- evaluation ends the same way if calls do -/
theorem run_le (hcall : ∀ f args m, (call f args m).Le (call' f args m)) (e : Core) (ρ : Env) (m : CoreMemory α) :
    (run order call e ρ m).Le (run order call' e ρ m) := by
  induction e generalizing ρ m with
  | var name => rw [run, run]; exact .refl _
  | val v => rw [run, run]; exact .refl _
  | quote v => rw [run, run]; exact .refl _
  | letIn name value body ihv ihb =>
    rw [run, run]
    exact .bind (ihv ρ m) fun r => ihb _ _
  | lambda params rest body _ => rw [run, run]; exact .refl _
  | app operator operands ihf ihas =>
    cases order with
    | operandsFirst => exact .bind (runAll_le ihas ρ m) fun as => .bind (ihf ρ as.2) fun f => hcall f.1 as.1 f.2
    | inTurn =>
      rw [run, run]
      split
      · exact .bind (runAll_le ihas ρ m) fun as => .bind (ihf ρ as.2) fun f => hcall f.1 as.1 f.2
      · exact .bind (ihf ρ m) fun f => .bind (runAll_le ihas ρ f.2) fun as => hcall f.1 as.1 as.2
    | atomsLast =>
      rw [run, run]
      split
      · exact .bind (runCompound_le ihas ρ m) fun as => .bind (.refl _) fun f => .bind (.refl _) fun vs =>
          hcall f vs as.2
      · exact .bind (ihf ρ m) fun f => .bind (runCompound_le ihas ρ f.2) fun as => .bind (.refl _) fun vs =>
          hcall f.1 vs as.2
  | branch test consequent alternative iht ihc iha =>
    cases alternative with
    | none =>
      rw [run, run]
      refine .bind (iht ρ m) fun t => ?_
      split
      · exact .refl _
      · exact ihc ρ t.2
    | some alternative =>
      rw [run, run]
      refine .bind (iht ρ m) fun t => ?_
      split
      · exact iha _ rfl ρ t.2
      · exact ihc ρ t.2
  | assign name value ih =>
    rw [run, run]
    exact .bind (ih ρ m) fun r => .refl _

end Le

end Run

/-- calls a value, at most `depth` calls of closures inside each other -/
def callAt (builtins : Builtins α) (order : CallOrder) :
    (depth : Nat) → CoreValue α → List (CoreValue α) → CoreMemory α → CoreOutcome α
  | 0, .closure _, _, _ => .exhausted
  | depth + 1, .closure c, args, m =>
    (Outcome.ofOption (RunValue.arguments? c.params.length c.rest.isSome args)).bind fun vs =>
      c.body.run order (callAt builtins order depth) (bindPlaces (binders c.params c.rest) m.heap.length c.env)
        (m.allocAll vs)
  | _, f, args, m => .ofOption ((RunValue.answer builtins f args).map fun d => (RunValue.embed d, m))

theorem callAt_builtin {builtins : Builtins α} {order : CallOrder} {f : CoreValue α} (hf : ∀ c, f ≠ .closure c)
    (depth : Nat) (args : List (CoreValue α)) (m : CoreMemory α) :
    callAt builtins order depth f args m =
      .ofOption ((RunValue.answer builtins f args).map fun d => (RunValue.embed d, m)) := by
  cases f with
  | closure c => exact absurd rfl (hf c)
  | _ => cases depth <;> rfl

/-- evaluates an expression, at most `depth` calls of closures inside each other -/
def evalAt (builtins : Builtins α) (order : CallOrder) (depth : Nat) (e : Core) (ρ : Env) (m : CoreMemory α) :
    CoreOutcome α :=
  e.run order (callAt builtins order depth) ρ m

/-- the expression has the value and leaves the memory -/
def Evaluates (builtins : Builtins α) (order : CallOrder) (e : Core) (ρ : Env) (m : CoreMemory α) (v : CoreValue α)
    (m' : CoreMemory α) : Prop :=
  ∃ depth, evalAt builtins order depth e ρ m = .done (v, m')

/-- the evaluation of the expression ends in a fault -/
def Faults (builtins : Builtins α) (order : CallOrder) (e : Core) (ρ : Env) (m : CoreMemory α) : Prop :=
  ∃ depth, evalAt builtins order depth e ρ m = .stuck

/-- the expressions, evaluated in order, have the values and leave the memory -/
def EvaluateAll (builtins : Builtins α) (order : CallOrder) (es : List Core) (ρ : Env) (m : CoreMemory α)
    (vs : List (CoreValue α)) (m' : CoreMemory α) : Prop :=
  ∃ depth, runAll order (callAt builtins order depth) es ρ m = .done (vs, m')

section Depth

variable {builtins : Builtins α} {order : CallOrder}

theorem callAt_le_succ (depth : Nat) (f : CoreValue α) (args : List (CoreValue α)) (m : CoreMemory α) :
    (callAt builtins order depth f args m).Le (callAt builtins order (depth + 1) f args m) := by
  induction depth generalizing f args m with
  | zero =>
    cases f with
    | closure c => exact Or.inl rfl
    | _ => exact .refl _
  | succ depth ih =>
    cases f with
    | closure c => exact .bind (.refl _) fun vs => run_le ih c.body _ _
    | _ => exact .refl _

theorem callAt_le {depth depth' : Nat} (h : depth ≤ depth') (f : CoreValue α) (args : List (CoreValue α))
    (m : CoreMemory α) : (callAt builtins order depth f args m).Le (callAt builtins order depth' f args m) := by
  induction h with
  | refl => exact .refl _
  | step _ ih => exact ih.trans (callAt_le_succ _ f args m)

/-- evaluation to a greater depth has the same result -/
theorem evalAt_mono {depth depth' : Nat} (h : depth ≤ depth') {e : Core} {ρ : Env} {m : CoreMemory α}
    {r : CoreValue α × CoreMemory α} (he : evalAt builtins order depth e ρ m = .done r) :
    evalAt builtins order depth' e ρ m = .done r :=
  (run_le (callAt_le h) e ρ m).done he

/-- an expression evaluates to one value and leaves one memory -/
theorem Evaluates.unique {e : Core} {ρ : Env} {m m₁ m₂ : CoreMemory α} {v₁ v₂ : CoreValue α}
    (h₁ : Evaluates builtins order e ρ m v₁ m₁) (h₂ : Evaluates builtins order e ρ m v₂ m₂) : v₁ = v₂ ∧ m₁ = m₂ := by
  obtain ⟨depth₁, h₁⟩ := h₁
  obtain ⟨depth₂, h₂⟩ := h₂
  have h := (evalAt_mono (Nat.le_max_left depth₁ depth₂) h₁).symm.trans
    (evalAt_mono (Nat.le_max_right depth₁ depth₂) h₂)
  cases h
  exact ⟨rfl, rfl⟩

end Depth

end Core

end SchemeStack
