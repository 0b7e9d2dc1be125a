/-
What surface expressions mean, said directly.

Variables have places, as in the core language, and calls evaluate their operands from left to right and then the
operator. The derived expressions have meanings of their own, which do not look at how they are lowered:
- a body runs its expressions in order and yields the last;
- a binding form evaluates its values, in the environment outside, and runs its body with new places for the names;
- a recursive binding form has places for its names first, with false in them. It assigns the values in order, each
  evaluated in that scope, and then runs its body;
- a loop is the procedure of its body, in a scope where its name has a place that holds it. The initial values are
  evaluated in that scope, and what the name holds then is called;
- a conditional runs the body of the first clause whose test is not false. If there is none it runs the final body,
  and it is false if that is missing or empty;
- a conjunction stops at the first test that is false, a disjunction at the first that is not, and both yield a boolean.

A closure keeps the body of its procedure as it is written. `run` leaves calls to a parameter, `callAt` makes them to
a given depth, and an expression evaluates if it does at some depth.
-/
import SchemeStack.Proofs.CoreEvaluation
import SchemeStack.Proofs.LoweringInduction

namespace SchemeStack

/-- a procedure of the surface language with the environment it was made in -/
structure Expr.Closure where
  params : List String
  rest : Option String
  body : List Expr
  env : Env

abbrev ExprValue (α : Type) := RunValue α Expr.Closure

abbrev ExprMemory (α : Type) := Memory (ExprValue α)

abbrev ExprOutcome (α : Type) := Outcome (ExprValue α × ExprMemory α)

namespace Expr

variable {α : Type}

/-- a constant; a pair is none -/
def runConstant (d : Datum) (m : ExprMemory α) : ExprOutcome α :=
  match Value.ofDatum? d with
  | .ok v => .done (.atom v, m)
  | .error _ => .stuck

def runBoolean (b : Bool) (m : ExprMemory α) : ExprOutcome α := .done (.atom (.boolean b), m)

/-- the scope of a loop: a place for its name -/
def loopScope (name : String) (ρ : Env) (m : ExprMemory α) : Env := (name, m.heap.length) :: ρ

section Run

variable (call : ExprValue α → List (ExprValue α) → ExprMemory α → ExprOutcome α)

mutual

/-- evaluates an expression; `call` makes the calls -/
def run : Expr → Env → ExprMemory α → ExprOutcome α
  | literal d, _, m => runConstant d m
  | var name, ρ, m => .ofOption ((m.get ρ name).map fun v => (v, m))
  | quotation d, _, m => runConstant d m
  | .call operator operands, ρ, m =>
    (runAll operands ρ m).bind fun as => (run operator ρ as.2).bind fun f => call f.1 as.1 f.2
  | lambda params rest body, ρ, m => .done (.closure ⟨params, rest, body, ρ⟩, m)
  | branch test consequent none, ρ, m =>
    (run test ρ m).bind fun t => if t.1.isFalse then runBoolean false t.2 else run consequent ρ t.2
  | branch test consequent (some alternative), ρ, m =>
    (run test ρ m).bind fun t => if t.1.isFalse then run alternative ρ t.2 else run consequent ρ t.2
  | assign name value, ρ, m =>
    (run value ρ m).bind fun r => .ofOption ((r.2.put ρ name r.1).map fun m' => (r.1, m'))
  | letIn bindings body, ρ, m =>
    (runValues bindings ρ m).bind fun vs =>
      runBody body (Core.bindPlaces (bindings.map (·.name)) vs.2.heap.length ρ) (vs.2.allocAll vs.1)
  | letRec bindings body, ρ, m =>
    let scope := Core.bindPlaces (bindings.map (·.name)) m.heap.length ρ
    (runAssigns bindings scope (m.allocAll (bindings.map fun _ => .atom (.boolean false)))).bind fun m' =>
      runBody body scope m'
  | namedLet name bindings body, ρ, m =>
    let scope := loopScope name ρ m
    (runValues bindings scope (m.alloc (.closure ⟨bindings.map (·.name), none, body, scope⟩))).bind fun vs =>
      (Outcome.ofOption (vs.2.get scope name)).bind fun f => call f vs.1 vs.2
  | sequence body, ρ, m => runBody body ρ m
  | cond clauses none, ρ, m => runClauses (runBoolean false) clauses ρ m
  | cond clauses (some body), ρ, m =>
    runClauses (fun m' => if body.isEmpty then runBoolean false m' else runBody body ρ m') clauses ρ m
  | conj body, ρ, m => if body.isEmpty then runBoolean false m else runConj body ρ m
  | disj body, ρ, m => runDisj body ρ m
  | template _ body, ρ, m => run body ρ m

def runAll : List Expr → Env → ExprMemory α → Outcome (List (ExprValue α) × ExprMemory α)
  | [], _, m => .done ([], m)
  | e :: es, ρ, m => (run e ρ m).bind fun r => (runAll es ρ r.2).bind fun rs => .done (r.1 :: rs.1, rs.2)

/-- evaluates the values of bindings from left to right -/
def runValues : List (Binding Expr) → Env → ExprMemory α → Outcome (List (ExprValue α) × ExprMemory α)
  | [], _, m => .done ([], m)
  | ⟨_, value⟩ :: bs, ρ, m =>
    (run value ρ m).bind fun r => (runValues bs ρ r.2).bind fun rs => .done (r.1 :: rs.1, rs.2)

/-- assigns the values of bindings to their names, in order -/
def runAssigns : List (Binding Expr) → Env → ExprMemory α → Outcome (ExprMemory α)
  | [], _, m => .done m
  | ⟨name, value⟩ :: bs, ρ, m =>
    (run value ρ m).bind fun r => (Outcome.ofOption (r.2.put ρ name r.1)).bind fun m' => runAssigns bs ρ m'

/-- evaluates the expressions of a body in order, yields the last -/
def runBody : List Expr → Env → ExprMemory α → ExprOutcome α
  | [], _, _ => .stuck
  | [e], ρ, m => run e ρ m
  | e :: es, ρ, m => (run e ρ m).bind fun r => runBody es ρ r.2

/-- runs the body of the first clause whose test is not false -/
def runClauses (otherwise : ExprMemory α → ExprOutcome α) : List (Clause Expr) → Env → ExprMemory α → ExprOutcome α
  | [], _, m => otherwise m
  | ⟨test, body⟩ :: cs, ρ, m =>
    (run test ρ m).bind fun t => if t.1.isFalse then runClauses otherwise cs ρ t.2 else runBody body ρ t.2

/-- true, unless a test is false -/
def runConj : List Expr → Env → ExprMemory α → ExprOutcome α
  | [], _, m => runBoolean true m
  | e :: es, ρ, m => (run e ρ m).bind fun t => if t.1.isFalse then runBoolean false t.2 else runConj es ρ t.2

/-- false, unless a test is not -/
def runDisj : List Expr → Env → ExprMemory α → ExprOutcome α
  | [], _, m => runBoolean false m
  | e :: es, ρ, m => (run e ρ m).bind fun t => if t.1.isFalse then runDisj es ρ t.2 else runBoolean true t.2

end

/-! ## Derived expressions by others -/

variable {call : ExprValue α → List (ExprValue α) → ExprMemory α → ExprOutcome α} {ρ : Env} {m : ExprMemory α}

theorem runValues_eq (bindings : List (Binding Expr)) :
    runValues call bindings ρ m = runAll call (bindings.map (·.value)) ρ m := by
  induction bindings generalizing m with
  | nil => rfl
  | cons b bindings ih => simp only [runValues, List.map_cons, runAll, ih]

theorem runBody_cons {e : Expr} {es : List Expr} (hne : es ≠ []) :
    runBody call (e :: es) ρ m = (run call e ρ m).bind fun r => runBody call es ρ r.2 := by
  cases es with
  | nil => exact absurd rfl hne
  | cons e' es => rfl

/-- a body yields the last of the values of its expressions -/
theorem runBody_eq {body : List Expr} (hne : body ≠ []) :
    runBody call body ρ m =
      (runAll call body ρ m).bind fun rs => .ofOption (rs.1.getLast?.map fun v => (v, rs.2)) := by
  induction body generalizing m with
  | nil => exact absurd rfl hne
  | cons e es ih =>
    cases es with
    | nil =>
      simp only [runBody, runAll]
      cases run call e ρ m <;> rfl
    | cons e' es =>
      have hes : e' :: es ≠ [] := by simp
      rw [runBody_cons hes]
      simp only [ih hes, runAll, Outcome.bind_assoc, Outcome.bind_done, List.getLast?_cons_cons]

/-- the assignments of a recursive binding form come first in its body -/
theorem runBody_assignments {bindings : List (Binding Expr)} {body : List Expr} (hne : body ≠ []) :
    runBody call (assignments bindings ++ body) ρ m =
      (runAssigns call bindings ρ m).bind fun m' => runBody call body ρ m' := by
  induction bindings generalizing m with
  | nil => rfl
  | cons b bindings ih =>
    have hrest : assignments bindings ++ body ≠ [] := List.append_ne_nil_of_right_ne_nil _ hne
    change runBody call (.assign b.name b.value :: (assignments bindings ++ body)) ρ m = _
    rw [runBody_cons hrest]
    simp only [run, runAssigns, ih, Outcome.bind_assoc]
    congr 1
    funext r
    cases r.2.put ρ b.name r.1 <;> rfl

theorem run_letRec {bindings : List (Binding Expr)} {body : List Expr} (hne : body ≠ []) :
    run call (.letRec bindings body) ρ m =
      run call (.sequence (assignments bindings ++ body)) (Core.bindPlaces (bindings.map (·.name)) m.heap.length ρ)
        (m.allocAll (bindings.map fun _ => .atom (.boolean false))) := by
  rw [run, run, runBody_assignments hne]

/-- a loop is a recursive binding form of its procedure, which is called in that scope -/
theorem run_namedLet (name : String) (bindings : List (Binding Expr)) (body : List Expr) :
    run call (.namedLet name bindings body) ρ m =
      run call (.sequence (loopSteps name bindings body)) (Core.bindPlaces [name] m.heap.length ρ)
        (m.allocAll [.atom (.boolean false)]) := by
  have hput : ∀ v : ExprValue α, (m.allocAll [.atom (.boolean false)]).put (loopScope name ρ m) name v =
      some (m.alloc v) := by
    intro v
    simp [Memory.put, loopScope, Memory.write, Memory.allocAll, Memory.alloc]
  change _ = runBody call (loopSteps name bindings body) (loopScope name ρ m) _
  unfold loopSteps
  rw [runBody_cons (by simp)]
  simp only [run, runBody, runValues_eq, Outcome.bind_done, hput, Outcome.ofOption, Option.map_some]
  congr 1
  funext vs
  cases vs.2.get (loopScope name ρ m) name <;> rfl

/-- the test of the first clause decides between its body and the other clauses -/
theorem run_cond_cons (test : Expr) (body : List Expr) (clauses : List (Clause Expr)) (otherwise : Option (List Expr)) :
    run call (.cond (⟨test, body⟩ :: clauses) otherwise) ρ m =
      (run call test ρ m).bind fun t =>
        if t.1.isFalse then run call (.cond clauses otherwise) ρ t.2 else run call (.sequence body) ρ t.2 := by
  cases otherwise <;> rfl

theorem run_conj_cons (e : Expr) {es : List Expr} (hne : es ≠ []) :
    run call (.conj (e :: es)) ρ m =
      (run call e ρ m).bind fun t => if t.1.isFalse then runBoolean false t.2 else run call (.conj es) ρ t.2 := by
  have hes : es.isEmpty = false := by simpa using hne
  simp only [run, runConj, hes, List.isEmpty_cons, Bool.false_eq_true, if_false]

end Run

/-- calls a value, at most `depth` calls of closures inside each other -/
def callAt (builtins : Builtins α) :
    (depth : Nat) → ExprValue α → List (ExprValue α) → ExprMemory α → ExprOutcome α
  | 0, .closure _, _, _ => .exhausted
  | depth + 1, .closure c, args, m =>
    (Outcome.ofOption (RunValue.arguments? c.params.length c.rest.isSome args)).bind fun vs =>
      runBody (callAt builtins depth) c.body (Core.bindPlaces (Core.binders c.params c.rest) m.heap.length c.env)
        (m.allocAll vs)
  | _, f, args, m => .ofOption ((RunValue.answer builtins f args).map fun d => (RunValue.embed d, m))

/-- evaluates an expression, at most `depth` calls of closures inside each other -/
def evalAt (builtins : Builtins α) (depth : Nat) (e : Expr) (ρ : Env) (m : ExprMemory α) : ExprOutcome α :=
  e.run (callAt builtins depth) ρ m

/-- the expression has the value and leaves the memory -/
def Evaluates (builtins : Builtins α) (e : Expr) (ρ : Env) (m : ExprMemory α) (v : ExprValue α) (m' : ExprMemory α) :
    Prop :=
  ∃ depth, evalAt builtins depth e ρ m = .done (v, m')

/-- the evaluation of the expression ends in a fault -/
def Faults (builtins : Builtins α) (e : Expr) (ρ : Env) (m : ExprMemory α) : Prop :=
  ∃ depth, evalAt builtins depth e ρ m = .stuck

end Expr

end SchemeStack
