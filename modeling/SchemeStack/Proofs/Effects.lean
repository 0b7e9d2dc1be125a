/-
Expressions without effects.

`hasEffect` works off a stack of expressions, each with whether it stands in a procedure, the last part of an
expression first. The order does not matter: `actsIn` is what it says of one expression, and follows the constructors:
an assignment acts, an application acts if calls count and no procedure is around it, and everything else acts if a
part of it does (`actsIn_eq`).

What does not act, calls counted, evaluates without effect (`effectless`): it never makes a call, so it ends at once,
and whatever it yields, the memory has at most new places and all variables have the values they had.
-/
import SchemeStack.Proofs.FlatteningMeaning

namespace SchemeStack

/-- the memory has at most new places, and all variables are as before -/
def Memory.Grows {ν : Type} (m m' : Memory ν) : Prop := m.heap <+: m'.heap ∧ m'.globals = m.globals

namespace Memory.Grows

variable {ν : Type} {m m' m'' : Memory ν}

theorem refl (m : Memory ν) : m.Grows m := ⟨List.prefix_refl _, rfl⟩

theorem trans (h : m.Grows m') (h' : m'.Grows m'') : m.Grows m'' := ⟨h.1.trans h'.1, h'.2.trans h.2⟩

theorem alloc (m : Memory ν) (v : ν) : m.Grows (m.alloc v) := ⟨List.prefix_append _ _, rfl⟩

end Memory.Grows

namespace Core

/-! ## Effects by cases -/

theorem effectAmong_append (calls : Bool) (as bs : List (Core × Bool)) :
    effectAmong calls (as ++ bs) = (effectAmong calls as || effectAmong calls bs) := by
  induction as using effectAmong.induct with
  | case1 => simp [effectAmong]
  | case2 e inLambda stack ih =>
    rw [List.cons_append, effectAmong, effectAmong, ← List.append_assoc, ih, Bool.or_assoc]

/-- the expression may have an effect, where `inLambda` tells whether it stands in a procedure -/
def actsIn (calls inLambda : Bool) (e : Core) : Bool := effectAmong calls [(e, inLambda)]

theorem hasEffect_eq_actsIn (e : Core) (calls : Bool) : e.hasEffect calls = e.actsIn calls false := rfl

theorem effectAmong_eq_any (calls : Bool) (stack : List (Core × Bool)) :
    effectAmong calls stack = stack.any fun p => p.1.actsIn calls p.2 := by
  induction stack with
  | nil => simp [effectAmong]
  | cons p stack ih =>
    rw [← List.singleton_append, effectAmong_append, ih, List.any_append, List.any_cons, List.any_nil,
      Bool.or_false, actsIn]

/-- an expression acts if its root does or one of its parts does -/
theorem actsIn_eq (calls inLambda : Bool) (e : Core) :
    e.actsIn calls inLambda =
      (e.isEffect (calls && !inLambda) || e.children.any (actsIn calls (inLambda || e.isLambda))) := by
  rw [actsIn, effectAmong, List.append_nil, effectAmong_eq_any, List.any_reverse, List.any_map]
  rfl

section Cases

variable {calls inLambda : Bool} {name : String} {v t c f : Core} {ps : List String} {r : Option String}
  {es : List Core} {a : Option Core}

@[simp] theorem actsIn_var : (var name).actsIn calls inLambda = false := by
  rw [actsIn_eq]; rfl

@[simp] theorem actsIn_val {w : Value} : (val w).actsIn calls inLambda = false := by
  rw [actsIn_eq]; rfl

@[simp] theorem actsIn_quote {w : Value} : (quote w).actsIn calls inLambda = false := by
  rw [actsIn_eq]; rfl

@[simp] theorem actsIn_letIn :
    (letIn name v c).actsIn calls inLambda = (v.actsIn calls inLambda || c.actsIn calls inLambda) := by
  rw [actsIn_eq]; simp [isEffect, isLambda, children]

@[simp] theorem actsIn_lambda : (lambda ps r c).actsIn calls inLambda = c.actsIn calls true := by
  rw [actsIn_eq]; simp [isEffect, isLambda, children]

@[simp] theorem actsIn_app :
    (app f es).actsIn calls inLambda =
      (calls && !inLambda || es.any (actsIn calls inLambda) || f.actsIn calls inLambda) := by
  rw [actsIn_eq]; simp [isEffect, isLambda, children, Bool.or_assoc]

@[simp] theorem actsIn_branch :
    (branch t c a).actsIn calls inLambda =
      (t.actsIn calls inLambda || c.actsIn calls inLambda || a.any (actsIn calls inLambda)) := by
  rw [actsIn_eq]
  cases a <;> simp [isEffect, isLambda, children, Bool.or_assoc]

@[simp] theorem actsIn_assign : (assign name v).actsIn calls inLambda = true := by
  rw [actsIn_eq]; simp [isEffect]

end Cases

/-- what does not act anywhere does not act in a procedure -/
theorem actsIn_lambda_of_false {calls : Bool} {e : Core} (h : e.actsIn calls false = false) :
    e.actsIn calls true = false := by
  induction e with
  | var name => exact actsIn_var
  | val v => exact actsIn_val
  | quote v => exact actsIn_quote
  | letIn name value body ihv ihb =>
    simp only [actsIn_letIn, Bool.or_eq_false_iff] at h ⊢
    exact ⟨ihv h.1, ihb h.2⟩
  | lambda params rest body ih => simpa only [actsIn_lambda] using h
  | app operator operands ihf ihas =>
    simp only [actsIn_app, Bool.or_eq_false_iff, List.any_eq_false, Bool.not_true, Bool.and_false, true_and] at h ⊢
    refine ⟨fun e he => ?_, ihf h.2⟩
    have hnot := ihas e he (Bool.eq_false_iff.2 (h.1.2 e he))
    exact Bool.eq_false_iff.1 hnot
  | branch test consequent alternative iht ihc iha =>
    simp only [actsIn_branch, Bool.or_eq_false_iff] at h ⊢
    refine ⟨⟨iht h.1.1, ihc h.1.2⟩, ?_⟩
    cases alternative with
    | none => rfl
    | some alternative => exact iha _ rfl h.2
  | assign name value ih => simp at h

/-! ## Evaluation without effect -/

variable {α : Type}

/-- evaluating the expression makes no call, always ends, and assigns no variable -/
structure Effectless (α : Type) (e : Core) : Prop where
  /-- whatever a call would do, the outcome is the same -/
  noCall : ∀ order (call call' : CoreValue α → List (CoreValue α) → CoreMemory α → CoreOutcome α) ρ m,
    e.run order call ρ m = e.run order call' ρ m
  /-- even if every call were one too many -/
  ends : ∀ order (call : CoreValue α → List (CoreValue α) → CoreMemory α → CoreOutcome α) ρ m,
    e.run order call ρ m ≠ .exhausted
  noAssignment : ∀ order (call : CoreValue α → List (CoreValue α) → CoreMemory α → CoreOutcome α) ρ m r,
    e.run order call ρ m = .done r → m.Grows r.2

section Outcomes

variable {β γ : Type}

theorem ofOption_ne_exhausted (o : Option β) : Outcome.ofOption o ≠ .exhausted := by
  cases o with
  | none => exact nofun
  | some b => exact nofun

theorem bind_ne_exhausted {o : Outcome β} {next : β → Outcome γ} (h : o ≠ .exhausted)
    (hnext : ∀ b, next b ≠ .exhausted) :
    o.bind next ≠ .exhausted := by
  cases o with
  | done b => exact hnext b
  | stuck => exact nofun
  | exhausted => exact absurd rfl h

end Outcomes

/-- an expression that only reads -/
theorem Effectless.of_read {e : Core} (read : Env → CoreMemory α → Option (CoreValue α))
    (h : ∀ order call ρ m, e.run order call ρ m = .ofOption ((read ρ m).map fun v => (v, m))) : Effectless α e := by
  refine ⟨fun order call call' ρ m => ?_, fun order call ρ m => ?_, fun order call ρ m r hr => ?_⟩
  · rw [h, h]
  · rw [h]
    exact ofOption_ne_exhausted _
  · rw [h, Outcome.ofOption_eq_done, Option.map_eq_some_iff] at hr
    obtain ⟨v, -, rfl⟩ := hr
    exact .refl m

theorem Effectless.letIn {name : String} {v b : Core} (hv : Effectless α v) (hb : Effectless α b) :
    Effectless α (.letIn name v b) := by
  refine ⟨fun order call call' ρ m => ?_, fun order call ρ m => ?_, fun order call ρ m r hr => ?_⟩
  · rw [run, run, hv.noCall order call call']
    congr 1
    funext r
    exact hb.noCall order call call' _ _
  · rw [run]
    exact bind_ne_exhausted (hv.ends order call ρ m) fun r => hb.ends order call _ _
  · rw [run] at hr
    obtain ⟨s, hs, hr⟩ := Outcome.bind_eq_done.1 hr
    exact ((hv.noAssignment order call ρ m s hs).trans (.alloc _ _)).trans (hb.noAssignment order call _ _ r hr)

theorem Effectless.branch {t c : Core} {a : Option Core} (ht : Effectless α t) (hc : Effectless α c)
    (ha : ∀ e ∈ a, Effectless α e) : Effectless α (.branch t c a) := by
  refine ⟨fun order call call' ρ m => ?_, fun order call ρ m => ?_, fun order call ρ m r hr => ?_⟩
  · rw [run_branch, run_branch, ht.noCall order call call']
    congr 1
    funext r
    unfold runArm
    split
    · cases a with
      | none => rfl
      | some a => exact (ha a rfl).noCall order call call' _ _
    · exact hc.noCall order call call' _ _
  · rw [run_branch]
    refine bind_ne_exhausted (ht.ends order call ρ m) fun r => ?_
    unfold runArm
    split
    · cases a with
      | none => exact nofun
      | some a => exact (ha a rfl).ends order call _ _
    · exact hc.ends order call _ _
  · rw [run_branch] at hr
    obtain ⟨s, hs, hr⟩ := Outcome.bind_eq_done.1 hr
    apply (ht.noAssignment order call ρ m s hs).trans
    unfold runArm at hr
    split at hr
    · cases a with
      | none =>
        cases hr
        exact .refl _
      | some a => exact (ha a rfl).noAssignment order call _ _ r hr
    · exact hc.noAssignment order call _ _ r hr

/-- **What has no effect, calls counted,** makes no call, always ends, and assigns no variable -/
theorem effectless {e : Core} (h : e.hasEffect true = false) : Effectless α e := by
  rw [hasEffect_eq_actsIn] at h
  induction e with
  | var name => exact .of_read (fun ρ m => m.get ρ name) fun _ _ _ _ => by rw [run]
  | val v => exact .of_read (fun _ _ => some (.atom v)) fun _ _ _ _ => by rw [run]; rfl
  | quote v => exact .of_read (fun _ _ => some (.atom v)) fun _ _ _ _ => by rw [run]; rfl
  | letIn name value body ihv ihb =>
    simp only [actsIn_letIn, Bool.or_eq_false_iff] at h
    exact (ihv h.1).letIn (ihb h.2)
  | lambda params rest body _ =>
    exact .of_read (fun ρ _ => some (.closure ⟨params, rest, body, ρ⟩)) fun _ _ _ _ => by rw [run]; rfl
  | app operator operands _ _ => simp at h
  | branch test consequent alternative iht ihc iha =>
    simp only [actsIn_branch, Bool.or_eq_false_iff] at h
    refine (iht h.1.1).branch (ihc h.1.2) fun e he => iha e he ?_
    cases he
    exact h.2
  | assign name value _ => simp at h

end Core

end SchemeStack
