/-
When the order of operands can be seen, and when not.

Operands may be evaluated each in its turn (`CallOrder.inTurn`), or with atoms read when the call is made
(`CallOrder.atomsLast`). The two differ only in when the variables among the operands are read. A variable operand is
read early (`earlyReads`) if some operand after it runs code. So nothing differs if no variable that is read early is
ever assigned: each order has the results that the other has (`Evaluates.inTurn_iff_atomsLast`).

Whether a variable may be assigned is told by its binding, not by its name. A parameter, or the name of a binding, may
be assigned if it is in its scope (`rebind`); of the variables around an expression that is given. An expression is
`steady` if it assigns only variables that may be, and reads none of these early. A `MarkedMemory` marks the places
and the global variables that may be assigned, so it tells the same of every closure by its environment
(`MarkedMemory.assignable`). Evaluation leaves what is not marked alone (`MarkedMemory.Le`).

The A-normal form leaves a variable operand where it is, and moves the operands behind it that run code in front of
the call. So it reads the variable when the call is made, whatever the order. For steady expressions that is no
difference, and their A-normal forms mean the same with operands in their turn on both sides
(`normalForm_evaluates_inTurn`). It can be seen if the variable is assigned meanwhile (`assigned_operand_differs`).
-/
import SchemeStack.Proofs.NormalFormMeaning

namespace SchemeStack

/-! ## Variables that are read early -/

namespace Core

/-- evaluating the expression runs no code: it is an atom or a procedure -/
def isStill (e : Core) : Bool := e.isAtomic || e.isLambda

/-- the variables among operands that have an operand after them that runs code -/
def earlyReads : List Core → List String
  | [] => []
  | var x :: es => if es.all isStill then earlyReads es else x :: earlyReads es
  | _ :: es => earlyReads es

/-- which variables may be assigned where names are bound anew: of these, the ones that are assigned in their scope -/
def rebind (assignable : String → Bool) (names assigned : List String) (x : String) : Bool :=
  if x ∈ names then assigned.contains x else assignable x

mutual

/-- only variables that may be are assigned, and none of them is read early -/
def steady (assignable : String → Bool) : Core → Bool
  | var _ => true
  | val _ => true
  | quote _ => true
  | letIn name value body => value.steady assignable && body.steady (rebind assignable [name] body.assignedNames)
  | lambda params rest body => body.steady (rebind assignable (binders params rest) body.assignedNames)
  | app operator operands =>
    (earlyReads operands).all (!assignable ·) && (operator.steady assignable && steadyAll assignable operands)
  | branch test consequent none => test.steady assignable && consequent.steady assignable
  | branch test consequent (some alternative) =>
    test.steady assignable && (consequent.steady assignable && alternative.steady assignable)
  | assign name value => assignable name && value.steady assignable

def steadyAll (assignable : String → Bool) : List Core → Bool
  | [] => true
  | e :: es => e.steady assignable && steadyAll assignable es

end

variable {assignable : String → Bool}

theorem steadyAll_iff {es : List Core} : steadyAll assignable es = true ↔ ∀ e ∈ es, e.steady assignable = true := by
  induction es with
  | nil => simp [steadyAll]
  | cons e es ih => simp [steadyAll, ih]

theorem steady_letIn {name : String} {value body : Core} : (letIn name value body).steady assignable = true ↔
    value.steady assignable = true ∧ body.steady (rebind assignable [name] body.assignedNames) = true := by
  simp [steady]

theorem steady_app {f : Core} {es : List Core} : (app f es).steady assignable = true ↔
    (∀ x ∈ earlyReads es, assignable x = false) ∧
      f.steady assignable = true ∧ ∀ e ∈ es, e.steady assignable = true := by
  simp [steady, steadyAll_iff]

theorem steady_branch {t c : Core} {a : Option Core} : (branch t c a).steady assignable = true ↔
    t.steady assignable = true ∧ c.steady assignable = true ∧ ∀ e ∈ a, e.steady assignable = true := by
  cases a <;> simp [steady]

theorem steady_assign {name : String} {value : Core} : (assign name value).steady assignable = true ↔
    assignable name = true ∧ value.steady assignable = true := by
  simp [steady]

theorem earlyReads_subset (e : Core) (es : List Core) : ∀ x ∈ earlyReads es, x ∈ earlyReads (e :: es) := by
  intro x hx
  cases e with
  | var y =>
    rw [earlyReads]
    split
    · exact hx
    · exact List.mem_cons_of_mem y hx
  | _ => exact hx

variable {α : Type} {order : CallOrder} {call : CoreValue α → List (CoreValue α) → CoreMemory α → CoreOutcome α}

/-- operands that run no code leave the memory as it is -/
theorem runAll_still {es : List Core} (h : es.all isStill = true) {ρ : Env} {m m' : CoreMemory α}
    {vs : List (CoreValue α)} (hrun : runAll order call es ρ m = .done (vs, m')) : m' = m := by
  induction es generalizing m vs with
  | nil =>
    cases hrun
    rfl
  | cons e es ih =>
    simp only [List.all_cons, Bool.and_eq_true] at h
    obtain ⟨⟨v, m₁⟩, hv, hrun⟩ := Outcome.bind_eq_done.1 hrun
    obtain ⟨⟨ws, m₂⟩, hws, hrun⟩ := Outcome.bind_eq_done.1 hrun
    cases hrun
    have hm₁ : m₁ = m := by
      rcases Bool.or_eq_true_iff.1 h.1 with hatom | hlambda
      · rw [run_atom hatom, Outcome.ofOption_eq_done, Option.map_eq_some_iff] at hv
        obtain ⟨_, -, hv⟩ := hv
        cases hv
        rfl
      · cases e with
        | lambda params rest body =>
          cases hv
          rfl
        | _ => cases hlambda
    rw [← hm₁]
    exact ih h.2 hws

end Core

/-! ## Memories with variables that may be assigned -/

/-- a memory, with marks for the places and the global variables that may be assigned -/
structure MarkedMemory (α : Type) where
  memory : CoreMemory α
  places : Nat → Bool
  globals : String → Bool

namespace MarkedMemory

variable {α : Type} {S S' S'' : MarkedMemory α} {ρ : Env} {v : CoreValue α}

/-- whether the variable that a name stands for may be assigned -/
def assignable (S : MarkedMemory α) (ρ : Env) (x : String) : Bool :=
  match ρ.lookup x with
  | some p => S.places p
  | none => S.globals x

def Places (S : MarkedMemory α) (ρ : Env) : Prop := PlacesBelow S.memory.heap.length ρ

/-- the closure has a body that is steady in its environment -/
def Fits (S : MarkedMemory α) (c : Core.Closure) : Prop :=
  S.Places c.env ∧
    c.body.steady (Core.rebind (S.assignable c.env) (Core.binders c.params c.rest) c.body.assignedNames) = true

/-- so have the closures inside the value -/
def Holds (S : MarkedMemory α) (v : CoreValue α) : Prop := v.Forall S.Fits

/-- so have all closures in the memory -/
def Ok (S : MarkedMemory α) : Prop := S.memory.Forall S.Fits

/-- what evaluation may change: it adds places, and assigns variables that are marked -/
structure Le (S S' : MarkedMemory α) : Prop where
  length : S.memory.heap.length ≤ S'.memory.heap.length
  places : ∀ p < S.memory.heap.length, S'.places p = S.places p
  globals : S'.globals = S.globals
  heapValues : ∀ p < S.memory.heap.length, S.places p = false → S'.memory.heap[p]? = S.memory.heap[p]?
  globalValues : ∀ x, S.globals x = false → S'.memory.globals x = S.memory.globals x

theorem Le.refl (S : MarkedMemory α) : Le S S :=
  ⟨Nat.le_refl _, fun _ _ => rfl, rfl, fun _ _ _ => rfl, fun _ _ => rfl⟩

theorem Le.trans (h : Le S S') (h' : Le S' S'') : Le S S'' := by
  have hlt : ∀ p < S.memory.heap.length, p < S'.memory.heap.length := fun p hp => Nat.lt_of_lt_of_le hp h.length
  refine ⟨Nat.le_trans h.length h'.length, fun p hp => (h'.places p (hlt p hp)).trans (h.places p hp),
    h'.globals.trans h.globals, ?_, ?_⟩
  · intro p hp hno
    have hno' : S'.places p = false := (h.places p hp).trans hno
    rw [h'.heapValues p (hlt p hp) hno', h.heapValues p hp hno]
  · intro x hx
    have hx' : S'.globals x = false := by rw [h.globals, hx]
    rw [h'.globalValues x hx', h.globalValues x hx]

theorem Places.later (h : S.Places ρ) (hle : Le S S') : S'.Places ρ :=
  fun x p hp => Nat.lt_of_lt_of_le (h x p hp) hle.length

theorem Places.assignable_later (h : S.Places ρ) (hle : Le S S') : S'.assignable ρ = S.assignable ρ := by
  funext x
  unfold assignable
  cases hp : ρ.lookup x with
  | none => exact congrFun hle.globals x
  | some p => exact hle.places p (h x p hp)

theorem Fits.later {c : Core.Closure} (h : S.Fits c) (hle : Le S S') : S'.Fits c := by
  refine ⟨h.1.later hle, ?_⟩
  rw [h.1.assignable_later hle]
  exact h.2

theorem Holds.later (h : S.Holds v) (hle : Le S S') : S'.Holds v := RunValue.Forall.imp (fun _ hc => hc.later hle) h

/-- a variable that may not be assigned keeps its value -/
theorem Le.get (hle : Le S S') (hρ : S.Places ρ) {x : String} (hx : S.assignable ρ x = false) :
    S'.memory.get ρ x = S.memory.get ρ x := by
  unfold assignable at hx
  unfold Memory.get
  cases hp : ρ.lookup x with
  | none =>
    rw [hp] at hx
    exact hle.globalValues x hx
  | some p =>
    rw [hp] at hx
    exact hle.heapValues p (hρ x p hp) hx

/-- new places, marked if their variables are assigned -/
def bind (S : MarkedMemory α) (names assigned : List String) (vs : List (CoreValue α)) : MarkedMemory α where
  memory := S.memory.allocAll vs
  places := fun p =>
    if p < S.memory.heap.length then S.places p
    else (names[p - S.memory.heap.length]?).any assigned.contains
  globals := S.globals

theorem le_bind (names assigned : List String) (vs : List (CoreValue α)) : Le S (S.bind names assigned vs) := by
  refine ⟨by simp [bind, Memory.allocAll], fun p hp => ?_, rfl, fun p hp _ => List.getElem?_append_left hp,
    fun _ _ => rfl⟩
  simp [bind, hp]

/-- in the scope of new places, names stand for variables as `Core.rebind` says -/
theorem Places.bind (h : S.Places ρ) {names : List String} {vs : List (CoreValue α)} (hlen : names.length = vs.length)
    (assigned : List String) :
    (S.bind names assigned vs).Places (Core.bindPlaces names S.memory.heap.length ρ) ∧
      (S.bind names assigned vs).assignable (Core.bindPlaces names S.memory.heap.length ρ) =
        Core.rebind (S.assignable ρ) names assigned := by
  have hsize : (S.bind names assigned vs).memory.heap.length = S.memory.heap.length + vs.length := List.length_append
  have hle : Le S (S.bind names assigned vs) := le_bind names assigned vs
  constructor
  · intro x p hp
    rw [Core.bindPlaces, List.lookup_append] at hp
    rcases lookup_zipIdx names x with ⟨-, hnone⟩ | ⟨i, hi, hsome⟩
    · rw [hnone, Option.none_or] at hp
      exact h.later hle x p hp
    · rw [hsome, Option.some_or] at hp
      cases hp
      have hlt := (List.getElem?_eq_some_iff.1 hi).1
      omega
  · funext x
    rcases lookup_zipIdx names x with ⟨hmem, hnone⟩ | ⟨i, hi, hsome⟩
    · rw [Core.rebind, if_neg hmem, ← h.assignable_later hle]
      simp only [assignable, Core.bindPlaces, List.lookup_append, hnone, Option.none_or]
    · have hnew : ¬ S.memory.heap.length + i < S.memory.heap.length := by omega
      rw [Core.rebind, if_pos (List.mem_of_getElem? hi)]
      simp only [assignable, Core.bindPlaces, List.lookup_append, hsome, Option.some_or, MarkedMemory.bind,
        hnew, if_false, Nat.add_sub_cancel_left, hi, Option.any_some]

theorem Ok.bind (h : S.Ok) {vs : List (CoreValue α)} (hvs : ∀ v ∈ vs, S.Holds v) (names assigned : List String) :
    (S.bind names assigned vs).Ok := by
  have hle : Le S (S.bind names assigned vs) := le_bind names assigned vs
  refine ⟨fun v hv => ?_, fun x v hv => Holds.later (h.globals x v hv) hle⟩
  rcases List.mem_append.1 hv with hv | hv
  · exact Holds.later (h.heap v hv) hle
  · exact (hvs v hv).later hle

/-- a value, held by the memory it was left with, that came after `S` -/
def After (S : MarkedMemory α) (r : CoreValue α × CoreMemory α) : Prop :=
  ∃ S', S'.memory = r.2 ∧ Le S S' ∧ S'.Ok ∧ S'.Holds r.1

theorem Ok.after (h : S.Ok) (hv : S.Holds v) : After S (v, S.memory) := ⟨S, rfl, .refl S, h, hv⟩

theorem After.later {r : CoreValue α × CoreMemory α} (h : After S' r) (hle : Le S S') : After S r := by
  obtain ⟨S₁, hm, hle', hok, hv⟩ := h
  exact ⟨S₁, hm, hle.trans hle', hok, hv⟩

/-- an assignment to a variable that may be assigned -/
theorem Ok.put (h : S.Ok) (hρ : S.Places ρ) {x : String} (hx : S.assignable ρ x = true) (hv : S.Holds v)
    {m : CoreMemory α} (hm : S.memory.put ρ x v = some m) : After S (v, m) := by
  unfold Memory.put at hm
  unfold assignable at hx
  cases hp : ρ.lookup x with
  | none =>
    rw [hp] at hm hx
    cases hm
    have hle : Le S ⟨S.memory.setGlobal x v, S.places, S.globals⟩ := by
      refine ⟨Nat.le_refl _, fun _ _ => rfl, rfl, fun _ _ _ => rfl, fun y hy => ?_⟩
      have hyx : y ≠ x := by
        rintro rfl
        exact absurd (hx.symm.trans hy) (by decide)
      exact if_neg hyx
    refine ⟨_, rfl, hle, ⟨fun w hw => Holds.later (h.heap w hw) hle, fun y w hw => ?_⟩, hv.later hle⟩
    simp only [Memory.setGlobal] at hw
    split at hw
    · cases hw
      exact hv.later hle
    · exact Holds.later (h.globals y w hw) hle
  | some p =>
    rw [hp] at hx
    have hlt : p < S.memory.heap.length := hρ x p hp
    simp only [hp, Memory.write, hlt, if_true] at hm
    cases hm
    have hle : Le S ⟨{ S.memory with heap := S.memory.heap.set p v }, S.places, S.globals⟩ := by
      refine ⟨by simp, fun _ _ => rfl, rfl, fun q _ hq => ?_, fun _ _ => rfl⟩
      have hpq : p ≠ q := by
        rintro rfl
        exact absurd (hx.symm.trans hq) (by decide)
      exact List.getElem?_set_ne hpq
    refine ⟨_, rfl, hle, ⟨fun w hw => ?_, fun y w hw => Holds.later (h.globals y w hw) hle⟩, hv.later hle⟩
    rcases List.mem_or_eq_of_mem_set hw with hw | rfl
    · exact Holds.later (h.heap w hw) hle
    · exact hv.later hle

theorem Ok.get (h : S.Ok) {x : String} (hv : S.memory.get ρ x = some v) : S.Holds v := by
  unfold Memory.get at hv
  split at hv
  · exact h.heap v (List.mem_of_getElem? hv)
  · exact h.globals x v hv

end MarkedMemory

/-! ## Evaluation -/

/-- each has the results that the other has, and these have the property -/
def Outcome.Agrees {β : Type} (Q : β → Prop) (o o' : Outcome β) : Prop :=
  ∀ b, (o = .done b ↔ o' = .done b) ∧ (o = .done b → Q b)

namespace Outcome.Agrees

variable {β γ : Type} {Q Q' : β → Prop} {R : γ → Prop} {o o' : Outcome β}

theorem refl (h : ∀ b, o = .done b → Q b) : Agrees Q o o := fun b => ⟨Iff.rfl, h b⟩

theorem trans {o'' : Outcome β} (h : Agrees Q o o') (h' : Agrees Q' o' o'') : Agrees Q' o o'' :=
  fun b => ⟨(h b).1.trans (h' b).1, fun hb => (h' b).2 ((h b).1.1 hb)⟩

theorem imp (h : Agrees Q o o') (hQ : ∀ b, Q b → Q' b) : Agrees Q' o o' :=
  fun b => ⟨(h b).1, fun hb => hQ b ((h b).2 hb)⟩

theorem bind {next next' : β → Outcome γ} (h : Agrees Q o o')
    (hnext : ∀ b, o = .done b → Q b → Agrees R (next b) (next' b)) : Agrees R (o.bind next) (o'.bind next') := by
  intro c
  refine ⟨⟨fun hc => ?_, fun hc => ?_⟩, fun hc => ?_⟩
  · obtain ⟨b, hb, hc⟩ := bind_eq_done.1 hc
    exact bind_eq_done.2 ⟨b, (h b).1.1 hb, (hnext b hb ((h b).2 hb) c).1.1 hc⟩
  · obtain ⟨b, hb', hc⟩ := bind_eq_done.1 hc
    have hb := (h b).1.2 hb'
    exact bind_eq_done.2 ⟨b, hb, (hnext b hb ((h b).2 hb) c).1.2 hc⟩
  · obtain ⟨b, hb, hc⟩ := bind_eq_done.1 hc
    exact (hnext b hb ((h b).2 hb) c).2 hc

end Outcome.Agrees

section Evaluation

open SchemeStack.Core

variable {α : Type} {S : MarkedMemory α} {ρ : Env}
  {call call' : CoreValue α → List (CoreValue α) → CoreMemory α → CoreOutcome α}

/-- the operands with atoms read last: the others first, from left to right -/
def Core.gather (call : CoreValue α → List (CoreValue α) → CoreMemory α → CoreOutcome α) (es : List Core) (ρ : Env)
    (m : CoreMemory α) : Outcome (List (CoreValue α) × CoreMemory α) :=
  (runCompound .atomsLast call es ρ m).bind fun as =>
    (Outcome.ofOption (fillAtoms ρ as.2 es as.1)).bind fun vs => .done (vs, as.2)

theorem gather_atom {e : Core} (he : e.isAtomic = true) (es : List Core) (m : CoreMemory α) :
    gather call (e :: es) ρ m = (gather call es ρ m).bind fun as =>
      (Outcome.ofOption (e.readAtom ρ as.2)).bind fun v => .done (v :: as.1, as.2) := by
  simp only [gather, runCompound, he, if_true, Outcome.bind_assoc, Outcome.bind_done, fillAtoms_atom]
  congr 1
  funext as
  cases e.readAtom ρ as.2 <;> cases fillAtoms ρ as.2 es as.1 <;> rfl

theorem gather_compound {e : Core} (he : e.isAtomic = false) (es : List Core) (m : CoreMemory α) :
    gather call (e :: es) ρ m = (e.run .atomsLast call ρ m).bind fun r =>
      (gather call es ρ r.2).bind fun as => .done (r.1 :: as.1, as.2) := by
  unfold gather
  rw [runCompound, he, if_neg Bool.false_ne_true, Outcome.bind_assoc]
  congr 1
  funext r
  rw [Outcome.bind_assoc, Outcome.bind_assoc]
  congr 1
  funext as
  rw [Outcome.bind_done, fillAtoms_compound he]
  cases fillAtoms ρ as.2 es as.1 <;> rfl

/-- an atom among operands in their turn can be read later, if the memory it is read from is the same -/
theorem runAll_atom {e : Core} (he : e.isAtomic = true) (es : List Core) (m : CoreMemory α) :
    Outcome.Agrees (fun _ => True) (runAll .inTurn call (e :: es) ρ m) ((runAll .inTurn call es ρ m).bind fun as =>
      (Outcome.ofOption (e.readAtom ρ m)).bind fun v => .done (v :: as.1, as.2)) := by
  rw [runAll, run_atom he]
  cases e.readAtom ρ m with
  | none =>
    intro r
    refine ⟨⟨fun hr => (by cases hr), fun hr => ?_⟩, fun _ => trivial⟩
    obtain ⟨as, -, hr⟩ := Outcome.bind_eq_done.1 hr
    cases hr
  | some v => exact .refl fun _ _ => trivial

theorem run_app_atom {f : Core} (hf : f.isAtomic = true) (es : List Core) (m : CoreMemory α) :
    (app f es).run .inTurn call ρ m = ((runAll .inTurn call es ρ m).bind fun as =>
        (Outcome.ofOption (f.readAtom ρ as.2)).bind fun g => call g as.1 as.2) ∧
      (app f es).run .atomsLast call ρ m = (gather call es ρ m).bind fun as =>
        (Outcome.ofOption (f.readAtom ρ as.2)).bind fun g => call g as.1 as.2 := by
  constructor
  · rw [run, if_pos hf]
    congr 1
    funext as
    rw [run_atom hf]
    cases f.readAtom ρ as.2 <;> rfl
  · simp only [run, gather, hf, if_true, Outcome.bind_assoc, Outcome.bind_done]
    congr 1
    funext as
    cases f.readAtom ρ as.2 <;> cases fillAtoms ρ as.2 es as.1 <;> rfl

theorem run_app_compound {f : Core} (hf : f.isAtomic = false) (es : List Core) (m : CoreMemory α) :
    (app f es).run .inTurn call ρ m = ((f.run .inTurn call ρ m).bind fun g =>
        (runAll .inTurn call es ρ g.2).bind fun as => call g.1 as.1 as.2) ∧
      (app f es).run .atomsLast call ρ m = (f.run .atomsLast call ρ m).bind fun g =>
        (gather call es ρ g.2).bind fun as => call g.1 as.1 as.2 := by
  constructor
  · rw [run, hf, if_neg Bool.false_ne_true]
  · unfold gather
    rw [run, hf, if_neg Bool.false_ne_true]
    congr 1
    funext g
    rw [Outcome.bind_assoc]
    congr 1
    funext as
    cases fillAtoms ρ as.2 es as.1 <;> rfl

/-- a steady expression has the same results with operands in their turn as with atoms read last -/
def SteadyRun (call call' : CoreValue α → List (CoreValue α) → CoreMemory α → CoreOutcome α) (e : Core) : Prop :=
  ∀ ⦃S : MarkedMemory α⦄ ⦃ρ : Env⦄, S.Ok → S.Places ρ → e.steady (S.assignable ρ) = true →
    Outcome.Agrees S.After (e.run .inTurn call ρ S.memory) (e.run .atomsLast call' ρ S.memory)

/-- so has a call -/
def SteadyCall (call call' : CoreValue α → List (CoreValue α) → CoreMemory α → CoreOutcome α) : Prop :=
  ∀ ⦃S : MarkedMemory α⦄ ⦃f : CoreValue α⦄ ⦃args : List (CoreValue α)⦄, S.Ok → S.Holds f → (∀ v ∈ args, S.Holds v) →
    Outcome.Agrees S.After (call f args S.memory) (call' f args S.memory)

/-- values, held by the memory they were left with, that came after `S` -/
def MarkedMemory.AllAfter (S : MarkedMemory α) (r : List (CoreValue α) × CoreMemory α) : Prop :=
  ∃ S', S'.memory = r.2 ∧ MarkedMemory.Le S S' ∧ S'.Ok ∧ ∀ v ∈ r.1, S'.Holds v

/-- an atom has the same value after the operands behind it as before them -/
theorem readAtom_later {e : Core} {es : List Core} {S' : MarkedMemory α} {vs : List (CoreValue α)}
    (hreads : ∀ x ∈ earlyReads (e :: es), S.assignable ρ x = false) (hρ : S.Places ρ) (hle : MarkedMemory.Le S S')
    (hrun : runAll .inTurn call es ρ S.memory = .done (vs, S'.memory)) :
    e.readAtom ρ S'.memory = e.readAtom ρ S.memory := by
  cases e with
  | var x =>
    by_cases hstill : es.all isStill = true
    · rw [runAll_still hstill hrun]
    · have hx : x ∈ earlyReads (.var x :: es) := by
        rw [earlyReads, if_neg hstill]
        exact List.mem_cons_self
      exact hle.get hρ (hreads x hx)
  | _ => rfl

/-- an atom that has a value is held -/
theorem readAtom_holds {e : Core} (hok : S.Ok) {v : CoreValue α} (h : e.readAtom ρ S.memory = some v) : S.Holds v := by
  cases e with
  | var x => exact hok.get h
  | val w =>
    cases h
    exact trivial
  | quote w =>
    cases h
    exact trivial
  | _ => cases h

/-- a steady expression is evaluated, and what is next goes on from there, where the same variables may be assigned -/
theorem SteadyRun.bind {e : Core} (he : SteadyRun call call' e) (hok : S.Ok) (hρ : S.Places ρ)
    (hsteady : e.steady (S.assignable ρ) = true) {next next' : CoreValue α × CoreMemory α → CoreOutcome α}
    (hnext : ∀ (S' : MarkedMemory α) v, S'.Ok → S'.Places ρ → S'.assignable ρ = S.assignable ρ → S'.Holds v →
      Outcome.Agrees S'.After (next (v, S'.memory)) (next' (v, S'.memory))) :
    Outcome.Agrees S.After ((e.run .inTurn call ρ S.memory).bind next)
      ((e.run .atomsLast call' ρ S.memory).bind next') := by
  refine Outcome.Agrees.bind (he hok hρ hsteady) ?_
  rintro ⟨v, m⟩ - ⟨S', rfl, hle, hok', hv⟩
  exact (hnext S' v hok' (hρ.later hle) (hρ.assignable_later hle) hv).imp fun r hr => hr.later hle

/-- **Steady operands** have the same values in their turn as with atoms read last -/
theorem operands_steady {es : List Core} (hes : ∀ e ∈ es, SteadyRun call call' e) (hok : S.Ok) (hρ : S.Places ρ)
    (hreads : ∀ x ∈ earlyReads es, S.assignable ρ x = false) (hsteady : ∀ e ∈ es, e.steady (S.assignable ρ) = true) :
    Outcome.Agrees S.AllAfter (runAll .inTurn call es ρ S.memory) (gather call' es ρ S.memory) := by
  induction es generalizing S with
  | nil =>
    refine .refl fun r hr => ?_
    cases hr
    exact ⟨S, rfl, .refl S, hok, by simp⟩
  | cons e es ih =>
    obtain ⟨he, hes⟩ := List.forall_mem_cons.1 hes
    obtain ⟨hsteady₁, hsteady⟩ := List.forall_mem_cons.1 hsteady
    have hreads' : ∀ x ∈ earlyReads es, S.assignable ρ x = false := fun x hx => hreads x (earlyReads_subset e es x hx)
    cases hatomic : e.isAtomic with
    | true =>
      -- the atom is read after the operands behind it, and has the value it had before them
      have hall := ih hes hok hρ hreads' hsteady
      rw [gather_atom hatomic]
      refine (runAll_atom hatomic es S.memory).trans (hall.bind ?_)
      rintro ⟨vs, m₁⟩ hrun ⟨S₁, rfl, hle, hok₁, hvs⟩
      rw [readAtom_later hreads hρ hle hrun]
      refine .refl fun r hr => ?_
      obtain ⟨v, hv, hr⟩ := Outcome.bind_eq_done.1 hr
      cases hr
      have hholds := readAtom_holds hok (Outcome.ofOption_eq_done.1 hv)
      exact ⟨S₁, rfl, hle, hok₁, List.forall_mem_cons.2 ⟨hholds.later hle, hvs⟩⟩
    | false =>
      rw [gather_compound hatomic, runAll]
      refine (he hok hρ hsteady₁).bind ?_
      rintro ⟨v, m₁⟩ - ⟨S₁, rfl, hle, hok₁, hv⟩
      have heq := hρ.assignable_later hle
      have hall := ih hes hok₁ (hρ.later hle) (by rwa [heq]) (by rwa [heq])
      refine hall.bind ?_
      rintro ⟨vs, m₂⟩ - ⟨S₂, rfl, hle', hok₂, hvs⟩
      refine .refl fun r hr => ?_
      cases hr
      exact ⟨S₂, rfl, hle.trans hle', hok₂, List.forall_mem_cons.2 ⟨hv.later hle', hvs⟩⟩

theorem app_steady {f : Core} {es : List Core} (hcall : SteadyCall call call') (hf : SteadyRun call call' f)
    (hes : ∀ e ∈ es, SteadyRun call call' e) : SteadyRun call call' (.app f es) := by
  intro S ρ hok hρ hsteady
  obtain ⟨hreads, hsteadyf, hsteady⟩ := steady_app.1 hsteady
  cases hatomic : f.isAtomic with
  | true =>
    rw [(run_app_atom hatomic es _).1, (run_app_atom hatomic es _).2]
    refine (operands_steady hes hok hρ hreads hsteady).bind ?_
    rintro ⟨vs, m₁⟩ - ⟨S₁, rfl, hle, hok₁, hvs⟩
    have hread : Outcome.Agrees S₁.Holds (.ofOption (f.readAtom ρ S₁.memory)) (.ofOption (f.readAtom ρ S₁.memory)) :=
      .refl fun g hg => readAtom_holds hok₁ (Outcome.ofOption_eq_done.1 hg)
    exact hread.bind fun g _ hg => (hcall hok₁ hg hvs).imp fun r hr => hr.later hle
  | false =>
    rw [(run_app_compound hatomic es _).1, (run_app_compound hatomic es _).2]
    refine hf.bind hok hρ hsteadyf fun S₁ g hok₁ hρ₁ hsame hg => ?_
    rw [← hsame] at hreads hsteady
    refine (operands_steady hes hok₁ hρ₁ hreads hsteady).bind ?_
    rintro ⟨vs, m₂⟩ - ⟨S₂, rfl, hle, hok₂, hvs⟩
    exact (hcall hok₂ (hg.later hle) hvs).imp fun r hr => hr.later hle

theorem branch_steady {t c : Core} {a : Option Core} (ht : SteadyRun call call' t) (hc : SteadyRun call call' c)
    (ha : ∀ e ∈ a, SteadyRun call call' e) : SteadyRun call call' (.branch t c a) := by
  intro S ρ hok hρ hsteady
  obtain ⟨hsteadyt, hsteadyc, hsteadya⟩ := steady_branch.1 hsteady
  rw [run_branch, run_branch]
  refine ht.bind hok hρ hsteadyt fun S₁ v hok₁ hρ₁ hsame _ => ?_
  rw [← hsame] at hsteadyc hsteadya
  cases hfalse : v.isFalse with
  | true =>
    cases a with
    | none =>
      refine .refl fun r hr => ?_
      cases hr
      exact hok₁.after trivial
    | some a => exact ha a rfl hok₁ hρ₁ (hsteadya a rfl)
  | false => exact hc hok₁ hρ₁ hsteadyc

/-- **Steady expressions have the same results** with operands in their turn as with atoms read last, if calls do -/
theorem run_steady (hcall : SteadyCall call call') (e : Core) : SteadyRun call call' e := by
  induction e with
  | var name =>
    intro S ρ hok hρ _
    rw [run, run]
    refine .refl fun r hr => ?_
    obtain ⟨v, hv, rfl⟩ := Option.map_eq_some_iff.1 (Outcome.ofOption_eq_done.1 hr)
    exact hok.after (hok.get hv)
  | val v =>
    intro S ρ hok hρ _
    refine .refl fun r hr => ?_
    cases hr
    exact hok.after trivial
  | quote v =>
    intro S ρ hok hρ _
    refine .refl fun r hr => ?_
    cases hr
    exact hok.after trivial
  | letIn name value body ihv ihb =>
    intro S ρ hok hρ hsteady
    obtain ⟨hvalue, hbody⟩ := steady_letIn.1 hsteady
    rw [run, run]
    refine ihv.bind hok hρ hvalue fun S₁ v hok₁ hρ₁ hsame hv => ?_
    have hlen : [name].length = [v].length := rfl
    obtain ⟨hplaces, hassignable⟩ := hρ₁.bind hlen body.assignedNames
    rw [hsame] at hassignable
    have hok₂ := hok₁.bind (List.forall_mem_singleton.2 hv) [name] body.assignedNames
    exact (ihb hok₂ hplaces (by rwa [hassignable])).imp fun r hr =>
      hr.later (MarkedMemory.le_bind [name] body.assignedNames [v])
  | lambda params rest body _ =>
    intro S ρ hok hρ hsteady
    refine .refl fun r hr => ?_
    cases hr
    exact hok.after ⟨hρ, by simpa [steady] using hsteady⟩
  | app operator operands ihf ihas => exact app_steady hcall ihf ihas
  | branch test consequent alternative iht ihc iha => exact branch_steady iht ihc iha
  | assign name value ih =>
    intro S ρ hok hρ hsteady
    obtain ⟨hname, hvalue⟩ := steady_assign.1 hsteady
    rw [run, run]
    refine ih.bind hok hρ hvalue fun S₁ v hok₁ hρ₁ hsame hv => ?_
    rw [← hsame] at hname
    refine .refl fun r hr => ?_
    obtain ⟨m, hm, rfl⟩ := Option.map_eq_some_iff.1 (Outcome.ofOption_eq_done.1 hr)
    exact hok₁.put hρ₁ hname hv hm

theorem callAt_builtin_steady {builtins : Builtins α} {f : CoreValue α} (hf : ∀ c, f ≠ .closure c) (depth : Nat)
    (args : List (CoreValue α)) (hok : S.Ok) :
    Outcome.Agrees S.After (callAt builtins .inTurn depth f args S.memory)
      (callAt builtins .atomsLast depth f args S.memory) := by
  rw [callAt_builtin hf, callAt_builtin hf]
  refine .refl fun r hr => ?_
  obtain ⟨d, -, rfl⟩ := Option.map_eq_some_iff.1 (Outcome.ofOption_eq_done.1 hr)
  exact hok.after (.embed d)

theorem callAt_steady (builtins : Builtins α) (depth : Nat) :
    SteadyCall (callAt builtins .inTurn depth) (callAt builtins .atomsLast depth) := by
  induction depth with
  | zero =>
    intro S f args hok hf hargs
    cases f with
    | closure c => exact .refl fun r hr => by cases hr
    | _ => exact callAt_builtin_steady (by simp) 0 args hok
  | succ depth ih =>
    intro S f args hok hf hargs
    cases f with
    | closure c =>
      rw [callAt, callAt]
      have hvalues : Outcome.Agrees (fun vs => RunValue.arguments? c.params.length c.rest.isSome args = some vs)
          (.ofOption (RunValue.arguments? c.params.length c.rest.isSome args))
          (.ofOption (RunValue.arguments? c.params.length c.rest.isSome args)) :=
        .refl fun vs hvs => Outcome.ofOption_eq_done.1 hvs
      refine hvalues.bind fun vs _ hvs => ?_
      have hlen : (binders c.params c.rest).length = vs.length := by
        rw [RunValue.length_arguments? hvs]
        cases c.rest <;> simp [binders]
      obtain ⟨hplaces, hassignable⟩ := hf.1.bind hlen c.body.assignedNames
      have hrun := run_steady ih c.body
        (hok.bind (RunValue.Forall.arguments? hargs hvs) (binders c.params c.rest) c.body.assignedNames) hplaces
        (by rw [hassignable]; exact hf.2)
      exact hrun.imp fun r hr => hr.later (MarkedMemory.le_bind _ _ _)
    | _ => exact callAt_builtin_steady (by simp) (depth + 1) args hok

/-- **The order of operands cannot be seen** if no variable that is read early is assigned anywhere -/
theorem Core.Evaluates.inTurn_iff_atomsLast (builtins : Builtins α) {e : Core} (hok : S.Ok) (hρ : S.Places ρ)
    (he : e.steady (S.assignable ρ) = true) (v : CoreValue α) (m : CoreMemory α) :
    (Evaluates builtins .inTurn e ρ S.memory v m ↔ Evaluates builtins .atomsLast e ρ S.memory v m) ∧
      (Evaluates builtins .inTurn e ρ S.memory v m → S.After (v, m)) := by
  have hrun := fun depth => run_steady (callAt_steady builtins depth) e hok hρ he (v, m)
  refine ⟨⟨?_, ?_⟩, ?_⟩
  · rintro ⟨depth, h⟩
    exact ⟨depth, (hrun depth).1.1 h⟩
  · rintro ⟨depth, h⟩
    exact ⟨depth, (hrun depth).1.2 h⟩
  · rintro ⟨depth, h⟩
    exact (hrun depth).2 h

end Evaluation

/-! ## The A-normal form, with operands in their turn -/

/-- each has a result if the other has, and the results are related -/
def Outcome.Matches {β γ : Type} (P : β → γ → Prop) (o : Outcome β) (o' : Outcome γ) : Prop :=
  (∀ b, o = .done b → ∃ c, o' = .done c ∧ P b c) ∧ ∀ c, o' = .done c → ∃ b, o = .done b ∧ P b c

theorem Outcome.Agrees.matches {β γ : Type} {Q : β → Prop} {P : β → γ → Prop} {o o' : Outcome β} {o'' : Outcome γ}
    (h : Agrees Q o o') (h' : Rel P o' o'') : Matches (fun b c => Q b ∧ P b c) o o'' := by
  constructor
  · intro b hb
    obtain ⟨c, hc, hbc⟩ := h'.of_done ((h b).1.1 hb)
    exact ⟨c, hc, (h b).2 hb, hbc⟩
  · intro c hc
    obtain ⟨b, hb, hbc⟩ := h'.of_done_right hc
    have hb := (h b).1.2 hb
    exact ⟨b, hb, (h b).2 hb, hbc⟩

/-- two results that correspond: values, variables, and what later calls do with operands in their turn on both sides;
`S` marks the memory on the left -/
structure CorrespondInTurn {α : Type} (builtins : Builtins α) (ρ : Env) (W : PlaceRel) (S : MarkedMemory α)
    (r r' : CoreValue α × CoreMemory α) : Prop where
  marks : S.memory = r.2 ∧ S.Ok ∧ S.Holds r.1
  value : ValueSim (Flattens False) W r.1 r'.1
  plainValue : ∀ d : Plain α, r.1 = .embed d ↔ r'.1 = .embed d
  contents : ∀ x, Option.Rel (ValueSim (Flattens False) W) (r.2.get ρ x) (r'.2.get ρ x)
  plainContents : ∀ x (d : Plain α), r.2.get ρ x = some (.embed d) ↔ r'.2.get ρ x = some (.embed d)
  calls : ∀ depth args args', List.Forall₂ (ValueSim (Flattens False) W) args args' → (∀ v ∈ args, S.Holds v) →
    Outcome.Matches (fun b c => S.After b ∧ ResultSim (Flattens False) ⟨W, r.2, r'.2⟩ b c)
      (Core.callAt builtins .inTurn depth r.1 args r.2) (Core.callAt builtins .inTurn depth r'.1 args' r'.2)

/-- results that correspond with atoms read last on the left correspond with operands in their turn, if they are
steady -/
theorem ResultsCorrespond.inTurn {α : Type} {builtins : Builtins α} {ρ : Env} {W : PlaceRel} {S : MarkedMemory α}
    {r r' : CoreValue α × CoreMemory α}
    (h : ResultsCorrespond builtins (Flattens False) .atomsLast .inTurn ρ W r r') (hmemory : S.memory = r.2)
    (hok : S.Ok) (hholds : S.Holds r.1) : CorrespondInTurn builtins ρ W S r r' := by
  refine ⟨⟨hmemory, hok, hholds⟩, h.value, h.plainValue, h.contents, h.plainContents,
    fun depth args args' hargs hheld => ?_⟩
  have hcall := callAt_steady builtins depth hok hholds hheld
  rw [hmemory] at hcall
  exact hcall.matches (h.calls depth args args' hargs)

namespace Core

/-- **The A-normal form reads variable operands when the call is made.** Let the closures in the memory have
applications of atoms only. Then the A-normal form, with operands in their turn, means what the expression means with
atoms read last. If variables can be marked so that the expression and the closures assign none but marked ones, and
the expression reads no marked one early, then it means what the expression means with operands in their turn. -/
theorem normalForm_evaluates_inTurn {α : Type} (builtins : Builtins α) (e : Core) (s : Supply) (ρ : Env)
    (m : CoreMemory α) (h : WellPlaced ρ m) (hm : m.Forall fun c => c.body.Every AtomicCall) :
    (∀ v m₁, Evaluates builtins .atomsLast e ρ m v m₁ →
      ∃ v' m₂ W, Evaluates builtins .inTurn (e.normalForm s).1 ρ m v' m₂ ∧
        ResultsCorrespond builtins (Flattens False) .atomsLast .inTurn ρ W (v, m₁) (v', m₂)) ∧
    (∀ v' m₂, Evaluates builtins .inTurn (e.normalForm s).1 ρ m v' m₂ →
      ∃ v m₁ W, Evaluates builtins .atomsLast e ρ m v m₁ ∧
        ResultsCorrespond builtins (Flattens False) .atomsLast .inTurn ρ W (v, m₁) (v', m₂)) ∧
    ∀ S : MarkedMemory α, S.memory = m → S.Ok → e.steady (S.assignable ρ) = true →
      (∀ v m₁, Evaluates builtins .inTurn e ρ m v m₁ →
        ∃ v' m₂ W S', Evaluates builtins .inTurn (e.normalForm s).1 ρ m v' m₂ ∧
          S.Le S' ∧ CorrespondInTurn builtins ρ W S' (v, m₁) (v', m₂)) ∧
      ∀ v' m₂, Evaluates builtins .inTurn (e.normalForm s).1 ρ m v' m₂ →
        ∃ v m₁ W S', Evaluates builtins .inTurn e ρ m v m₁ ∧
          S.Le S' ∧ CorrespondInTurn builtins ρ W S' (v, m₁) (v', m₂) := by
  have hok : (MemoryPair.diagonal m).Ok (Flattens False) := diagonal_flattens h (hm.imp fun _ hc => Or.inr hc)
  refine ⟨fun v m₁ he => ?_, fun v' m₂ he => ?_, ?_⟩
  · exact he.flattens False.elim (normalForm_flattens e s) h.env hok
  · exact he.unflattens False.elim (normalForm_flattens e s) h.env hok
  · rintro S rfl hmarked hsteady
    have horder := Evaluates.inTurn_iff_atomsLast builtins hmarked h.env hsteady
    refine ⟨fun v m₁ he => ?_, fun v' m₂ he => ?_⟩
    · obtain ⟨S', hmemory, hle, hok', hholds⟩ := (horder v m₁).2 he
      obtain ⟨v', m₂, W, he', hr⟩ := ((horder v m₁).1.1 he).flattens False.elim (normalForm_flattens e s) h.env hok
      exact ⟨v', m₂, W, S', he', hle, hr.inTurn hmemory hok' hholds⟩
    · obtain ⟨v, m₁, W, he', hr⟩ := he.unflattens False.elim (normalForm_flattens e s) h.env hok
      have he := (horder v m₁).1.2 he'
      obtain ⟨S', hmemory, hle, hok', hholds⟩ := (horder v m₁).2 he
      exact ⟨v, m₁, W, S', he, hle, hr.inTurn hmemory hok' hholds⟩

/-- an outer variable `x` is assigned, also by a call, and an inner one of that name is read before the call -/
theorem unassigned_operand_evaluates :
    let ρ : Env := [("x", 0), ("y", 1)]
    let set : Closure := ⟨[], none, .assign "x" (.val (.integer 2)), ρ⟩
    let m : CoreMemory Unit := ⟨[.atom (.integer 0), .closure set],
      fun z => if z = "list" then some (.foreign ()) else none⟩
    let e := app (.lambda ["x"] none (.app (.var "list") [.var "x", .app (.var "y") []]))
      [.assign "x" (.val (.integer 1))]
    WellPlaced ρ m ∧ (m.Forall fun c => c.body.Every AtomicCall) ∧
      (∃ S : MarkedMemory Unit, S.memory = m ∧ S.Ok ∧ e.steady (S.assignable ρ) = true) ∧
      ∃ m', Evaluates (fun _ args => some (.ofList args)) .inTurn (e.normalForm (.ofTable .empty)).1 ρ m
        (.embed (.ofList [.atom (.integer 1), .atom (.integer 2)])) m' := by
  intro ρ set m e
  have hplaces : PlacesBelow 2 ρ := placesBelow_of_forall_mem (by decide)
  have hforall : ∀ {K : Closure → Prop}, K set → m.Forall K := by
    intro K hset
    refine ⟨by simp [m, RunValue.Forall, hset], fun z v hv => ?_⟩
    simp only [m] at hv
    split_ifs at hv
    cases hv
    exact trivial
  have hplaced : WellPlaced ρ m := ⟨hplaces, hforall hplaces⟩
  have hatomic : m.Forall fun c => c.body.Every AtomicCall :=
    hforall (by simp [set, Every, nodes, nodesOf, children, AtomicCall])
  let S : MarkedMemory Unit := ⟨m, (· == 0), fun _ => false⟩
  have hok : S.Ok := hforall ⟨hplaces, by decide⟩
  have hsteady : e.steady (S.assignable ρ) = true := by decide
  obtain ⟨v', m', W, S', heval, -, hr⟩ := ((normalForm_evaluates_inTurn (fun _ args => some (.ofList args)) e
    (.ofTable .empty) ρ m hplaced hatomic).2.2 S rfl hok hsteady).1 _ _ ⟨2, rfl⟩
  cases (hr.plainValue (.ofList [.atom (.integer 1), .atom (.integer 2)])).1 rfl
  exact ⟨hplaced, hatomic, ⟨S, rfl, hok, hsteady⟩, m', heval⟩

/-- **A variable operand is not read in its turn.** The variable `x` is zero when it is passed, and assigned by the next
operand; with operands in their turn, the expression is zero, and its A-normal form is not -/
theorem assigned_operand_differs :
    let e := app (.lambda ["a", "b"] none (.var "a")) [.var "x", .assign "x" (.val (.integer 1))]
    let m : CoreMemory Empty := ⟨[], fun y => if y = "x" then some (.atom (.integer 0)) else none⟩
    (∃ m₁, Evaluates (fun _ _ => none) .inTurn e [] m (.atom (.integer 0)) m₁) ∧
      ∀ s, ¬ ∃ m₂, Evaluates (fun _ _ => none) .inTurn (e.normalForm s).1 [] m (.atom (.integer 0)) m₂ := by
  intro e m
  refine ⟨⟨_, 1, rfl⟩, ?_⟩
  rintro s ⟨m₂, h₂⟩
  have hvalue : ∀ y (v : CoreValue Empty), m.globals y = some v → ∀ K, v.Forall K := by
    intro y v hv K
    simp only [m] at hv
    split_ifs at hv
    cases hv
    exact trivial
  have hplaced : WellPlaced [] m := ⟨nofun, nofun, fun y v hv => hvalue y v hv _⟩
  have hatomic : m.Forall fun c => False ∨ c.body.Every AtomicCall := ⟨nofun, fun y v hv => hvalue y v hv _⟩
  -- with atoms read last, the expression is one
  have hlast : Evaluates (fun _ _ => none) .atomsLast e [] m (.atom (.integer 1)) _ := ⟨1, rfl⟩
  obtain ⟨v', m₁, W, h₁, hr⟩ :=
    hlast.flattens False.elim (normalForm_flattens e s) hplaced.env (diagonal_flattens hplaced hatomic)
  cases (hr.plainValue (.atom (.integer 1))).1 rfl
  cases (h₁.unique h₂).1

end Core

end SchemeStack
