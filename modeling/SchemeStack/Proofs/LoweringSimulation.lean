/-
A surface expression and a core expression, evaluated side by side.

Depths. A body of several expressions and a binding form lower to applications of procedures, so the core expression
makes calls inside each other that the surface expression does not make. `Outcome.Tracks` compares one outcome with a
family of outcomes, one for each depth:
- if the one ends, the family ends alike from some depth on;
- up to a limit, a member of the family that ends does so alike.
So one proof, along the structure of the expression, serves both directions and faults too.

Memories. The arguments of the procedures that run a body have places in the core's memory alone. `places` is the list
that gives, for each place of the surface memory, the place of the core's memory that belongs to it. The two memories
agree (`MemoryAgree`) if places that belong together, and global variables, have the same values up to closures, and
closures agree if the body of the one is the core form of the body of the other. Evaluation makes the list longer.
-/
import SchemeStack.Proofs.ExprEvaluation

namespace SchemeStack

/-! ## Outcomes at all depths -/

namespace Outcome

variable {β β' γ γ' : Type} {P P' : β → γ → Prop} {Q : β' → γ' → Prop} {limit : Nat} {o : Outcome β}
  {os : Nat → Outcome γ}

/-- the outcomes `os`, one for each depth, compared with `o` -/
structure Tracks (limit : Nat) (P : β → γ → Prop) (o : Outcome β) (os : Nat → Outcome γ) : Prop where
  reached : o = exhausted ∨ ∃ depth o', Rel P o o' ∧ ∀ d, depth ≤ d → os d = o'
  matched : ∀ d, d ≤ limit → os d = exhausted ∨ Rel P o (os d)

namespace Tracks

theorem of_rel {o' : Outcome γ} (h : Rel P o o') : Tracks limit P o fun _ => o' :=
  ⟨Or.inr ⟨0, o', h, fun _ _ => rfl⟩, fun _ _ => Or.inr h⟩

theorem imp (h : Tracks limit P o os) (hP : ∀ b c, P b c → P' b c) : Tracks limit P' o os := by
  constructor
  · rcases h.reached with ho | ⟨depth, o', hr, hd⟩
    · exact Or.inl ho
    · exact Or.inr ⟨depth, o', hr.imp hP, hd⟩
  · intro d hd
    rcases h.matched d hd with he | hr
    · exact Or.inl he
    · exact Or.inr (hr.imp hP)

theorem bind {next : β → Outcome β'} {next' : Nat → γ → Outcome γ'} (h : Tracks limit P o os)
    (hnext : ∀ b c, P b c → Tracks limit Q (next b) fun d => next' d c) :
    Tracks limit Q (o.bind next) fun d => (os d).bind (next' d) := by
  constructor
  · rcases h.reached with ho | ⟨depth, o', hr, hd⟩
    · exact Or.inl (by rw [ho, bind_exhausted])
    cases hr with
    | @done b c hbc =>
      rcases (hnext b c hbc).reached with hb | ⟨depth', o'', hr', hd'⟩
      · exact Or.inl hb
      -- both parts have ended from the greater depth on
      refine Or.inr ⟨max depth depth', o'', hr', fun d hle => ?_⟩
      rw [hd d (by omega), bind_done, hd' d (by omega)]
    | stuck => exact Or.inr ⟨depth, .stuck, .stuck, fun d hle => by rw [hd d hle, bind_stuck]⟩
    | exhausted => exact Or.inl rfl
  · intro d hle
    rcases h.matched d hle with he | hr
    · exact Or.inl (by rw [he, bind_exhausted])
    generalize os d = o' at hr
    cases hr with
    | @done b c hbc => exact (hnext b c hbc).matched d hle
    | stuck => exact Or.inr .stuck
    | exhausted => exact Or.inl rfl

/-- a call that the family makes first, and `o` does not -/
theorem later {os' : Nat → Outcome γ} (h : Tracks limit P o os) (hzero : os' 0 = exhausted)
    (hsucc : ∀ d, os' (d + 1) = os d) : Tracks (limit + 1) P o os' := by
  constructor
  · rcases h.reached with ho | ⟨depth, o', hr, hd⟩
    · exact Or.inl ho
    refine Or.inr ⟨depth + 1, o', hr, fun d hle => ?_⟩
    cases d with
    | zero => omega
    | succ d => rw [hsucc, hd d (by omega)]
  · intro d hle
    cases d with
    | zero => exact Or.inl hzero
    | succ d =>
      rw [hsucc]
      exact h.matched d (by omega)

theorem lower_limit {limit' : Nat} (h : Tracks limit P o os) (hle : limit' ≤ limit) : Tracks limit' P o os :=
  ⟨h.reached, fun d hd => h.matched d (Nat.le_trans hd hle)⟩

theorem exists_done {b : β} (h : Tracks limit P o os) (ho : o = done b) : ∃ depth c, os depth = done c ∧ P b c := by
  subst ho
  rcases h.reached with ho | ⟨depth, o', hr, hd⟩
  · cases ho
  · cases hr with
    | done hbc => exact ⟨depth, _, hd depth (Nat.le_refl _), hbc⟩

theorem exists_done_right {c : γ} {d : Nat} (h : Tracks limit P o os) (hd : d ≤ limit) (hc : os d = done c) :
    ∃ b, o = done b ∧ P b c := by
  rcases h.matched d hd with he | hr
  · cases he.symm.trans hc
  · exact hr.of_done_right hc

theorem exists_stuck (h : Tracks limit P o os) (ho : o = stuck) : ∃ depth, os depth = stuck := by
  subst ho
  rcases h.reached with ho | ⟨depth, o', hr, hd⟩
  · cases ho
  · cases hr with
    | stuck => exact ⟨depth, hd depth (Nat.le_refl _)⟩

theorem stuck_of_right {d : Nat} (h : Tracks limit P o os) (hd : d ≤ limit) (hs : os d = stuck) : o = stuck := by
  rcases h.matched d hd with he | hr
  · cases he.symm.trans hs
  · rw [hs] at hr
    cases hr with
    | stuck => rfl

end Tracks

end Outcome

/-! ## Memories that agree -/

/-- each variable has places that belong together, or is global on both sides -/
def EnvAgree (places : List Nat) (ρ ρ' : Env) : Prop :=
  ∀ x, Option.Rel (fun p q => places[p]? = some q) (ρ.lookup x) (ρ'.lookup x)

/-- the body of the one closure is the core form of the body of the other -/
structure ClosureAgree (places : List Nat) (c : Expr.Closure) (c' : Core.Closure) : Prop where
  params : c'.params = c.params
  rest : c'.rest = c.rest
  formed : (Expr.sequence c.body).WellFormed
  body : (Expr.sequence c.body).lower = .ok c'.body
  env : EnvAgree places c.env c'.env

/-- the same values up to closures that agree -/
abbrev ValueAgree {α : Type} (places : List Nat) : ExprValue α → CoreValue α → Prop :=
  RunValue.Rel (ClosureAgree places)

/-- places that belong together and global variables have values that agree -/
structure MemoryAgree {α : Type} (places : List Nat) (m : ExprMemory α) (m' : CoreMemory α) : Prop where
  size : places.length = m.heap.length
  distinct : places.Nodup
  values : ∀ p q : Nat, places[p]? = some q →
    ∃ v v', m.heap[p]? = some v ∧ m'.heap[q]? = some v' ∧ ValueAgree places v v'
  globals : ∀ x, Option.Rel (ValueAgree places) (m.globals x) (m'.globals x)

variable {α : Type} {places places' : List Nat} {ρ ρ' : Env} {m : ExprMemory α} {m' : CoreMemory α} {v : ExprValue α}
  {v' : CoreValue α}

theorem getElem?_of_isPrefix (h : places <+: places') {p q : Nat} (hpq : places[p]? = some q) :
    places'[p]? = some q := by
  obtain ⟨more, rfl⟩ := h
  have hp := (List.getElem?_eq_some_iff.1 hpq).1
  rw [List.getElem?_append_left hp, hpq]

theorem EnvAgree.mono (h : EnvAgree places ρ ρ') (hle : places <+: places') : EnvAgree places' ρ ρ' := by
  intro x
  exact optionRel_mono (fun p q hpq => getElem?_of_isPrefix hle hpq) (h x)

theorem ClosureAgree.mono {c : Expr.Closure} {c' : Core.Closure} (h : ClosureAgree places c c')
    (hle : places <+: places') :
    ClosureAgree places' c c' :=
  ⟨h.params, h.rest, h.formed, h.body, h.env.mono hle⟩

theorem ValueAgree.mono (h : ValueAgree places v v') (hle : places <+: places') : ValueAgree places' v v' :=
  RunValue.Rel.mono (fun _ _ hc => ClosureAgree.mono hc hle) h

theorem ValueAgree.mono_all {vs : List (ExprValue α)} {vs' : List (CoreValue α)}
    (h : List.Forall₂ (ValueAgree places) vs vs')
    (hle : places <+: places') : List.Forall₂ (ValueAgree places') vs vs' :=
  h.imp fun _ _ hv => ValueAgree.mono hv hle

/-- new places for the same names, which belong together one by one -/
theorem EnvAgree.bindPlaces (h : EnvAgree places ρ ρ') (names : List String) {first first' : Nat}
    (hplaces : ∀ i < names.length, places[first + i]? = some (first' + i)) :
    EnvAgree places (Core.bindPlaces names first ρ) (Core.bindPlaces names first' ρ') := by
  intro x
  unfold Core.bindPlaces
  rw [List.lookup_append, List.lookup_append]
  rcases lookup_zipIdx names x with ⟨-, hnone⟩ | ⟨i, hi, hsome⟩
  · rw [hnone, hnone, Option.none_or, Option.none_or]
    exact h x
  · have hlt := (List.getElem?_eq_some_iff.1 hi).1
    rw [hsome, hsome, Option.some_or, Option.some_or]
    exact .some (hplaces i hlt)

namespace MemoryAgree

theorem target_lt (h : MemoryAgree places m m') {q : Nat} (hq : q ∈ places) : q < m'.heap.length := by
  obtain ⟨p, hp, rfl⟩ := List.getElem_of_mem hq
  obtain ⟨-, v', -, hv', -⟩ := h.values p _ (List.getElem?_eq_getElem hp)
  exact (List.getElem?_eq_some_iff.1 hv').1

/-- a new place on each side; they belong together -/
theorem alloc (h : MemoryAgree places m m') (hv : ValueAgree places v v') :
    MemoryAgree (places ++ [m'.heap.length]) (m.alloc v) (m'.alloc v') := by
  have hle : places <+: places ++ [m'.heap.length] := List.prefix_append _ _
  refine ⟨?_, ?_, ?_, fun x => optionRel_mono (fun _ _ hr => ValueAgree.mono hr hle) (h.globals x)⟩
  · simp [Memory.alloc, h.size]
  · have hnew : m'.heap.length ∉ places := fun hmem => absurd (h.target_lt hmem) (Nat.lt_irrefl _)
    refine List.nodup_append.2 ⟨h.distinct, by simp, fun q hq q' hq' => ?_⟩
    rw [List.mem_singleton.1 hq']
    exact ne_of_mem_of_not_mem hq hnew
  · intro p q hpq
    rcases Nat.lt_or_ge p places.length with hlt | hge
    · rw [List.getElem?_append_left hlt] at hpq
      obtain ⟨w, w', hw, hw', hr⟩ := h.values p q hpq
      have hp : (m.alloc v).heap[p]? = m.heap[p]? := List.getElem?_append_left (h.size ▸ hlt)
      have hq : (m'.alloc v').heap[q]? = m'.heap[q]? :=
        List.getElem?_append_left (h.target_lt (List.mem_of_getElem? hpq))
      exact ⟨w, w', hp.trans hw, hq.trans hw', ValueAgree.mono hr hle⟩
    · rw [List.getElem?_append_right hge] at hpq
      obtain ⟨hp, hq⟩ := List.getElem?_eq_some_iff.1 hpq
      have hp' : p = m.heap.length := by
        have hsize := h.size
        simp only [List.length_singleton] at hp
        omega
      rw [List.getElem_singleton] at hq
      subst hp' hq
      exact ⟨v, v', by simp [Memory.alloc], by simp [Memory.alloc], ValueAgree.mono hv hle⟩

/-- several new places on each side; they belong together one by one -/
theorem allocAll (h : MemoryAgree places m m') {vs : List (ExprValue α)} {vs' : List (CoreValue α)}
    (hvs : List.Forall₂ (ValueAgree places) vs vs') :
    ∃ places', places <+: places' ∧ MemoryAgree places' (m.allocAll vs) (m'.allocAll vs') ∧
      ∀ i < vs.length, places'[m.heap.length + i]? = some (m'.heap.length + i) := by
  induction vs generalizing places m m' vs' with
  | nil =>
    cases hvs
    have hnil : m.allocAll [] = m := by simp [Memory.allocAll]
    have hnil' : m'.allocAll [] = m' := by simp [Memory.allocAll]
    rw [hnil, hnil']
    exact ⟨places, List.prefix_rfl, h, by simp⟩
  | cons v vs ih =>
    cases hvs with
    | @cons _ v' _ vs' hv hvs =>
      have hle : places <+: places ++ [m'.heap.length] := List.prefix_append _ _
      obtain ⟨places', hle', hm, hnew⟩ := ih (h.alloc hv) (ValueAgree.mono_all hvs hle)
      have hcons : (m.alloc v).allocAll vs = m.allocAll (v :: vs) := by simp [Memory.alloc, Memory.allocAll]
      have hcons' : (m'.alloc v').allocAll vs' = m'.allocAll (v' :: vs') := by simp [Memory.alloc, Memory.allocAll]
      rw [hcons, hcons'] at hm
      refine ⟨places', hle.trans hle', hm, fun i hi => ?_⟩
      cases i with
      | zero => exact getElem?_of_isPrefix hle' (by simp [← h.size])
      | succ i =>
        have hi' := hnew i (by simpa using hi)
        simp only [Memory.alloc, List.length_append, List.length_singleton] at hi'
        rwa [Nat.add_right_comm, Nat.add_assoc, Nat.add_right_comm, Nat.add_assoc] at hi'

/-- new places of the core's memory alone -/
theorem allocTarget (h : MemoryAgree places m m') (vs' : List (CoreValue α)) :
    MemoryAgree places m (m'.allocAll vs') := by
  refine ⟨h.size, h.distinct, fun p q hpq => ?_, h.globals⟩
  obtain ⟨w, w', hw, hw', hr⟩ := h.values p q hpq
  have hq : (m'.allocAll vs').heap[q]? = m'.heap[q]? :=
    List.getElem?_append_left (h.target_lt (List.mem_of_getElem? hpq))
  exact ⟨w, w', hw, hq.trans hw', hr⟩

theorem get (h : MemoryAgree places m m') (henv : EnvAgree places ρ ρ') (x : String) :
    Option.Rel (ValueAgree places) (m.get ρ x) (m'.get ρ' x) := by
  unfold Memory.get
  rcases optionRel_iff.1 (henv x) with ⟨hp, hq⟩ | ⟨p, q, hp, hq, hpq⟩
  · rw [hp, hq]
    exact h.globals x
  · obtain ⟨v, v', hv, hv', hr⟩ := h.values p q hpq
    simp only [hp, hq, hv, hv']
    exact .some hr

/-- an assignment to places that belong together -/
theorem write (h : MemoryAgree places m m') {p q : Nat} (hpq : places[p]? = some q) (hv : ValueAgree places v v') :
    MemoryAgree places { m with heap := m.heap.set p v } { m' with heap := m'.heap.set q v' } := by
  obtain ⟨w, w', hw, hw', -⟩ := h.values p q hpq
  have hp := (List.getElem?_eq_some_iff.1 hw).1
  have hq := (List.getElem?_eq_some_iff.1 hw').1
  refine ⟨by simp [h.size], h.distinct, fun p₁ q₁ hpq₁ => ?_, h.globals⟩
  by_cases heq : p₁ = p
  · subst heq
    cases hpq.symm.trans hpq₁
    exact ⟨v, v', by simp [hp], by simp [hq], hv⟩
  · have hne : q ≠ q₁ := by
      rintro rfl
      exact heq ((List.getElem?_inj (h.size ▸ hp) h.distinct).1 (hpq.trans hpq₁.symm)).symm
    obtain ⟨w, w', hw, hw', hr⟩ := h.values p₁ q₁ hpq₁
    exact ⟨w, w', by rw [List.getElem?_set_ne (Ne.symm heq), hw], by rw [List.getElem?_set_ne hne, hw'], hr⟩

theorem put (h : MemoryAgree places m m') (henv : EnvAgree places ρ ρ') (x : String) (hv : ValueAgree places v v') :
    Option.Rel (MemoryAgree places) (m.put ρ x v) (m'.put ρ' x v') := by
  unfold Memory.put
  rcases optionRel_iff.1 (henv x) with ⟨hp, hq⟩ | ⟨p, q, hp, hq, hpq⟩
  · rw [hp, hq]
    refine .some ⟨h.size, h.distinct, h.values, fun y => ?_⟩
    simp only [Memory.setGlobal]
    split
    · exact .some hv
    · exact h.globals y
  · obtain ⟨w, w', hw, hw', -⟩ := h.values p q hpq
    simp only [hp, hq, Memory.write, (List.getElem?_eq_some_iff.1 hw).1, (List.getElem?_eq_some_iff.1 hw').1, if_true]
    exact .some (h.write hpq hv)

end MemoryAgree

/-! ## Evaluation -/

/-- results that agree, in memories that do, with more places than before -/
def ResultAgree {β γ : Type} (values : List Nat → β → γ → Prop) (places : List Nat) (r : β × ExprMemory α)
    (r' : γ × CoreMemory α) : Prop :=
  ∃ places', places <+: places' ∧ MemoryAgree places' r.2 r'.2 ∧ values places' r.1 r'.1

theorem ResultAgree.later {β γ : Type} {values : List Nat → β → γ → Prop} {r : β × ExprMemory α} {r' : γ × CoreMemory α}
    (h : ResultAgree values places' r r') (hle : places <+: places') : ResultAgree values places r r' := by
  obtain ⟨places₁, hle', hm, hv⟩ := h
  exact ⟨places₁, hle.trans hle', hm, hv⟩

/-- calls of the surface language, each compared with the call of a value that agrees -/
def CallsTracked (builtins : Builtins α) (limit : Nat)
    (call : ExprValue α → List (ExprValue α) → ExprMemory α → ExprOutcome α) : Prop :=
  ∀ ⦃places : List Nat⦄ ⦃m : ExprMemory α⦄ ⦃m' : CoreMemory α⦄ ⦃f : ExprValue α⦄ ⦃f' : CoreValue α⦄
    ⦃args : List (ExprValue α)⦄ ⦃args' : List (CoreValue α)⦄, MemoryAgree places m m' → ValueAgree places f f' →
    List.Forall₂ (ValueAgree places) args args' →
    Outcome.Tracks limit (ResultAgree ValueAgree places) (call f args m) fun d =>
      Core.callAt builtins .operandsFirst d f' args' m'

/-- the expression, compared with a core expression -/
def Follows (builtins : Builtins α) (limit : Nat)
    (call : ExprValue α → List (ExprValue α) → ExprMemory α → ExprOutcome α) (e : Expr) (c : Core) : Prop :=
  ∀ ⦃places : List Nat⦄ ⦃ρ ρ' : Env⦄ ⦃m : ExprMemory α⦄ ⦃m' : CoreMemory α⦄, MemoryAgree places m m' →
    EnvAgree places ρ ρ' →
    Outcome.Tracks limit (ResultAgree ValueAgree places) (e.run call ρ m) fun d =>
      c.evalAt builtins .operandsFirst d ρ' m'

end SchemeStack
