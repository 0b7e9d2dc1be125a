/-
Flattened forms mean the same.

An expression is evaluated with atoms read when a call is made (`CallOrder.atomsLast`), its flattened form in any
order if no application keeps parts that are not atomic, and in the same order otherwise. Both end alike
(`flattens_sim`): bindings in front of a call, a conditional or another binding evaluate the parts in the order in
which the expression does, their names belong to no name of the expression, so nothing assigns them, and atoms are
still read after all of them.
-/
import SchemeStack.Proofs.CoreSimulation

namespace SchemeStack

namespace Outcome

variable {β γ δ : Type}

/-- a result with a part of what it was computed from -/
theorem Rel.retain {σ τ : Type} {P : β → γ → Prop} {o : Outcome β} {s : Outcome σ} {f : σ → Outcome γ} (part : σ → τ)
    (h : Rel P o (s.bind f)) :
    Rel (fun b c => P b c.2 ∧ ∃ a, s = .done a ∧ c.1 = part a) o
      (s.bind fun a => (f a).bind fun c => .done (part a, c)) := by
  cases s with
  | done a =>
    rw [bind_done] at h ⊢
    cases hf : f a with
    | done c =>
      rw [hf] at h
      cases h with
      | done h => exact .done ⟨h, a, rfl, rfl⟩
    | stuck => rw [hf] at h; cases h; exact .stuck
    | exhausted => rw [hf] at h; cases h; exact .exhausted
  | stuck => cases h; exact .stuck
  | exhausted => cases h; exact .exhausted

/-- a result on the left changed -/
theorem Rel.map_left {P : β → δ → Prop} {Q : γ → δ → Prop} {o : Outcome β} {o' : Outcome δ} {f : β → γ} (h : Rel P o o')
    (hQ : ∀ b d, P b d → Q (f b) d) : Rel Q (o.bind fun b => .done (f b)) o' := by
  cases h with
  | done h => exact .done (hQ _ _ h)
  | stuck => exact .stuck
  | exhausted => exact .exhausted

end Outcome

namespace Core

variable {α : Type} {order : CallOrder} {call : CoreValue α → List (CoreValue α) → CoreMemory α → CoreOutcome α}

/-! ## Bindings in front of an expression -/

/-- evaluates bindings, each in the scope of those before -/
def runBindings (order : CallOrder) (call : CoreValue α → List (CoreValue α) → CoreMemory α → CoreOutcome α) :
    List (String × Core) → Env → CoreMemory α → Outcome (Env × CoreMemory α)
  | [], ρ, m => .done (ρ, m)
  | b :: B, ρ, m =>
    (b.2.run order call ρ m).bind fun r => runBindings order call B ((b.1, r.2.heap.length) :: ρ) (r.2.alloc r.1)

theorem run_bindAll (B : List (String × Core)) (k : Core) (ρ : Env) (m : CoreMemory α) :
    (bindAll B k).run order call ρ m = (runBindings order call B ρ m).bind fun s => k.run order call s.1 s.2 := by
  induction B generalizing ρ m with
  | nil => rfl
  | cons b B ih =>
    rw [show bindAll (b :: B) k = letIn b.1 b.2 (bindAll B k) from rfl, run, runBindings, Outcome.bind_assoc]
    simp only [ih]

theorem runBindings_append (A B : List (String × Core)) (ρ : Env) (m : CoreMemory α) :
    runBindings order call (A ++ B) ρ m = (runBindings order call A ρ m).bind fun s =>
      runBindings order call B s.1 s.2 := by
  induction A generalizing ρ m with
  | nil => rfl
  | cons b A ih =>
    rw [List.cons_append, runBindings, runBindings, Outcome.bind_assoc]
    simp only [ih]

theorem runBindings_hides {B : List (String × Core)} {ρ ρ₁ : Env} {m m₁ : CoreMemory α}
    (h : runBindings order call B ρ m = .done (ρ₁, m₁)) : Hides (boundBy B) ρ ρ₁ := by
  induction B generalizing ρ m with
  | nil =>
    cases h
    exact fun x _ => rfl
  | cons b B ih =>
    obtain ⟨r, -, h⟩ := Outcome.bind_eq_done.1 h
    intro x hx
    obtain ⟨hxb, hx⟩ := not_or.1 (mt List.mem_cons.2 hx)
    have hbeq : (x == b.1) = false := by simpa using hxb
    rw [ih h x hx, List.lookup_cons, hbeq]

/-- evaluates bindings and an expression behind them, with the environment that the bindings make -/
def runBehind (order : CallOrder) (call : CoreValue α → List (CoreValue α) → CoreMemory α → CoreOutcome α)
    (L : List (String × Core)) (t : Core) (ρ : Env) (m : CoreMemory α) : Outcome (Env × CoreValue α × CoreMemory α) :=
  (runBindings order call L ρ m).bind fun s => (t.run order call s.1 s.2).bind fun r => .done (s.1, r)

theorem runBindings_behind (L B : List (String × Core)) (g : String) (t : Core) (ρ : Env) (m : CoreMemory α) :
    runBindings order call (L ++ (g, t) :: B) ρ m = (runBehind order call L t ρ m).bind fun s =>
      runBindings order call B ((g, s.2.2.heap.length) :: s.1) (s.2.2.alloc s.2.1) := by
  rw [runBindings_append, runBehind, Outcome.bind_assoc]
  simp only [runBindings, Outcome.bind_assoc, Outcome.bind_done]

theorem run_bindAll_letIn (L : List (String × Core)) (y : String) (t k : Core) (ρ : Env) (m : CoreMemory α) :
    (bindAll L (letIn y t k)).run order call ρ m = (runBehind order call L t ρ m).bind fun s =>
      k.run order call ((y, s.2.2.heap.length) :: s.1) (s.2.2.alloc s.2.1) := by
  rw [run_bindAll, runBehind, Outcome.bind_assoc]
  simp only [run, Outcome.bind_assoc, Outcome.bind_done]

/-! ## Applications -/

/-- calls the first of some values with the others -/
def callFirst (call : CoreValue α → List (CoreValue α) → CoreMemory α → CoreOutcome α) (m : CoreMemory α) :
    List (CoreValue α) → CoreOutcome α
  | [] => .stuck
  | f :: args => call f args m

theorem fillAtoms_atom {e : Core} (h : e.isAtomic = true) (es : List Core) (vs : List (CoreValue α)) (ρ : Env)
    (m : CoreMemory α) :
    fillAtoms ρ m (e :: es) vs = (e.readAtom ρ m).bind fun v => (fillAtoms ρ m es vs).map (v :: ·) := by
  rw [fillAtoms.eq_def]
  exact if_pos h

theorem fillAtoms_compound {e : Core} (h : e.isAtomic = false) (es : List Core) (v : CoreValue α)
    (vs : List (CoreValue α))
    (ρ : Env) (m : CoreMemory α) : fillAtoms ρ m (e :: es) (v :: vs) = (fillAtoms ρ m es vs).map (v :: ·) := by
  rw [fillAtoms.eq_def]
  exact if_neg (by simp [h])

/-- atoms last: the operator is one of the parts -/
theorem run_app_atomsLast (f : Core) (es : List Core) (ρ : Env) (m : CoreMemory α) :
    (app f es).run .atomsLast call ρ m = (runCompound .atomsLast call (f :: es) ρ m).bind fun r =>
      (Outcome.ofOption (fillAtoms ρ r.2 (f :: es) r.1)).bind (callFirst call r.2) := by
  rw [run]
  cases hf : f.isAtomic with
  | true =>
    rw [if_pos rfl]
    simp only [runCompound, fillAtoms_atom hf, hf, if_true]
    congr 1
    funext r
    cases f.readAtom ρ r.2 with
    | none => rfl
    | some v => cases fillAtoms ρ r.2 es r.1 <;> rfl
  | false =>
    simp only [runCompound, fillAtoms_compound hf, hf, Bool.false_eq_true, if_false, Outcome.bind_assoc,
      Outcome.bind_done]
    congr 1
    funext r
    congr 1
    funext rs
    cases fillAtoms ρ rs.2 es rs.1 <;> rfl

theorem run_atom {a : Core} (h : a.isAtomic = true) (ρ : Env) (m : CoreMemory α) :
    a.run order call ρ m = .ofOption ((a.readAtom ρ m).map fun v => (v, m)) := by
  cases a with
  | var name => rw [run]; rfl
  | val v => rw [run]; rfl
  | quote v => rw [run]; rfl
  | _ => cases h

theorem runCompound_atoms {as : List Core} (h : ∀ a ∈ as, a.isAtomic = true) (ρ : Env) (m : CoreMemory α) :
    runCompound order call as ρ m = .done ([], m) := by
  induction as with
  | nil => rfl
  | cons a as ih =>
    rw [runCompound, if_pos (h a List.mem_cons_self)]
    exact ih fun a' ha' => h a' (List.mem_cons_of_mem a ha')

theorem runAll_atoms {as : List Core} (h : ∀ a ∈ as, a.isAtomic = true) (ρ : Env) (m : CoreMemory α) :
    runAll order call as ρ m = .ofOption ((fillAtoms ρ m as []).map fun vs => (vs, m)) := by
  induction as with
  | nil => rfl
  | cons a as ih =>
    have ha := h a List.mem_cons_self
    rw [runAll, run_atom ha, fillAtoms_atom ha]
    cases a.readAtom ρ m with
    | none => rfl
    | some v =>
      simp only [Option.map_some, Outcome.ofOption, Outcome.bind_done, Option.bind_some,
        ih fun a' ha' => h a' (List.mem_cons_of_mem a ha')]
      cases fillAtoms ρ m as [] <;> rfl

/-- the order does not matter if all parts are atoms -/
theorem run_app_atoms {a : Core} {as : List Core} (h : ∀ e ∈ a :: as, e.isAtomic = true) (ρ : Env) (m : CoreMemory α) :
    (app a as).run order call ρ m = (Outcome.ofOption (fillAtoms ρ m (a :: as) [])).bind (callFirst call m) := by
  have ha := h a List.mem_cons_self
  have has : ∀ e ∈ as, e.isAtomic = true := fun e he => h e (List.mem_cons_of_mem a he)
  have hlast : ((runAll order call as ρ m).bind fun vs => (a.run order call ρ vs.2).bind fun f => call f.1 vs.1 f.2) =
      (Outcome.ofOption (fillAtoms ρ m (a :: as) [])).bind (callFirst call m) := by
    rw [runAll_atoms has, fillAtoms_atom ha]
    cases fillAtoms ρ m as [] with
    | none => cases a.readAtom ρ m <;> rfl
    | some vs =>
      simp only [Option.map_some, Outcome.ofOption, Outcome.bind_done, run_atom ha]
      cases a.readAtom ρ m <;> rfl
  cases order with
  | operandsFirst => exact hlast
  | inTurn =>
    rw [run, if_pos ha]
    exact hlast
  | atomsLast => rw [run_app_atomsLast, runCompound_atoms h, Outcome.bind_done]

/-! ## Conditionals -/

/-- goes on with one arm of a conditional -/
def runArm (order : CallOrder) (call : CoreValue α → List (CoreValue α) → CoreMemory α → CoreOutcome α) (c : Core)
    (a : Option Core) (isFalse : Bool) (ρ : Env) (m : CoreMemory α) : CoreOutcome α :=
  if isFalse then
    match a with
    | none => .done (.atom (.boolean false), m)
    | some a => a.run order call ρ m
  else c.run order call ρ m

theorem run_branch (t c : Core) (a : Option Core) (ρ : Env) (m : CoreMemory α) :
    (branch t c a).run order call ρ m =
      (t.run order call ρ m).bind fun r => runArm order call c a r.1.isFalse ρ r.2 := by
  cases a <;> rw [run] <;> rfl

end Core

/-! ## Simulation -/

section Simulation

open SchemeStack.Core

variable {α : Type} {bodies : NameRel → Core → Core → Prop} {keep : Prop} {order order' : CallOrder}
  {call call' : CoreValue α → List (CoreValue α) → CoreMemory α → CoreOutcome α} {P P' : MemoryPair α} {R R' : NameRel}
  {ρ ρ' ρ₁ : Env} {e t : Core}

/-- an expression, and its flattened form behind the bindings that were moved in front of something else -/
theorem behind_sim {L : List (String × Core)} (h : EvalSim bodies order order' call call' R e (bindAll L t))
    (hok : P.Ok bodies) (henv : EnvSim P.places R ρ ρ') :
    Outcome.Rel (fun r s => ResultSim bodies P r s.2 ∧ Hides (boundBy L) ρ' s.1) (e.run order call ρ P.source)
      (runBehind order' call' L t ρ' P.target) := by
  have h' := h hok henv
  rw [run_bindAll] at h'
  refine (h'.retain Prod.fst).imp ?_
  rintro r ⟨ρ₁, r'⟩ ⟨hr, ⟨ρ₂, m₂⟩, hs, rfl⟩
  exact ⟨hr, runBindings_hides hs⟩

/-- the flattened forms of the expression evaluate as it does -/
def FlattensSim (keep : Prop) (order' : CallOrder)
    (call call' : CoreValue α → List (CoreValue α) → CoreMemory α → CoreOutcome α) (e : Core) : Prop :=
  ∀ ⦃R : NameRel⦄ ⦃t : Core⦄, Flattens keep R e t → EvalSim (Flattens keep) .atomsLast order' call call' R e t

theorem letIn_sim {x : String} {v b : Core} (hv : FlattensSim keep order' call call' v)
    (hb : FlattensSim keep order' call call' b) : FlattensSim keep order' call call' (.letIn x v b) := by
  intro R t h P ρ ρ' hok henv
  cases h with
  | @letIn _ _ y _ t _ k L hvt hbk =>
    rw [run_bindAll_letIn, run]
    refine (behind_sim (hv hvt) hok henv).bind ?_
    rintro r ⟨ρ₁, r'⟩ ⟨⟨P₁, hs, ht, hle, hok₁, hr⟩, hhides⟩
    obtain ⟨r, m⟩ := r
    obtain ⟨r', m'⟩ := r'
    cases hs
    cases ht
    -- the name's places belong together
    have henv₁ := ((henv.mono hle.places).without hhides).mono (P₁.le_alloc r r').places
    have hsim := hb hbk (hok₁.alloc hr) (henv₁.bind (Or.inr ⟨rfl, rfl⟩) x y)
    exact hsim.imp fun _ _ h => h.later (hle.trans (P₁.le_alloc r r'))

/-! ### Parts of an application -/

/-- the parts of an application are at hand: atoms can be read, and what was bound to a name is kept in a place that
belongs to none -/
inductive Ready (keep : Prop) (P : MemoryPair α) (R : NameRel) (ρ' : Env) :
    List Core → List (CoreValue α) → List Core → Prop
  | nil : Ready keep P R ρ' [] [] []
  | atom {e a : Core} {es as : List Core} {vs : List (CoreValue α)} : e.isAtomic = true → Flattens keep R e a →
    Ready keep P R ρ' es vs as → Ready keep P R ρ' (e :: es) vs (a :: as)
  | named {e : Core} {es as : List Core} {v v' : CoreValue α} {vs : List (CoreValue α)} {g : String} {q : Nat} :
    e.isAtomic = false → ρ'.lookup g = some q → P.target.heap[q]? = some v' → ValueSim (Flattens keep) P.places v v' →
    Ready keep P R ρ' es vs as → Ready keep P R ρ' (e :: es) (v :: vs) (.var g :: as)

theorem Ready.imp {es as : List Core} {vs : List (CoreValue α)} (h : Ready keep P R ρ' es vs as)
    (hR : ∀ a b, R a b → R' a b) : Ready keep P R' ρ' es vs as := by
  induction h with
  | nil => exact .nil
  | atom hatomic hflat _ ih => exact .atom hatomic (hflat.restrict fun a b _ => hR a b) ih
  | named hatomic hg hv hr _ ih => exact .named hatomic hg hv hr ih

theorem readAtom_sim {a : Core} (hatomic : e.isAtomic = true) (h : Flattens keep R e a) (hok : P.Ok (Flattens keep))
    (henv : EnvSim P.places R ρ ρ') :
    a.isAtomic = true ∧
      Option.Rel (ValueSim (Flattens keep) P.places) (e.readAtom ρ P.source) (a.readAtom ρ' P.target) := by
  cases e with
  | var x =>
    cases h with
    | var hx => exact ⟨rfl, hok.get henv hx⟩
  | val v => cases h; exact ⟨rfl, .some (.atom v)⟩
  | quote v => cases h; exact ⟨rfl, .some (.atom v)⟩
  | _ => cases hatomic

/-- the values of the parts -/
theorem Ready.fill {es as : List Core} {vs : List (CoreValue α)} (h : Ready keep P R ρ' es vs as)
    (hok : P.Ok (Flattens keep)) (henv : EnvSim P.places R ρ ρ') :
    (∀ a ∈ as, a.isAtomic = true) ∧ Option.Rel (List.Forall₂ (ValueSim (Flattens keep) P.places))
      (fillAtoms ρ P.source es vs) (fillAtoms ρ' P.target as []) := by
  induction h with
  | nil => exact ⟨nofun, .some .nil⟩
  | @atom e a es as vs hatomic hflat _ ih =>
    obtain ⟨ha, hread⟩ := readAtom_sim hatomic hflat hok henv
    refine ⟨List.forall_mem_cons.2 ⟨ha, ih.1⟩, ?_⟩
    rw [fillAtoms_atom hatomic, fillAtoms_atom ha]
    exact optionRel_bind_cons hread ih.2
  | @named e es as v v' vs g q hatomic hg hv hr _ ih =>
    refine ⟨List.forall_mem_cons.2 ⟨rfl, ih.1⟩, ?_⟩
    have hget : (Core.var g).readAtom ρ' P.target = some v' := by simp only [readAtom, Memory.get, hg, hv]
    rw [fillAtoms_compound hatomic, fillAtoms_atom rfl, hget, Option.bind_some]
    exact optionRel_map_cons hr ih.2

/-- the parts that are not atomic are evaluated, in memories that come after `P` -/
def PartsSim (keep : Prop) (P : MemoryPair α) (R : NameRel) (ρ' : Env) (hidden : List String) (es as : List Core)
    (r : List (CoreValue α) × CoreMemory α) (s : Env × CoreMemory α) : Prop :=
  ∃ P' : MemoryPair α, P'.source = r.2 ∧ P'.target = s.2 ∧ P.Le P' ∧ P'.Ok (Flattens keep) ∧ Hides hidden ρ' s.1 ∧
    Ready keep P' (R.without hidden) s.1 es r.1 as

theorem parts_sim {es as : List Core} {B : List (String × Core)} (hes : ∀ e ∈ es, FlattensSim keep order' call call' e)
    (h : FlattensParts keep R es B as) (hok : P.Ok (Flattens keep)) (henv : EnvSim P.places R ρ ρ') :
    Outcome.Rel (PartsSim keep P R ρ' (boundBy B) es as) (runCompound .atomsLast call es ρ P.source)
      (runBindings order' call' B ρ' P.target) := by
  induction es generalizing P R ρ' B as with
  | nil =>
    cases h
    exact .done ⟨P, rfl, rfl, .refl P, hok, fun x _ => rfl, .nil⟩
  | cons e es ih =>
    have hes' : ∀ e' ∈ es, FlattensSim keep order' call call' e' := fun e' he' => hes e' (List.mem_cons_of_mem e he')
    cases h with
    | atom hatomic hflat h =>
      rw [runCompound, if_pos hatomic]
      refine (ih hes' h hok henv).imp ?_
      rintro r s ⟨P', hs, ht, hle, hok', hhides, hready⟩
      exact ⟨P', hs, ht, hle, hok', hhides, .atom hatomic hflat hready⟩
    | @named _ g _ t _ _ L B hatomic hflat hg h =>
      rw [runCompound, if_neg (by simp [hatomic]), runBindings_behind]
      refine (behind_sim (hes e List.mem_cons_self hflat) hok henv).bind ?_
      rintro ⟨v, m⟩ ⟨ρ₁, v', m'⟩ ⟨⟨P₁, hs, ht, hle₁, hok₁, hr⟩, hhides₁⟩
      cases hs
      cases ht
      -- the value is kept in a place of the target alone
      let P₂ := P₁.allocTarget v'
      let q := P₁.target.heap.length
      have hle₂ : P₁.Le P₂ := P₁.le_allocTarget v'
      have hok₂ : P₂.Ok (Flattens keep) := hok₁.allocTarget v'
      have hq : q < P₂.target.heap.length := by simp [P₂, q, MemoryPair.allocTarget, Memory.alloc]
      have hvq : P₂.target.heap[q]? = some v' := by simp [P₂, q, MemoryPair.allocTarget, Memory.alloc]
      have henv₂ : EnvSim P₂.places (R.without (g :: boundBy L)) ρ ((g, q) :: ρ₁) :=
        (henv.mono hle₁.places).without (hhides₁.cons g q)
      refine (ih hes' h hok₂ henv₂).map_left ?_
      rintro rs ⟨ρ₃, m₃⟩ ⟨P₃, hs, ht, hle₃, hok₃, hhides₃, hready⟩
      have hlookup : ρ₃.lookup g = some q := by
        rw [hhides₃ g hg]
        exact List.lookup_cons_self
      have hkept : P₃.target.heap[q]? = some v' := by
        rw [hle₃.kept q hq (hok₁.allocTarget_unpaired v'), hvq]
      have hr₃ : ValueSim (Flattens keep) P₃.places v v' := hr.mono fun p q hpq => hle₃.places p q (hle₂.places p q hpq)
      refine ⟨P₃, hs, ht, (hle₁.trans hle₂).trans hle₃, hok₃, ?_, .named hatomic hlookup hkept hr₃ (hready.imp ?_)⟩
      · intro x hx
        simp only [boundBy, List.map_append, List.map_cons, List.mem_append, List.mem_cons, not_or] at hx
        rw [hhides₃ x hx.2.2, hhides₁.cons g q x (by simp [hx.1, hx.2.1])]
      · rintro a b ⟨⟨hab, hb⟩, hbB⟩
        simp only [List.mem_cons, not_or] at hb
        exact ⟨hab, by simp [boundBy, hb.1, hb.2, hbB]⟩

/-! ### Parts that stay in place -/

theorem Flattens.isAtomic_eq (h : Flattens keep R e t) : t.isAtomic = e.isAtomic := by
  have hbind : ∀ (L : List (String × Core)) (k : Core), k.isAtomic = false → (bindAll L k).isAtomic = false := by
    intro L k hk
    cases L with
    | nil => exact hk
    | cons b L => rfl
  cases h with
  | letIn _ _ => exact hbind _ _ rfl
  | app _ => exact hbind _ _ rfl
  | branch _ _ => exact hbind _ _ rfl
  | _ => rfl

/-- several values that are alike, in memories that come after `P` -/
def ResultsSim (bodies : NameRel → Core → Core → Prop) (P : MemoryPair α) (r r' : List (CoreValue α) × CoreMemory α) :
    Prop :=
  ∃ P' : MemoryPair α, P'.source = r.2 ∧ P'.target = r'.2 ∧ P.Le P' ∧ P'.Ok bodies ∧
    List.Forall₂ (ValueSim bodies P'.places) r.1 r'.1

theorem compound_sim {es es' : List Core} (hes : ∀ e ∈ es, FlattensSim keep .atomsLast call call' e)
    (h : FlattensAll keep R es es') (hok : P.Ok (Flattens keep)) (henv : EnvSim P.places R ρ ρ') :
    Outcome.Rel (ResultsSim (Flattens keep) P) (runCompound .atomsLast call es ρ P.source)
      (runCompound .atomsLast call' es' ρ' P.target) := by
  induction es generalizing P es' with
  | nil =>
    cases h
    exact .done ⟨P, rfl, rfl, .refl P, hok, .nil⟩
  | cons e es ih =>
    have hes' : ∀ e' ∈ es, FlattensSim keep .atomsLast call call' e' :=
      fun e' he' => hes e' (List.mem_cons_of_mem e he')
    cases h with
    | cons he h =>
      rw [runCompound, runCompound, he.isAtomic_eq]
      split
      · exact ih hes' h hok henv
      · refine (hes e List.mem_cons_self he hok henv).bind ?_
        rintro ⟨v, m⟩ ⟨v', m'⟩ ⟨P₁, hs, ht, hle₁, hok₁, hr⟩
        cases hs
        cases ht
        refine (ih hes' h hok₁ (henv.mono hle₁.places)).bind ?_
        rintro rs rs' ⟨P₂, hs, ht, hle₂, hok₂, hrs⟩
        exact .done ⟨P₂, hs, ht, hle₁.trans hle₂, hok₂, .cons (hr.mono hle₂.places) hrs⟩

theorem fillAtoms_sim {es es' : List Core} {vs vs' : List (CoreValue α)} (h : FlattensAll keep R es es')
    (hvs : List.Forall₂ (ValueSim (Flattens keep) P.places) vs vs') (hok : P.Ok (Flattens keep))
    (henv : EnvSim P.places R ρ ρ') :
    Option.Rel (List.Forall₂ (ValueSim (Flattens keep) P.places)) (fillAtoms ρ P.source es vs)
      (fillAtoms ρ' P.target es' vs') := by
  induction es generalizing es' vs vs' with
  | nil =>
    cases h
    exact .some .nil
  | cons e es ih =>
    cases h with
    | @cons _ _ e' _ es' he h =>
      cases hatomic : e.isAtomic with
      | true =>
        obtain ⟨ha, hread⟩ := readAtom_sim hatomic he hok henv
        rw [fillAtoms_atom hatomic, fillAtoms_atom ha]
        exact optionRel_bind_cons hread (ih h hvs)
      | false =>
        have hatomic' : e'.isAtomic = false := he.isAtomic_eq.trans hatomic
        cases hvs with
        | nil => simp [fillAtoms, hatomic, hatomic']
        | cons hr hvs =>
          rw [fillAtoms_compound hatomic, fillAtoms_compound hatomic']
          exact optionRel_map_cons hr (ih h hvs)

theorem callFirst_sim (hcall : CallSim bodies call call') {vs vs' : List (CoreValue α)}
    (hvs : List.Forall₂ (ValueSim bodies P.places) vs vs') (hok : P.Ok bodies) :
    Outcome.Rel (ResultSim bodies P) (callFirst call P.source vs) (callFirst call' P.target vs') := by
  cases hvs with
  | nil => exact .stuck
  | cons hf hargs => exact hcall hok hf hargs

theorem app_sim {f : Core} {es : List Core} (hkeep : keep → order' = .atomsLast)
    (hcall : CallSim (Flattens keep) call call')
    (hall : ∀ e ∈ f :: es, FlattensSim keep order' call call' e) : FlattensSim keep order' call call' (.app f es) := by
  intro R t h P ρ ρ' hok henv
  rw [run_app_atomsLast]
  cases h with
  | appKept hk h =>
    cases hkeep hk
    rw [run_app_atomsLast]
    refine (compound_sim hall h hok henv).bind ?_
    rintro ⟨vs, m⟩ ⟨vs', m'⟩ ⟨P', hs, ht, hle, hok', hvs⟩
    cases hs
    cases ht
    refine (Outcome.Rel.ofOption (fillAtoms_sim h hvs hok' (henv.mono hle.places))).bind fun ws ws' hws => ?_
    exact (callFirst_sim hcall hws hok').imp fun _ _ hr => hr.later hle
  | app h =>
    rw [run_bindAll]
    refine (parts_sim hall h hok henv).bind ?_
    rintro ⟨vs, m⟩ ⟨ρ₁, m'⟩ ⟨P', hs, ht, hle, hok', hhides, hready⟩
    cases hs
    cases ht
    obtain ⟨hatoms, hfill⟩ := hready.fill hok' ((henv.mono hle.places).without hhides)
    rw [run_app_atoms hatoms]
    refine (Outcome.Rel.ofOption hfill).bind fun ws ws' hws => ?_
    exact (callFirst_sim hcall hws hok').imp fun _ _ hr => hr.later hle

/-! ### Conditionals and the whole -/

theorem arm_sim {c c' : Core} {a a' : Option Core} (h : FlattensArms keep R c a c' a')
    (hc : FlattensSim keep order' call call' c) (ha : ∀ e ∈ a, FlattensSim keep order' call call' e)
    (hok : P.Ok (Flattens keep)) (henv : EnvSim P.places R ρ ρ') (isFalse : Bool) :
    Outcome.Rel (ResultSim (Flattens keep) P) (runArm .atomsLast call c a isFalse ρ P.source)
      (runArm order' call' c' a' isFalse ρ' P.target) := by
  cases isFalse with
  | true =>
    cases h with
    | none _ => exact .done ⟨P, rfl, rfl, .refl P, hok, .atom _⟩
    | some _ h => exact ha _ rfl h hok henv
  | false =>
    cases h with
    | none h => exact hc h hok henv
    | some h _ => exact hc h hok henv

theorem branch_sim {c : Core} {a : Option Core} (ht : FlattensSim keep order' call call' t)
    (hc : FlattensSim keep order' call call' c) (ha : ∀ e ∈ a, FlattensSim keep order' call call' e) :
    FlattensSim keep order' call call' (.branch t c a) := by
  intro R u h P ρ ρ' hok henv
  rw [run_branch]
  cases h with
  | branchKept htest harms =>
    rw [run_branch]
    refine (ht htest hok henv).bind ?_
    rintro ⟨v, m⟩ ⟨v', m'⟩ ⟨P', hs, ht, hle, hok', hr⟩
    cases hs
    cases ht
    rw [RunValue.Rel.isFalse_eq hr]
    exact (arm_sim harms hc ha hok' (henv.mono hle.places) _).imp fun _ _ hr => hr.later hle
  | @branch _ g _ t' _ c' _ a' L htest harms =>
    rw [run_bindAll_letIn]
    refine (behind_sim (ht htest) hok henv).bind ?_
    rintro ⟨v, m⟩ ⟨ρ₁, v', m'⟩ ⟨⟨P', hs, ht, hle, hok', hr⟩, hhides⟩
    cases hs
    cases ht
    have hget : (P'.target.alloc v').get ((g, P'.target.heap.length) :: ρ₁) g = some v' := by
      simp [Memory.get, Memory.alloc]
    have hle' := hle.trans (P'.le_allocTarget v')
    rw [run_branch, run, hget]
    simp only [Option.map_some, Outcome.ofOption, Outcome.bind_done, RunValue.Rel.isFalse_eq hr]
    exact (arm_sim harms hc ha (hok'.allocTarget v') ((henv.mono hle'.places).without (hhides.cons g _)) _).imp
      fun _ _ hr => hr.later hle'

/-- **Flattened forms evaluate as the expressions do,** if calls do -/
theorem flattens_sim (hkeep : keep → order' = .atomsLast) (hcall : CallSim (Flattens keep) call call') (e : Core) :
    FlattensSim keep order' call call' e := by
  induction e with
  | var name =>
    intro R t h P ρ ρ' hok henv
    cases h with
    | var h =>
      rw [run, run]
      obtain ⟨hv, hv'⟩ | ⟨v, v', hv, hv', hr⟩ := optionRel_iff.1 (hok.get henv h)
      · rw [hv, hv']
        exact .stuck
      · rw [hv, hv']
        exact .done ⟨P, rfl, rfl, .refl P, hok, hr⟩
  | val v =>
    intro R t h P ρ ρ' hok henv
    cases h
    exact .done ⟨P, rfl, rfl, .refl P, hok, .atom v⟩
  | quote v =>
    intro R t h P ρ ρ' hok henv
    cases h
    exact .done ⟨P, rfl, rfl, .refl P, hok, .atom v⟩
  | letIn name value body ihv ihb => exact letIn_sim ihv ihb
  | lambda params rest body _ =>
    intro R t h P ρ ρ' hok henv
    cases h with
    | lambda h => exact .done ⟨P, rfl, rfl, .refl P, hok, .closure ⟨rfl, rfl, R, h, henv⟩⟩
  | app operator operands ihf ihas => exact app_sim hkeep hcall (List.forall_mem_cons.2 ⟨ihf, ihas⟩)
  | branch test consequent alternative iht ihc iha => exact branch_sim iht ihc iha
  | assign name value ih =>
    intro R t h P ρ ρ' hok henv
    cases h with
    | assign hx h =>
      rw [run, run]
      refine (ih h hok henv).bind ?_
      rintro ⟨v, m⟩ ⟨v', m'⟩ ⟨P', hs, ht, hle, hok', hr⟩
      cases hs
      cases ht
      refine .ofOption ?_
      obtain ⟨hm, hm'⟩ | ⟨m, m', hm, hm', hle', hok''⟩ := optionRel_iff.1 (hok'.put (henv.mono hle.places) hx hr)
      · rw [hm, hm']
        exact .none
      · rw [hm, hm']
        exact .some ⟨_, rfl, rfl, hle.trans hle', hok'', hr⟩

end Simulation

end SchemeStack
