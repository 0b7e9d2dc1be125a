/-
Lowering respects lexical scope.

`Expr.scopes` says which names each part of an expression has bound around it by that expression: the parameters of a
procedure in its body; the names of a binding form in its body only, and those of a recursive one in its values too;
the name of a loop in its initial values and its body, and the names of its bindings in its body only. `Expr.Free` is
what follows from it: a name is free if it is mentioned in some part, however deep, and bound nowhere on the way
there.

`Expr.lower_freeNames`: the free names of a core form are the free names of the expression that it is the core form
of. All names are alike, also those that lowering makes for the steps of a sequence. The procedure of these steps
binds them around its last parameter only, and the expressions of the sequence are its operands
(`Core.mem_freeNames_inSequence`). An assignment that lowering adds for a recursive binding mentions a name that is
bound there (`Core.mem_freeNames_bindFalse`).
-/
import SchemeStack.Proofs.CoreInduction
import SchemeStack.Proofs.LoweringInduction

namespace SchemeStack

/-! ## Scopes of surface expressions -/

namespace Expr

def mention : Expr → List String
  | var name => [name]
  | assign name _ => [name]
  | _ => []

/-- expressions that have names bound around them -/
def under (names : List String) (es : List Expr) : List (List String × Expr) := es.map fun e => (names, e)

/-- the parts of an expression, each with the names that the expression binds around it -/
def scopes : Expr → List (List String × Expr)
  | lambda params rest body => under (params ++ rest.toList) body
  | letIn bindings body => under [] (bindings.map (·.value)) ++ under (bindings.map (·.name)) body
  | letRec bindings body => under (bindings.map (·.name)) (bindings.map (·.value) ++ body)
  | namedLet name bindings body => under [name] (bindings.map (·.value)) ++ under (name :: bindings.map (·.name)) body
  | e => under [] e.parts

/-- the name is mentioned where nothing in the expression binds it -/
inductive Free (x : String) : Expr → Prop
  | mention {e : Expr} : x ∈ e.mention → Free x e
  | part {e p : Expr} {names : List String} : (names, p) ∈ e.scopes → x ∉ names → Free x p → Free x e

variable {x name : String} {e value : Expr} {bindings : List (Binding Expr)} {body es : List Expr}

theorem free_iff : e.Free x ↔ x ∈ e.mention ∨ ∃ s ∈ e.scopes, x ∉ s.1 ∧ s.2.Free x := by
  constructor
  · intro h
    cases h with
    | mention h => exact Or.inl h
    | part hp hx h => exact Or.inr ⟨_, hp, hx, h⟩
  · rintro (h | ⟨⟨names, p⟩, hp, hx, h⟩)
    · exact .mention h
    · exact .part hp hx h

theorem free_under {names : List String} :
    (∃ s ∈ under names es, x ∉ s.1 ∧ s.2.Free x) ↔ x ∉ names ∧ ∃ e ∈ es, e.Free x := by
  simp only [under, List.mem_map, exists_exists_and_eq_and]
  constructor
  · rintro ⟨e, he, hx, hfree⟩
    exact ⟨hx, e, he, hfree⟩
  · rintro ⟨hx, e, he, hfree⟩
    exact ⟨e, he, hx, hfree⟩

theorem free_under_append {names names' : List String} {es' : List Expr} :
    (∃ s ∈ under names es ++ under names' es', x ∉ s.1 ∧ s.2.Free x) ↔
      (x ∉ names ∧ ∃ e ∈ es, e.Free x) ∨ x ∉ names' ∧ ∃ e ∈ es', e.Free x := by
  simp only [List.mem_append, or_and_right, exists_or, free_under]

/-- an expression that binds nothing and mentions nothing itself -/
theorem free_of_parts (hscopes : e.scopes = under [] e.parts) (hmention : e.mention = []) :
    e.Free x ↔ ∃ p ∈ e.parts, p.Free x := by
  rw [free_iff, hscopes, hmention, free_under]
  simp

theorem free_var : (var name).Free x ↔ x = name := by
  rw [free_iff]
  change x ∈ [name] ∨ (∃ s ∈ under [] [], x ∉ s.1 ∧ s.2.Free x) ↔ _
  rw [free_under]
  simp

theorem free_assign : (assign name value).Free x ↔ x = name ∨ value.Free x := by
  rw [free_iff]
  change x ∈ [name] ∨ (∃ s ∈ under [] [value], x ∉ s.1 ∧ s.2.Free x) ↔ _
  rw [free_under]
  simp

theorem free_lambda {params : List String} {rest : Option String} :
    (lambda params rest body).Free x ↔ x ∉ params ++ rest.toList ∧ ∃ e ∈ body, e.Free x := by
  rw [free_iff]
  change x ∈ [] ∨ (∃ s ∈ under (params ++ rest.toList) body, x ∉ s.1 ∧ s.2.Free x) ↔ _
  rw [free_under, or_iff_right List.not_mem_nil]

theorem free_letIn : (letIn bindings body).Free x ↔
    (∃ e ∈ bindings.map (·.value), e.Free x) ∨ x ∉ bindings.map (·.name) ∧ ∃ e ∈ body, e.Free x := by
  rw [free_iff]
  change x ∈ [] ∨ (∃ s ∈ under [] _ ++ under _ _, x ∉ s.1 ∧ s.2.Free x) ↔ _
  rw [free_under_append, or_iff_right List.not_mem_nil, and_iff_right List.not_mem_nil]

theorem free_letRec : (letRec bindings body).Free x ↔
    x ∉ bindings.map (·.name) ∧ ∃ e ∈ bindings.map (·.value) ++ body, e.Free x := by
  rw [free_iff]
  change x ∈ [] ∨ (∃ s ∈ under _ _, x ∉ s.1 ∧ s.2.Free x) ↔ _
  rw [free_under, or_iff_right List.not_mem_nil]

theorem free_namedLet : (namedLet name bindings body).Free x ↔
    x ≠ name ∧ ((∃ e ∈ bindings.map (·.value), e.Free x) ∨ x ∉ bindings.map (·.name) ∧ ∃ e ∈ body, e.Free x) := by
  rw [free_iff]
  change x ∈ [] ∨ (∃ s ∈ under [name] _ ++ under (name :: _) _, x ∉ s.1 ∧ s.2.Free x) ↔ _
  rw [free_under_append, or_iff_right List.not_mem_nil, List.mem_singleton, List.mem_cons, not_or, and_assoc,
    ← and_or_left]

end Expr

/-! ## Free names of core forms -/

namespace Core

variable {x : String}

/-- the procedure that runs a sequence yields a parameter of its own -/
theorem not_mem_freeNames_lastStep (n : Nat) :
    x ∉ (lambda (stepNames (n + 1)) none (var ("$s" ++ toString n))).freeNames := by
  rw [mem_freeNames_lambda]
  rintro ⟨hx, hbound⟩
  obtain rfl := List.mem_singleton.1 hx
  have hlast : "$s" ++ toString n ∈ stepNames (n + 1) := List.mem_map.2 ⟨n, List.self_mem_range_succ, rfl⟩
  exact hbound (List.mem_append_left _ hlast)

/-- a sequence has the free names of its expressions: they are outside the scope of the names of its steps -/
theorem mem_freeNames_inSequence {es : List Core} {b : Core} (h : inSequence es = .ok b) :
    x ∈ b.freeNames ↔ ∃ e ∈ es, x ∈ e.freeNames := by
  cases es with
  | nil => cases h
  | cons e es =>
    cases es with
    | nil =>
      cases h
      simp
    | cons e' es =>
      cases h
      rw [mem_freeNames_app, List.exists_mem_cons_iff]
      exact or_iff_right (not_mem_freeNames_lastStep (es.length + 1))

theorem mem_freeNames_procedure {names : List String} {b : Core} :
    x ∈ (lambda names none b).freeNames ↔ x ∉ names ∧ x ∈ b.freeNames := by
  rw [mem_freeNames_lambda, and_comm, binders, Option.toList_none, List.append_nil]

theorem mem_freeNames_test {t c a : Core} :
    x ∈ (branch t c (some a)).freeNames ↔ x ∈ t.freeNames ∨ x ∈ c.freeNames ∨ x ∈ a.freeNames := by
  simp [mem_freeNames_branch]

theorem not_mem_freeNames_truth : x ∉ truth.freeNames := List.not_mem_nil

theorem not_mem_freeNames_falsity : x ∉ falsity.freeNames := List.not_mem_nil

theorem mem_freeNames_bindFalse {names : List String} {b : Core} :
    x ∈ (bindFalse names b).freeNames ↔ x ∉ names ∧ x ∈ b.freeNames := by
  induction names with
  | nil => simp [bindFalse]
  | cons name names ih =>
    have hcons : bindFalse (name :: names) b = letIn name falsity (bindFalse names b) := rfl
    rw [hcons, mem_freeNames_letIn, ih, or_iff_right not_mem_freeNames_falsity, List.mem_cons, not_or]
    exact ⟨fun h => ⟨⟨h.2, h.1.1⟩, h.1.2⟩, fun h => ⟨⟨h.1.2, h.2⟩, h.1.1⟩⟩

end Core

/-! ## Lowering -/

namespace Expr

variable {x : String} {e : Expr} {es : List Expr}

/-- a core form of the expression has its free names -/
def LowersFree (e : Expr) : Prop := ∀ c, e.lower = .ok c → ∀ x, x ∈ c.freeNames ↔ e.Free x

theorem lowerAll_free {cs : List Core} (h : lowerAll es = .ok cs) (hes : ∀ e ∈ es, e.LowersFree) :
    (∃ c ∈ cs, x ∈ c.freeNames) ↔ ∃ e ∈ es, e.Free x := by
  induction es generalizing cs with
  | nil =>
    cases h
    simp
  | cons e es ih =>
    obtain ⟨c, cs', hc, hcs, rfl⟩ := lowerAll_cons_eq_ok h
    obtain ⟨he, hes⟩ := List.forall_mem_cons.1 hes
    rw [List.exists_mem_cons_iff, List.exists_mem_cons_iff, he c hc x, ih hcs hes]

/-- a body has the free names of its expressions -/
theorem body_free {cs : List Core} {b : Core} (h : lowerAll es = .ok cs) (hb : Core.inSequence cs = .ok b)
    (hes : ∀ e ∈ es, e.LowersFree) : x ∈ b.freeNames ↔ ∃ e ∈ es, e.Free x := by
  rw [Core.mem_freeNames_inSequence hb, lowerAll_free h hes]

theorem lowerAll_cons_of_ok {c : Core} {cs : List Core} (hc : e.lower = .ok c) (hcs : lowerAll es = .ok cs) :
    lowerAll (e :: es) = .ok (c :: cs) := by
  rw [lowerAll, hc, hcs]
  rfl

theorem lowerConj_free {r : Core} (h : lowerConj es = .ok r) (hes : ∀ e ∈ es, e.LowersFree) :
    x ∈ r.freeNames ↔ ∃ e ∈ es, e.Free x := by
  induction es generalizing r with
  | nil =>
    cases h
    simp [Core.truth, Core.freeNames]
  | cons e es ih =>
    obtain ⟨rest, hrest, h⟩ := except_bind_eq_ok.1 h
    obtain ⟨t, ht, h⟩ := except_bind_eq_ok.1 h
    cases h
    obtain ⟨he, hes⟩ := List.forall_mem_cons.1 hes
    rw [Core.mem_freeNames_test, he t ht x, ih hrest hes, List.exists_mem_cons_iff,
      or_iff_left Core.not_mem_freeNames_falsity]

theorem lowerDisj_free {r : Core} (h : lowerDisj es = .ok r) (hes : ∀ e ∈ es, e.LowersFree) :
    x ∈ r.freeNames ↔ ∃ e ∈ es, e.Free x := by
  induction es generalizing r with
  | nil =>
    cases h
    simp [Core.falsity, Core.freeNames]
  | cons e es ih =>
    obtain ⟨rest, hrest, h⟩ := except_bind_eq_ok.1 h
    obtain ⟨t, ht, h⟩ := except_bind_eq_ok.1 h
    cases h
    obtain ⟨he, hes⟩ := List.forall_mem_cons.1 hes
    rw [Core.mem_freeNames_test, he t ht x, ih hrest hes, List.exists_mem_cons_iff,
      or_iff_right Core.not_mem_freeNames_truth]

/-- clauses have the free names of their tests and bodies, and of what is left if no test holds -/
theorem lowerClauses_free {otherwise r : Core} {clauses : List (Clause Expr)}
    (h : lowerClauses otherwise clauses = .ok r)
    (hes : ∀ e ∈ clauses.flatMap fun c => c.test :: c.body, e.LowersFree) :
    x ∈ r.freeNames ↔ (∃ e ∈ clauses.flatMap fun c => c.test :: c.body, e.Free x) ∨ x ∈ otherwise.freeNames := by
  induction clauses generalizing r with
  | nil =>
    cases h
    simp
  | cons clause clauses ih =>
    obtain ⟨rest, hrest, h⟩ := except_bind_eq_ok.1 h
    obtain ⟨t, ht, h⟩ := except_bind_eq_ok.1 h
    obtain ⟨cs, hcs, h⟩ := except_bind_eq_ok.1 h
    obtain ⟨b, hb, h⟩ := except_bind_eq_ok.1 h
    cases h
    rw [List.flatMap_cons, List.forall_mem_append, List.forall_mem_cons] at hes
    obtain ⟨⟨htest, hbody⟩, hes⟩ := hes
    rw [Core.mem_freeNames_test, htest t ht x, body_free hcs hb hbody, ih hrest hes, List.flatMap_cons,
      List.cons_append, List.exists_mem_cons_iff]
    simp only [List.mem_append, or_and_right, exists_or, or_assoc]

theorem not_mem_freeNames_constant (make : Value → Core) (hmake : ∀ v, (make v).freeNames = []) {d : Datum} {c : Core}
    (h : ((Value.ofDatum? d).map make).mapError LoweringError.value = .ok c) : x ∉ c.freeNames := by
  cases hv : Value.ofDatum? d with
  | error error =>
    rw [hv] at h
    cases h
  | ok v =>
    rw [hv] at h
    cases h
    rw [hmake]
    exact List.not_mem_nil

theorem lowersFree_assign {name : String} {value : Expr} (h : value.LowersFree) : (assign name value).LowersFree := by
  intro c hc x
  obtain ⟨v, hv, hc⟩ := except_bind_eq_ok.1 hc
  cases hc
  rw [Core.mem_freeNames_assign, free_assign, h v hv x]

/-! ## Lowering, forms that bind names -/

section Binders

variable {bindings : List (Binding Expr)} {body : List Expr}

theorem lowersFree_letIn (hvalues : ∀ e ∈ bindings.map (·.value), e.LowersFree) (hbody : ∀ e ∈ body, e.LowersFree) :
    (letIn bindings body).LowersFree := by
  intro c h x
  obtain ⟨vs, hvs, h⟩ := except_bind_eq_ok.1 h
  obtain ⟨cs, hcs, h⟩ := except_bind_eq_ok.1 h
  obtain ⟨b, hb, h⟩ := except_bind_eq_ok.1 h
  cases h
  rw [lowerValues_eq] at hvs
  rw [Core.mem_freeNames_app, List.exists_mem_cons_iff, Core.mem_freeNames_procedure, body_free hcs hb hbody,
    lowerAll_free hvs hvalues, free_letIn, or_comm]

/-- the assignments of a recursive binding mention its names, besides what its values mention -/
theorem exists_assignments_free :
    (∃ e ∈ assignments bindings, e.Free x) ↔ x ∈ bindings.map (·.name) ∨ ∃ e ∈ bindings.map (·.value), e.Free x := by
  simp only [assignments, List.mem_map, exists_exists_and_eq_and, free_assign, and_or_left, exists_or]
  exact or_congr_left (exists_congr fun b => and_congr_right fun _ => eq_comm)

theorem lowersFree_letRec (hvalues : ∀ e ∈ bindings.map (·.value), e.LowersFree) (hbody : ∀ e ∈ body, e.LowersFree) :
    (letRec bindings body).LowersFree := by
  intro c h x
  obtain ⟨ss, hss, h⟩ := except_bind_eq_ok.1 h
  obtain ⟨cs, hcs, h⟩ := except_bind_eq_ok.1 h
  obtain ⟨b, hb, h⟩ := except_bind_eq_ok.1 h
  cases h
  have hassigns : ∀ e ∈ assignments bindings, e.LowersFree := by
    intro e he
    obtain ⟨b, hb, rfl⟩ := List.mem_map.1 he
    exact lowersFree_assign (hvalues b.value (List.mem_map_of_mem hb))
  rw [lowerAssigns_eq] at hss
  rw [Core.mem_freeNames_bindFalse, Core.mem_freeNames_inSequence hb, free_letRec]
  -- a name that is not bound here is none of those that the assignments mention
  apply and_congr_right
  intro hx
  simp only [List.mem_append, or_and_right, exists_or, lowerAll_free hss hassigns, lowerAll_free hcs hbody,
    exists_assignments_free, or_iff_right hx]

theorem lowersFree_namedLet {name : String} (hvalues : ∀ e ∈ bindings.map (·.value), e.LowersFree)
    (hbody : ∀ e ∈ body, e.LowersFree) : (namedLet name bindings body).LowersFree := by
  intro c h x
  cases body with
  | nil => cases h
  | cons first others =>
    obtain ⟨b₁, hb₁, h⟩ := except_bind_eq_ok.1 h
    obtain ⟨bs, hbs, h⟩ := except_bind_eq_ok.1 h
    obtain ⟨b, hb, h⟩ := except_bind_eq_ok.1 h
    obtain ⟨vs, hvs, h⟩ := except_bind_eq_ok.1 h
    obtain ⟨l, hl, h⟩ := except_bind_eq_ok.1 h
    cases h
    rw [lowerValues_eq] at hvs
    rw [Core.mem_freeNames_bindFalse, Core.mem_freeNames_inSequence hl, free_namedLet, List.mem_singleton]
    apply and_congr_right
    intro hx
    have hloop : x ∈ (Core.assign name (.lambda (bindings.map (·.name)) none b)).freeNames ↔
        x ∉ bindings.map (·.name) ∧ ∃ e ∈ first :: others, e.Free x := by
      rw [Core.mem_freeNames_assign, or_iff_right hx, Core.mem_freeNames_procedure,
        body_free (lowerAll_cons_of_ok hb₁ hbs) hb hbody]
    have hcall : x ∈ (Core.app (.var name) vs).freeNames ↔ ∃ e ∈ bindings.map (·.value), e.Free x := by
      have hname : x ∉ (Core.var name).freeNames := fun hmem => hx (List.mem_singleton.1 hmem)
      rw [Core.mem_freeNames_app, List.exists_mem_cons_iff, or_iff_right hname, lowerAll_free hvs hvalues]
    simp only [List.mem_cons, List.not_mem_nil, or_false, exists_eq_or_imp, exists_eq_left, hloop, hcall]
    exact or_comm

end Binders

theorem lowersFree_cond {clauses : List (Clause Expr)} {otherwise : Option (List Expr)}
    (hclauses : ∀ e ∈ clauses.flatMap fun c => c.test :: c.body, e.LowersFree)
    (hotherwise : ∀ e ∈ otherwise.getD [], e.LowersFree) : (cond clauses otherwise).LowersFree := by
  intro c h x
  -- a final body that is missing or empty is false
  have hfalse : x ∈ Core.falsity.freeNames ↔ ∃ e ∈ ([] : List Expr), e.Free x := by
    simp [Core.not_mem_freeNames_falsity]
  rw [free_of_parts rfl rfl, parts]
  simp only [List.mem_append, or_and_right, exists_or]
  cases otherwise with
  | none =>
    rw [lowerClauses_free h hclauses]
    exact or_congr_right hfalse
  | some body =>
    cases body with
    | nil =>
      rw [lowerClauses_free h hclauses]
      exact or_congr_right hfalse
    | cons first others =>
      obtain ⟨b₁, hb₁, h⟩ := except_bind_eq_ok.1 h
      obtain ⟨bs, hbs, h⟩ := except_bind_eq_ok.1 h
      obtain ⟨b, hb, h⟩ := except_bind_eq_ok.1 h
      rw [lowerClauses_free h hclauses]
      exact or_congr_right (body_free (lowerAll_cons_of_ok hb₁ hbs) hb hotherwise)

/-! ## All expressions -/

/-- **One step:** if the core forms of its parts have their free names, then the core form of an expression has its
own -/
theorem lowersFree_step (e : Expr) (ih : ∀ p ∈ e.parts, p.LowersFree) : e.LowersFree := by
  intro c h x
  cases e with
  | literal d =>
    rw [free_of_parts rfl rfl, iff_false_right (by simp [parts])]
    exact not_mem_freeNames_constant Core.val (fun _ => rfl) h
  | var name =>
    cases h
    rw [free_var]
    exact List.mem_singleton
  | quotation d =>
    rw [free_of_parts rfl rfl, iff_false_right (by simp [parts])]
    cases d with
    | pair head tail m => cases h
    | _ => exact not_mem_freeNames_constant Core.quote (fun _ => rfl) h
  | call operator operands =>
    obtain ⟨f, hf, h⟩ := except_bind_eq_ok.1 h
    obtain ⟨cs, hcs, h⟩ := except_bind_eq_ok.1 h
    cases h
    obtain ⟨ihf, ihes⟩ := List.forall_mem_cons.1 ih
    rw [Core.mem_freeNames_app, free_of_parts rfl rfl, parts, List.exists_mem_cons_iff,
      List.exists_mem_cons_iff, ihf f hf x, lowerAll_free hcs ihes]
  | lambda params rest body =>
    obtain ⟨cs, hcs, h⟩ := except_bind_eq_ok.1 h
    obtain ⟨b, hb, h⟩ := except_bind_eq_ok.1 h
    cases h
    rw [Core.mem_freeNames_lambda, free_lambda, body_free hcs hb ih, and_comm]
    rfl
  | branch test consequent alternative =>
    cases alternative with
    | none =>
      obtain ⟨t, ht, h⟩ := except_bind_eq_ok.1 h
      obtain ⟨c, hc, h⟩ := except_bind_eq_ok.1 h
      cases h
      rw [Core.mem_freeNames_branch, free_of_parts rfl rfl, ih test (by simp [parts]) t ht x,
        ih consequent (by simp [parts]) c hc x]
      simp [parts]
    | some alternative =>
      obtain ⟨a, ha, h⟩ := except_bind_eq_ok.1 h
      obtain ⟨t, ht, h⟩ := except_bind_eq_ok.1 h
      obtain ⟨c, hc, h⟩ := except_bind_eq_ok.1 h
      cases h
      rw [Core.mem_freeNames_test, free_of_parts rfl rfl, ih test (by simp [parts]) t ht x,
        ih consequent (by simp [parts]) c hc x, ih alternative (by simp [parts]) a ha x]
      simp [parts]
  | assign name value =>
    exact lowersFree_assign (ih value List.mem_cons_self) c h x
  | letIn bindings body =>
    obtain ⟨ihvalues, ihbody⟩ := List.forall_mem_append.1 ih
    exact lowersFree_letIn ihvalues ihbody c h x
  | letRec bindings body =>
    obtain ⟨ihvalues, ihbody⟩ := List.forall_mem_append.1 ih
    exact lowersFree_letRec ihvalues ihbody c h x
  | namedLet name bindings body =>
    obtain ⟨ihvalues, ihbody⟩ := List.forall_mem_append.1 ih
    exact lowersFree_namedLet ihvalues ihbody c h x
  | sequence body =>
    obtain ⟨cs, hcs, hb⟩ := except_bind_eq_ok.1 h
    rw [free_of_parts rfl rfl, body_free hcs hb ih, parts]
  | cond clauses otherwise =>
    obtain ⟨ihclauses, ihelse⟩ := List.forall_mem_append.1 ih
    exact lowersFree_cond ihclauses ihelse c h x
  | conj body =>
    rw [free_of_parts rfl rfl]
    cases body with
    | nil =>
      cases h
      simp [parts, Core.falsity, Core.freeNames]
    | cons first others =>
      have hconj : lowerConj (first :: others) = .ok c := h
      exact lowerConj_free hconj ih
  | disj body =>
    rw [free_of_parts rfl rfl]
    exact lowerDisj_free h ih
  | template depth body =>
    rw [free_of_parts rfl rfl, ih body List.mem_cons_self c h x, parts]
    simp

/-- **Lowering respects lexical scope.** A name is free in the core form of an expression if and only if it is free in
the expression, whatever the name is -/
theorem lower_freeNames {e : Expr} {c : Core} (h : e.lower = .ok c) (x : String) : x ∈ c.freeNames ↔ e.Free x := by
  have hlowers : e.LowersFree := Expr.induct lowersFree_step e
  exact hlowers c h x

/-- names spelled like those of steps: free in a sequence, and bound by a loop and by a recursive binding with no body
of its own; the values of a binding form are outside its scope -/
theorem step_named_scopes :
    let e := sequence
      [var "$s1", namedLet "$s0" [⟨"$s1", call (var "$s0") [var "x"]⟩] [assign "$s1" (var "$s0"), var "y"],
      letIn [⟨"z", var "z"⟩] [letRec [⟨"w", var "z"⟩] []]]
    ∃ c, e.lower = .ok c ∧ (e.Free "$s1" ∧ e.Free "x" ∧ e.Free "y" ∧ e.Free "z") ∧ ¬ e.Free "$s0" ∧ ¬ e.Free "w" := by
  intro e
  have hfree := lower_freeNames (e := e) rfl
  refine ⟨_, rfl, ⟨(hfree _).1 ?_, (hfree _).1 ?_, (hfree _).1 ?_, (hfree _).1 ?_⟩, mt (hfree _).2 ?_,
    mt (hfree _).2 ?_⟩
  all_goals decide

end Expr

end SchemeStack
