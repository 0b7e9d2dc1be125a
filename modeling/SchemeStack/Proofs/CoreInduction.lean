/-
Induction over core expressions, and the census of several expressions as a union.

An application has a list of operands and a conditional may lack its alternative. `Core.induct` treats both alike: the
hypothesis of a part is at hand for every operand of the list and for the alternative if there is one.
`children_induct` is for what looks at an expression only through the list of its children.

The names of an expression are those of its root and those of its children (`mem_allNames`); free names are among them.
A property of nodes that holds everywhere in an expression (`Every`) holds of its root and everywhere in its children.
-/
import SchemeStack.Core.Variables

namespace SchemeStack.Core

/-- induction over an expression, with the hypothesis for each of its parts -/
@[elab_as_elim, induction_eliminator]
theorem induct {motive : Core → Prop}
    (var : ∀ name, motive (.var name)) (val : ∀ v, motive (.val v)) (quote : ∀ v, motive (.quote v))
    (letIn : ∀ name value body, motive value → motive body → motive (.letIn name value body))
    (lambda : ∀ params rest body, motive body → motive (.lambda params rest body))
    (app : ∀ operator operands, motive operator → (∀ e ∈ operands, motive e) → motive (.app operator operands))
    (branch : ∀ test consequent alternative, motive test → motive consequent → (∀ e ∈ alternative, motive e) →
      motive (.branch test consequent alternative))
    (assign : ∀ name value, motive value → motive (.assign name value)) (e : Core) : motive e := by
  refine @Core.rec motive (fun es => ∀ e ∈ es, motive e) (fun o => ∀ e ∈ o, motive e) var val quote letIn lambda app
    branch assign ?_ ?_ ?_ ?_ e
  · simp
  · intro e es he hes e' h
    rcases List.mem_cons.1 h with rfl | h
    · exact he
    · exact hes e' h
  · simp
  · intro e he e' h
    rw [← Option.mem_some_iff.1 h]
    exact he

/-- induction over an expression, with the hypothesis for each of its children -/
theorem children_induct {motive : Core → Prop} (step : ∀ e, (∀ c ∈ e.children, motive c) → motive e) (e : Core) :
    motive e := by
  induction e with
  | var name => exact step _ (List.forall_mem_nil _)
  | val v => exact step _ (List.forall_mem_nil _)
  | quote v => exact step _ (List.forall_mem_nil _)
  | letIn name value body ihv ihb =>
    apply step
    exact List.forall_mem_cons.2 ⟨ihv, List.forall_mem_singleton.2 ihb⟩
  | lambda params rest body ih => exact step _ (List.forall_mem_singleton.2 ih)
  | app operator operands ihf ihas =>
    apply step
    exact List.forall_mem_append.2 ⟨ihas, List.forall_mem_singleton.2 ihf⟩
  | branch test consequent alternative iht ihc iha =>
    apply step
    cases alternative with
    | none => exact List.forall_mem_cons.2 ⟨iht, List.forall_mem_singleton.2 ihc⟩
    | some a =>
      exact List.forall_mem_cons.2 ⟨iht, List.forall_mem_cons.2 ⟨ihc, List.forall_mem_singleton.2 (iha a rfl)⟩⟩
  | assign name value ih => exact step _ (List.forall_mem_singleton.2 ih)

section Union

variable {x : String} {es : List Core}

@[simp] theorem mem_freeNamesAll : x ∈ freeNamesAll es ↔ ∃ e ∈ es, x ∈ e.freeNames := by
  induction es with
  | nil => simp [freeNamesAll]
  | cons e es ih => simp [freeNamesAll, ih]

@[simp] theorem mem_assignedNamesAll : x ∈ assignedNamesAll es ↔ ∃ e ∈ es, x ∈ e.assignedNames := by
  induction es with
  | nil => simp [assignedNamesAll]
  | cons e es ih => simp [assignedNamesAll, ih]

@[simp] theorem mem_capturedNamesAll : x ∈ capturedNamesAll es ↔ ∃ e ∈ es, x ∈ e.capturedNames := by
  induction es with
  | nil => simp [capturedNamesAll]
  | cons e es ih => simp [capturedNamesAll, ih]

end Union

section FreeNames

variable {x y : String} {t c v b : Core} {a : Option Core}

theorem mem_freeNames_letIn : x ∈ (letIn y v b).freeNames ↔ x ∈ v.freeNames ∨ x ∈ b.freeNames ∧ x ≠ y := by
  change x ∈ v.freeNames ++ b.freeNames.filter (· != y) ↔ _
  simp

theorem mem_freeNames_lambda {ps : List String} {r : Option String} :
    x ∈ (lambda ps r b).freeNames ↔ x ∈ b.freeNames ∧ x ∉ binders ps r := by
  change x ∈ b.freeNames.filter (!(binders ps r).contains ·) ↔ _
  simp

theorem mem_freeNames_app {f : Core} {es : List Core} :
    x ∈ (app f es).freeNames ↔ ∃ p ∈ f :: es, x ∈ p.freeNames := by
  change x ∈ freeNamesAll es ++ f.freeNames ↔ _
  simp [or_comm]

theorem mem_freeNames_branch :
    x ∈ (branch t c a).freeNames ↔ x ∈ t.freeNames ∨ x ∈ c.freeNames ∨ ∃ e ∈ a, x ∈ e.freeNames := by
  cases a with
  | none =>
    change x ∈ t.freeNames ++ c.freeNames ↔ _
    simp
  | some a =>
    change x ∈ t.freeNames ++ c.freeNames ++ a.freeNames ↔ _
    simp

theorem mem_freeNames_assign : x ∈ (assign y v).freeNames ↔ x = y ∨ x ∈ v.freeNames := by
  change x ∈ y :: v.freeNames ↔ _
  simp

end FreeNames

/-! ## All names -/

theorem nodesOf_append (as bs : List Core) : nodesOf (as ++ bs) = nodesOf as ++ nodesOf bs := by
  induction as using nodesOf.induct with
  | case1 => simp [nodesOf]
  | case2 e stack ih =>
    rw [List.cons_append, nodesOf, nodesOf, ← List.append_assoc, ih, List.cons_append]

/-- the nodes of an expression are its root and the nodes of its children -/
theorem nodes_eq (e : Core) : e.nodes = e :: e.children.flatMap nodes := by
  have h : ∀ es : List Core, nodesOf es = es.flatMap nodes := by
    intro es
    induction es with
    | nil => simp [nodesOf]
    | cons e es ih =>
      rw [← List.singleton_append, nodesOf_append, ih]
      rfl
  rw [nodes, nodesOf, List.append_nil, h]

/-- every node of the expression has the property -/
def Every (Q : Core → Prop) (e : Core) : Prop := ∀ n ∈ e.nodes, Q n

theorem Every.root {Q : Core → Prop} {e : Core} (h : e.Every Q) : Q e :=
  h e (by rw [nodes_eq]; exact List.mem_cons_self)

theorem Every.child {Q : Core → Prop} {e c : Core} (h : e.Every Q) (hc : c ∈ e.children) : c.Every Q := fun n hn =>
  h n (by rw [nodes_eq]; exact List.mem_cons_of_mem e (List.mem_flatMap.2 ⟨c, hc, hn⟩))

theorem every_iff {Q : Core → Prop} {e : Core} : e.Every Q ↔ Q e ∧ ∀ c ∈ e.children, c.Every Q := by
  refine ⟨fun h => ⟨h.root, fun c hc => h.child hc⟩, ?_⟩
  rintro ⟨hroot, hchildren⟩ n hn
  rw [nodes_eq, List.mem_cons, List.mem_flatMap] at hn
  rcases hn with rfl | ⟨c, hc, hn⟩
  · exact hroot
  · exact hchildren c hc n hn

section Every

variable {Q : Core → Prop} {y : String} {v t c a f : Core} {es : List Core} {ps : List String} {r : Option String}

theorem every_atom {e : Core} (h : e.isAtomic = true) : e.Every Q ↔ Q e := by
  rw [every_iff]
  cases e with
  | var name => simp [children]
  | val w => simp [children]
  | quote w => simp [children]
  | _ => cases h

theorem every_letIn : (letIn y v c).Every Q ↔ Q (letIn y v c) ∧ v.Every Q ∧ c.Every Q := by
  rw [every_iff]
  change Q (letIn y v c) ∧ (∀ p ∈ [v, c], p.Every Q) ↔ _
  simp

theorem every_lambda : (lambda ps r c).Every Q ↔ Q (lambda ps r c) ∧ c.Every Q := by
  rw [every_iff]
  change Q (lambda ps r c) ∧ (∀ p ∈ [c], p.Every Q) ↔ _
  simp

theorem every_app : (app f es).Every Q ↔ Q (app f es) ∧ ∀ p ∈ f :: es, p.Every Q := by
  rw [every_iff]
  change Q (app f es) ∧ (∀ p ∈ es ++ [f], p.Every Q) ↔ _
  simp [or_imp, forall_and, and_comm]

theorem every_branch_none : (branch t c none).Every Q ↔ Q (branch t c none) ∧ t.Every Q ∧ c.Every Q := by
  rw [every_iff]
  change Q (branch t c none) ∧ (∀ p ∈ [t, c], p.Every Q) ↔ _
  simp

theorem every_branch_some :
    (branch t c (some a)).Every Q ↔ Q (branch t c (some a)) ∧ t.Every Q ∧ c.Every Q ∧ a.Every Q := by
  rw [every_iff]
  change Q (branch t c (some a)) ∧ (∀ p ∈ [t, c, a], p.Every Q) ↔ _
  simp

theorem every_assign : (assign y v).Every Q ↔ Q (assign y v) ∧ v.Every Q := by
  rw [every_iff]
  change Q (assign y v) ∧ (∀ p ∈ [v], p.Every Q) ↔ _
  simp

end Every

theorem mem_allNames {x : String} {e : Core} :
    x ∈ e.allNames ↔ x ∈ e.nodeNames ∨ ∃ child ∈ e.children, x ∈ child.allNames := by
  simp only [allNames, nodes_eq e, List.flatMap_cons, List.mem_append, List.flatMap_assoc, List.mem_flatMap]

section Names

variable {x y : String} {v t c a f : Core} {es : List Core} {ps : List String} {r : Option String}

@[simp] theorem mem_allNames_var : x ∈ (var y).allNames ↔ x = y := by
  rw [mem_allNames]
  change x ∈ [y] ∨ (∃ child ∈ ([] : List Core), x ∈ child.allNames) ↔ _
  simp

@[simp] theorem mem_allNames_val {w : Value} : x ∉ (val w).allNames := by
  rw [mem_allNames]
  change ¬(x ∈ ([] : List String) ∨ ∃ child ∈ ([] : List Core), x ∈ child.allNames)
  simp

@[simp] theorem mem_allNames_quote {w : Value} : x ∉ (quote w).allNames := by
  rw [mem_allNames]
  change ¬(x ∈ ([] : List String) ∨ ∃ child ∈ ([] : List Core), x ∈ child.allNames)
  simp

@[simp] theorem mem_allNames_letIn : x ∈ (letIn y v c).allNames ↔ x = y ∨ x ∈ v.allNames ∨ x ∈ c.allNames := by
  rw [mem_allNames]
  change x ∈ [y] ∨ (∃ child ∈ [v, c], x ∈ child.allNames) ↔ _
  simp

@[simp] theorem mem_allNames_lambda : x ∈ (lambda ps r c).allNames ↔ x ∈ binders ps r ∨ x ∈ c.allNames := by
  rw [mem_allNames]
  change x ∈ binders ps r ∨ (∃ child ∈ [c], x ∈ child.allNames) ↔ _
  simp

@[simp] theorem mem_allNames_app : x ∈ (app f es).allNames ↔ (∃ e ∈ es, x ∈ e.allNames) ∨ x ∈ f.allNames := by
  rw [mem_allNames]
  change x ∈ ([] : List String) ∨ (∃ child ∈ es ++ [f], x ∈ child.allNames) ↔ _
  simp [or_and_right, exists_or]

@[simp] theorem mem_allNames_branch_none :
    x ∈ (branch t c none).allNames ↔ x ∈ t.allNames ∨ x ∈ c.allNames := by
  rw [mem_allNames]
  change x ∈ ([] : List String) ∨ (∃ child ∈ [t, c], x ∈ child.allNames) ↔ _
  simp

@[simp] theorem mem_allNames_branch_some :
    x ∈ (branch t c (some a)).allNames ↔ x ∈ t.allNames ∨ x ∈ c.allNames ∨ x ∈ a.allNames := by
  rw [mem_allNames]
  change x ∈ ([] : List String) ∨ (∃ child ∈ [t, c, a], x ∈ child.allNames) ↔ _
  simp

@[simp] theorem mem_allNames_assign : x ∈ (assign y v).allNames ↔ x = y ∨ x ∈ v.allNames := by
  rw [mem_allNames]
  change x ∈ [y] ∨ (∃ child ∈ [v], x ∈ child.allNames) ↔ _
  simp

end Names

theorem mem_allNames_of_mem_freeNames {e : Core} {x : String} (h : x ∈ e.freeNames) : x ∈ e.allNames := by
  induction e with
  | var name => simpa [freeNames] using h
  | val v => simp [freeNames] at h
  | quote v => simp [freeNames] at h
  | letIn name value body ihv ihb =>
    simp only [freeNames, List.mem_append, List.mem_filter] at h
    rcases h with h | ⟨h, -⟩
    · simp [ihv h]
    · simp [ihb h]
  | lambda params rest body ih =>
    simp only [freeNames, List.mem_filter] at h
    simp [ih h.1]
  | app operator operands ihf ihas =>
    simp only [freeNames, List.mem_append, mem_freeNamesAll] at h
    rcases h with ⟨e, he, h⟩ | h
    · exact mem_allNames_app.2 (Or.inl ⟨e, he, ihas e he h⟩)
    · simp [ihf h]
  | branch test consequent alternative iht ihc iha =>
    cases alternative with
    | none =>
      simp only [freeNames, List.mem_append] at h
      rcases h with h | h
      · simp [iht h]
      · simp [ihc h]
    | some alternative =>
      simp only [freeNames, List.mem_append] at h
      rcases h with (h | h) | h
      · simp [iht h]
      · simp [ihc h]
      · simp [iha _ rfl h]
  | assign name value ih =>
    rcases List.mem_cons.1 h with rfl | h
    · simp
    · simp [ih h]

end SchemeStack.Core
