/-
The census of variables counts occurrences.

`Stands e above n`: the node `n` stands somewhere in `e`, and `above` are the bindings and procedures of `e` in whose
scope it stands there, the outermost first. The value of a binding is outside the scope of that binding. So an
occurrence of a name is a node that reads or assigns it, with what is above it; it is free if none of these binds the
name, and inside a procedure if one of them is a procedure.

`census_counts_occurrences`: the free names, the assigned and the captured ones are those with an occurrence of that
sort. The names that the walk over all nodes collects are those with any occurrence; the free ones are among them, and
the others are bound somewhere.

Each list of names is described by one step, from an expression to its parts (`mem_freeNames_step` and the two after
it), and so are occurrences (`occursFree_iff`). What has the same step is the same (`iff_occursFree`). The captured
names follow the free ones from the first procedure on, which is where an occurrence comes to be inside one.
-/
import SchemeStack.Proofs.CoreInduction

namespace SchemeStack.Core

/-! ## Scopes -/

/-- the parts in the scope of what the node binds -/
def innerParts : Core → List Core
  | letIn _ _ body => [body]
  | lambda _ _ body => [body]
  | _ => []

/-- the parts outside of that scope -/
def outerParts : Core → List Core
  | letIn _ value _ => [value]
  | lambda _ _ _ => []
  | e => e.children

theorem children_eq (e : Core) : e.children = e.outerParts ++ e.innerParts := by
  cases e with
  | letIn name value body => rfl
  | lambda params rest body => rfl
  | _ => exact (List.append_nil _).symm

/-- the node stands in the expression, in the scope of these bindings and procedures -/
inductive Stands : (e : Core) → (above : List Core) → (n : Core) → Prop
  | root (e : Core) : Stands e [] e
  | outside {e p n : Core} {above : List Core} : p ∈ e.outerParts → Stands p above n → Stands e above n
  | within {e p n : Core} {above : List Core} : p ∈ e.innerParts → Stands p above n → Stands e (e :: above) n

/-- none of the nodes binds the name -/
def Unbound (x : String) (above : List Core) : Prop := ∀ b ∈ above, x ∉ b.bind

variable {e n : Core} {above : List Core} {x : String}

/-- the walk over all nodes comes to what stands in the expression, and to nothing else -/
theorem mem_nodes_iff_stands : n ∈ e.nodes ↔ ∃ above, e.Stands above n := by
  induction e using children_induct with
  | step e ih =>
    rw [nodes_eq, List.mem_cons, List.mem_flatMap]
    constructor
    · rintro (rfl | ⟨c, hc, hn⟩)
      · exact ⟨[], .root n⟩
      · obtain ⟨above, hstands⟩ := (ih c hc).1 hn
        rw [children_eq, List.mem_append] at hc
        rcases hc with hc | hc
        · exact ⟨above, .outside hc hstands⟩
        · exact ⟨e :: above, .within hc hstands⟩
    · rintro ⟨above, hstands⟩
      cases hstands with
      | root => exact Or.inl rfl
      | @outside _ p _ _ hp hstands =>
        have hchild : p ∈ e.children := by rw [children_eq]; exact List.mem_append_left _ hp
        exact Or.inr ⟨p, hchild, (ih p hchild).2 ⟨above, hstands⟩⟩
      | @within _ p _ above hp hstands =>
        have hchild : p ∈ e.children := by rw [children_eq]; exact List.mem_append_right _ hp
        exact Or.inr ⟨p, hchild, (ih p hchild).2 ⟨above, hstands⟩⟩

/-- what is above a node stands in the expression itself -/
theorem Stands.above_mem_nodes (h : e.Stands above n) : ∀ b ∈ above, b ∈ e.nodes := by
  induction h with
  | root e => exact List.forall_mem_nil _
  | @outside e p n above hp _ ih =>
    intro b hb
    rw [nodes_eq, children_eq, List.flatMap_append]
    exact List.mem_cons_of_mem e (List.mem_append_left _ (List.mem_flatMap.2 ⟨p, hp, ih b hb⟩))
  | @within e p n above hp _ ih =>
    rw [nodes_eq, children_eq, List.flatMap_append]
    refine List.forall_mem_cons.2 ⟨List.mem_cons_self, fun b hb => ?_⟩
    exact List.mem_cons_of_mem e (List.mem_append_right _ (List.mem_flatMap.2 ⟨p, hp, ih b hb⟩))

/-! ## Free occurrences -/

/-- a node with the property stands where the name is free, and inside a procedure if `inLambda` asks for it -/
def OccursFree (Q : Core → Prop) (inLambda : Bool) (x : String) (e : Core) : Prop :=
  ∃ above n, e.Stands above n ∧ Q n ∧ Unbound x above ∧ (inLambda = true → ∃ b ∈ above, b.isLambda = true)

theorem unbound_cons {b : Core} : Unbound x (b :: above) ↔ x ∉ b.bind ∧ Unbound x above := List.forall_mem_cons

/-- **One step of an occurrence:** it is the root, or it is in a part; a part in the scope of the root must not have
the name bound by it, and is inside a procedure if the root is one -/
theorem occursFree_iff {Q : Core → Prop} {inLambda : Bool} :
    e.OccursFree Q inLambda x ↔ Q e ∧ inLambda = false ∨ (∃ p ∈ e.outerParts, p.OccursFree Q inLambda x) ∨
      x ∉ e.bind ∧ ∃ p ∈ e.innerParts, p.OccursFree Q (inLambda && !e.isLambda) x := by
  constructor
  · rintro ⟨above, n, hstands, hQ, hfree, hlambda⟩
    cases hstands with
    | root =>
      refine Or.inl ⟨hQ, Bool.eq_false_iff.2 fun htrue => ?_⟩
      obtain ⟨b, hb, -⟩ := hlambda htrue
      cases hb
    | outside hp hstands => exact Or.inr (Or.inl ⟨_, hp, above, n, hstands, hQ, hfree, hlambda⟩)
    | within hp hstands =>
      obtain ⟨hroot, hfree⟩ := unbound_cons.1 hfree
      refine Or.inr (Or.inr ⟨hroot, _, hp, _, n, hstands, hQ, hfree, fun htrue => ?_⟩)
      obtain ⟨hin, hnot⟩ := Bool.and_eq_true_iff.1 htrue
      obtain ⟨b, hb, hbl⟩ := hlambda hin
      rcases List.mem_cons.1 hb with rfl | hb
      · rw [hbl] at hnot
        cases hnot
      · exact ⟨b, hb, hbl⟩
  · rintro (⟨hQ, rfl⟩ | ⟨p, hp, above, n, hstands, hQ, hfree, hlambda⟩ | ⟨hroot, p, hp, above, n, hstands, hQ,
      hfree, hlambda⟩)
    · exact ⟨[], e, .root e, hQ, List.forall_mem_nil _, fun h => by cases h⟩
    · exact ⟨above, n, .outside hp hstands, hQ, hfree, hlambda⟩
    · refine ⟨e :: above, n, .within hp hstands, hQ, unbound_cons.2 ⟨hroot, hfree⟩, fun htrue => ?_⟩
      cases hl : e.isLambda with
      | true => exact ⟨e, List.mem_cons_self, hl⟩
      | false =>
        rw [htrue, hl] at hlambda
        obtain ⟨b, hb, hbl⟩ := hlambda rfl
        exact ⟨b, List.mem_cons_of_mem e hb, hbl⟩

/-- what has the step of free occurrences is true where there is one -/
theorem iff_occursFree {P Q : Core → Prop}
    (hstep : ∀ e, P e ↔ Q e ∨ (∃ p ∈ e.outerParts, P p) ∨ x ∉ e.bind ∧ ∃ p ∈ e.innerParts, P p) (e : Core) :
    P e ↔ e.OccursFree Q false x := by
  induction e using children_induct with
  | step e ih =>
    rw [children_eq, List.forall_mem_append] at ih
    rw [hstep, occursFree_iff, Bool.false_and, and_iff_left rfl]
    exact or_congr_right (or_congr (exists_congr fun p => and_congr_right fun hp => ih.1 p hp)
      (and_congr_right fun _ => exists_congr fun p => and_congr_right fun hp => ih.2 p hp))

/-! ## The census, one step -/

def assignee : Core → List String
  | assign name _ => [name]
  | _ => []

theorem mem_freeNames_step (e : Core) :
    x ∈ e.freeNames ↔ x ∈ e.mention ∨ (∃ p ∈ e.outerParts, x ∈ p.freeNames) ∨
      x ∉ e.bind ∧ ∃ p ∈ e.innerParts, x ∈ p.freeNames := by
  cases e with
  | var name => simp [freeNames, mention, outerParts, innerParts, children]
  | val v => simp [freeNames, mention, outerParts, innerParts, children]
  | quote v => simp [freeNames, mention, outerParts, innerParts, children]
  | letIn name value body => simp [mem_freeNames_letIn, mention, outerParts, innerParts, bind, and_comm]
  | lambda params rest body => simp [mem_freeNames_lambda, mention, outerParts, innerParts, bind, and_comm]
  | app operator operands =>
    simp [mem_freeNames_app, mention, outerParts, innerParts, children, or_and_right, exists_or, or_comm]
  | branch test consequent alternative =>
    cases alternative <;> simp [mem_freeNames_branch, mention, outerParts, innerParts, children]
  | assign name value => simp [mem_freeNames_assign, mention, outerParts, innerParts, children]

theorem mem_assignedNames_step (e : Core) :
    x ∈ e.assignedNames ↔ x ∈ e.assignee ∨ (∃ p ∈ e.outerParts, x ∈ p.assignedNames) ∨
      x ∉ e.bind ∧ ∃ p ∈ e.innerParts, x ∈ p.assignedNames := by
  cases e with
  | var name => simp [assignedNames, assignee, outerParts, innerParts, children]
  | val v => simp [assignedNames, assignee, outerParts, innerParts, children]
  | quote v => simp [assignedNames, assignee, outerParts, innerParts, children]
  | letIn name value body => simp [assignedNames, assignee, outerParts, innerParts, bind, and_comm]
  | lambda params rest body => simp [assignedNames, assignee, outerParts, innerParts, bind, and_comm]
  | app operator operands => simp [assignedNames, assignee, outerParts, innerParts, children, or_and_right, exists_or]
  | branch test consequent alternative =>
    cases alternative <;> simp [assignedNames, assignee, outerParts, innerParts, children]
  | assign name value => simp [assignedNames, assignee, outerParts, innerParts, children]

theorem mem_capturedNames_step (e : Core) :
    x ∈ e.capturedNames ↔ (∃ p ∈ e.outerParts, x ∈ p.capturedNames) ∨
      x ∉ e.bind ∧ ∃ p ∈ e.innerParts, x ∈ if e.isLambda then p.freeNames else p.capturedNames := by
  cases e with
  | var name => simp [capturedNames, outerParts, innerParts, children]
  | val v => simp [capturedNames, outerParts, innerParts, children]
  | quote v => simp [capturedNames, outerParts, innerParts, children]
  | letIn name value body => simp [capturedNames, outerParts, innerParts, bind, isLambda, and_comm]
  | lambda params rest body =>
    simp [capturedNames, mem_freeNames_lambda, outerParts, innerParts, bind, isLambda, and_comm]
  | app operator operands => simp [capturedNames, outerParts, innerParts, children, or_and_right, exists_or]
  | branch test consequent alternative => cases alternative <;> simp [capturedNames, outerParts, innerParts, children]
  | assign name value => simp [capturedNames, outerParts, innerParts, children]

/-! ## The census, whole expressions -/

theorem mem_freeNames_iff_occursFree : x ∈ e.freeNames ↔ e.OccursFree (fun n => x ∈ n.mention) false x :=
  iff_occursFree mem_freeNames_step e

theorem mem_assignedNames_iff_occursFree : x ∈ e.assignedNames ↔ e.OccursFree (fun n => x ∈ n.assignee) false x :=
  iff_occursFree mem_assignedNames_step e

theorem mem_capturedNames_iff_occursFree : x ∈ e.capturedNames ↔ e.OccursFree (fun n => x ∈ n.mention) true x := by
  induction e using children_induct with
  | step e ih =>
    rw [children_eq, List.forall_mem_append] at ih
    have hinner : ∀ p ∈ e.innerParts, x ∈ (if e.isLambda then p.freeNames else p.capturedNames) ↔
        p.OccursFree (fun n => x ∈ n.mention) (true && !e.isLambda) x := by
      intro p hp
      cases e.isLambda with
      | true => exact mem_freeNames_iff_occursFree
      | false => exact ih.2 p hp
    have hroot : ¬ (x ∈ e.mention ∧ true = false) := by simp
    rw [mem_capturedNames_step, occursFree_iff, or_iff_right hroot]
    exact or_congr (exists_congr fun p => and_congr_right fun hp => ih.1 p hp)
      (and_congr_right fun _ => exists_congr fun p => and_congr_right fun hp => hinner p hp)

theorem mem_mentionedNames_iff_stands : x ∈ e.mentionedNames ↔ ∃ above n, e.Stands above n ∧ x ∈ n.mention := by
  rw [mentionedNames, List.mem_flatMap]
  constructor
  · rintro ⟨n, hn, hx⟩
    obtain ⟨above, hstands⟩ := mem_nodes_iff_stands.1 hn
    exact ⟨above, n, hstands, hx⟩
  · rintro ⟨above, n, hstands, hx⟩
    exact ⟨n, mem_nodes_iff_stands.2 ⟨above, hstands⟩, hx⟩

theorem mem_assignee : x ∈ n.assignee ↔ ∃ value, n = assign x value := by
  cases n with
  | assign name value => simp [assignee, eq_comm]
  | _ => simp [assignee]

/-- **The census of variables counts occurrences.** - A name is free if it is read or assigned where nothing above
binds it. - It is assigned if such an occurrence is an assignment, and captured if such an occurrence is inside a
procedure. - The walk over all nodes collects the names that are read or assigned anywhere. The free names are among
them, and each of them is free or bound somewhere. -/
theorem census_counts_occurrences (e : Core) (x : String) :
    (x ∈ e.freeNames ↔ ∃ above n, e.Stands above n ∧ x ∈ n.mention ∧ Unbound x above) ∧
    (x ∈ e.assignedNames ↔ ∃ above value, e.Stands above (assign x value) ∧ Unbound x above) ∧
    (x ∈ e.capturedNames ↔
      ∃ above n, e.Stands above n ∧ x ∈ n.mention ∧ Unbound x above ∧ ∃ b ∈ above, b.isLambda = true) ∧
    (x ∈ e.mentionedNames ↔ ∃ above n, e.Stands above n ∧ x ∈ n.mention) ∧
    (x ∈ e.freeNames → x ∈ e.mentionedNames) ∧ (x ∈ e.mentionedNames → x ∈ e.freeNames ∨ x ∈ e.boundNames) := by
  have hfree : x ∈ e.freeNames ↔ ∃ above n, e.Stands above n ∧ x ∈ n.mention ∧ Unbound x above := by
    simp only [mem_freeNames_iff_occursFree, OccursFree, Bool.false_eq_true, false_imp_iff, and_true]
  have hassigned : x ∈ e.assignedNames ↔ ∃ above value, e.Stands above (assign x value) ∧ Unbound x above := by
    rw [mem_assignedNames_iff_occursFree]
    constructor
    · rintro ⟨above, n, hstands, hx, hunbound, -⟩
      obtain ⟨value, rfl⟩ := mem_assignee.1 hx
      exact ⟨above, value, hstands, hunbound⟩
    · rintro ⟨above, value, hstands, hunbound⟩
      exact ⟨above, assign x value, hstands, mem_assignee.2 ⟨value, rfl⟩, hunbound, fun h => by cases h⟩
  have hcaptured : x ∈ e.capturedNames ↔
      ∃ above n, e.Stands above n ∧ x ∈ n.mention ∧ Unbound x above ∧ ∃ b ∈ above, b.isLambda = true := by
    simp only [mem_capturedNames_iff_occursFree, OccursFree, true_imp_iff]
  refine ⟨hfree, hassigned, hcaptured, mem_mentionedNames_iff_stands, fun hx => ?_, fun hx => ?_⟩
  · obtain ⟨above, n, hstands, hmention, -⟩ := hfree.1 hx
    exact mem_mentionedNames_iff_stands.2 ⟨above, n, hstands, hmention⟩
  · obtain ⟨above, n, hstands, hmention⟩ := mem_mentionedNames_iff_stands.1 hx
    by_cases hunbound : Unbound x above
    · exact Or.inl (hfree.2 ⟨above, n, hstands, hmention, hunbound⟩)
    · -- a binder above the node is a node too, so the name is in the census of bound names
      obtain ⟨b, hb, hbind⟩ : ∃ b ∈ above, x ∈ b.bind := by simpa [Unbound] using hunbound
      exact Or.inr (List.mem_flatMap.2 ⟨b, hstands.above_mem_nodes b hb, hbind⟩)

/-- the value of a binding of the same name is outside its scope, and a procedure in it captures the name; in the body
the name is bound -/
example : "x" ∈ (letIn "x" (lambda ["y"] none (assign "x" (var "y"))) (assign "x" (var "x"))).capturedNames ∧
    "x" ∉ (letIn "x" (val (.integer 1)) (lambda [] none (assign "x" (var "z")))).capturedNames := by decide

end SchemeStack.Core
