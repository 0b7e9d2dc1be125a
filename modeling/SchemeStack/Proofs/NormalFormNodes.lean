/-
The A-normal form is in A-normal form, at every node.

`NormalNode` says what is asked of a node: the operator and the operands of an application and the test of a
conditional are atoms, and the value of a binding is not itself a binding. `normalForm_normal` shows it of all nodes
of the result, in the bodies of procedures, in the arms of conditionals and in assigned values too, from any supply.

The two steps share the work. Naming parts leaves only atoms where atoms are asked for (`nameParts_named`); the bindings
that it makes may hold bindings. Moving bindings changes no operator, operand or test but keeps them atoms, and puts a
binding in the place of another only where that is allowed (`bindLifted_normal`, `liftLets_normal`).
-/
import SchemeStack.Proofs.NormalFormShape

namespace SchemeStack.Core

variable {s : Supply} {name old new : String} {e k t c body value : Core} {a : Option Core}

/-- the operator and the operands of an application and the test of a conditional are atoms -/
def NamedNode : Core → Prop
  | app f es => ∀ part ∈ f :: es, part.isAtomic = true
  | branch test _ _ => test.isAtomic = true
  | _ => True

def isLet : Core → Bool
  | letIn _ _ _ => true
  | _ => false

/-- the value of a binding is no binding -/
def FlatNode : Core → Prop
  | letIn _ value _ => value.isLet = false
  | _ => True

/-- what A-normal form asks of a node -/
def NormalNode (e : Core) : Prop := e.NamedNode ∧ e.FlatNode

/-! ## Naming parts -/

theorem every_bindAll {Q : Core → Prop} {B : List (String × Core)} (hQ : ∀ y w d, Q (letIn y w d))
    (hB : ∀ b ∈ B, b.2.Every Q) (hk : k.Every Q) : (bindAll B k).Every Q := by
  induction B with
  | nil => exact hk
  | cons b B ih =>
    have hrest : (bindAll B k).Every Q := ih fun b' hb' => hB b' (List.mem_cons_of_mem b hb')
    exact every_letIn.2 ⟨hQ _ _ _, hB b List.mem_cons_self, hrest⟩

theorem named_atom (h : e.isAtomic = true) : e.Every NamedNode := by
  rw [every_atom h]
  cases e with
  | app f es => cases h
  | branch t c a => cases h
  | _ => trivial

/-- the parts that are bound to names have had their own parts named -/
theorem NamesParts.named_values {s' : Supply} {es as : List Core} {B : List (String × Core)}
    (h : NamesParts s es as B s')
    (hes : ∀ e ∈ es, ∀ s, (e.nameParts s).1.Every NamedNode) : ∀ b ∈ B, b.2.Every NamedNode := by
  induction h with
  | nil s => exact nofun
  | atom _ _ ih => exact ih fun e he => hes e (List.mem_cons_of_mem _ he)
  | named event _ _ ih =>
    exact List.forall_mem_cons.2 ⟨hes _ List.mem_cons_self _, ih fun e he => hes e (List.mem_cons_of_mem _ he)⟩

theorem nameArms_named (ht : t.isAtomic = true) (hc : ∀ s, (c.nameParts s).1.Every NamedNode)
    (ha : ∀ e ∈ a, ∀ s, (e.nameParts s).1.Every NamedNode) : (nameArms t c a s).1.Every NamedNode := by
  cases a with
  | none => exact every_branch_none.2 ⟨ht, named_atom ht, hc s⟩
  | some a => exact every_branch_some.2 ⟨ht, named_atom ht, hc s, ha a rfl _⟩

/-- after naming parts, only atoms stand where A-normal form asks for atoms -/
theorem nameParts_named (e : Core) (s : Supply) : (e.nameParts s).1.Every NamedNode := by
  induction e generalizing s with
  | var name => exact named_atom rfl
  | val v => exact named_atom rfl
  | quote v => exact named_atom rfl
  | letIn name value body ihv ihb => exact every_letIn.2 ⟨trivial, ihv s, ihb _⟩
  | lambda params rest body ih => exact every_lambda.2 ⟨trivial, ih s⟩
  | app operator operands ihf ihas =>
    obtain ⟨a, as, B, s', heq, hparts⟩ := nameParts_app operator operands s
    rw [heq]
    have hatomic := hparts.atomic
    apply every_bindAll (fun _ _ _ => trivial) (hparts.named_values (List.forall_mem_cons.2 ⟨ihf, ihas⟩))
    exact every_app.2 ⟨hatomic, fun p hp => named_atom (hatomic p hp)⟩
  | branch test consequent alternative iht ihc iha =>
    cases hatomic : test.isAtomic with
    | true =>
      rw [nameParts_branch_atomic hatomic]
      exact nameArms_named hatomic ihc iha
    | false =>
      rw [nameParts_branch_named hatomic]
      exact every_letIn.2 ⟨trivial, iht _, nameArms_named rfl ihc iha⟩
  | assign name value ih => exact every_assign.2 ⟨trivial, ih s⟩

/-! ## Moving bindings -/

theorem isAtomic_renameFree (old new : String) (e : Core) : (e.renameFree old new).isAtomic = e.isAtomic := by
  cases e with
  | branch t c a => cases a <;> rfl
  | _ => rfl

theorem isLet_renameFree (old new : String) (e : Core) : (e.renameFree old new).isLet = e.isLet := by
  cases e with
  | branch t c a => cases a <;> rfl
  | _ => rfl

theorem normal_atom (h : e.isAtomic = true) : e.Every NormalNode := by
  refine (every_atom h).2 ⟨(named_atom h).root, ?_⟩
  cases e with
  | letIn y w d => cases h
  | _ => trivial

section Every

variable {Q : Core → Prop}

/-- a property that changing a name keeps, and that asks of a binding only that its value is no binding, holds of a
binding whose value has had its own bindings moved outside -/
theorem every_bindLifted {hygienic : Bool} (hQ : ∀ old new n, Q n → Q (n.renameFree old new))
    (hlet : ∀ y w d, Q (letIn y w d) ↔ w.isLet = false) (hv : value.Every Q) (hb : body.Every Q) :
    (bindLifted hygienic name body value s).1.Every Q := by
  induction value, s using bindLifted.induct hygienic name body with
  | case1 inner w d s hcapture g ih =>
    rw [bindLifted, if_pos hcapture]
    obtain ⟨hnode, hw, hd⟩ := every_letIn.1 hv
    exact every_letIn.2 ⟨(hlet _ _ _).2 ((hlet _ _ _).1 hnode), hw, ih (every_renameFree (hQ _ _) hd)⟩
  | case2 inner w d s hcapture ih =>
    rw [bindLifted, if_neg hcapture]
    obtain ⟨hnode, hw, hd⟩ := every_letIn.1 hv
    exact every_letIn.2 ⟨(hlet _ _ _).2 ((hlet _ _ _).1 hnode), hw, ih hd⟩
  | case3 value s hvalue =>
    have hflat : value.isLet = false := by
      cases value with
      | letIn y w d => exact absurd rfl (hvalue y w d)
      | _ => rfl
    rw [bindLifted]
    · exact every_letIn.2 ⟨(hlet _ _ _).2 hflat, hv, hb⟩
    · exact hvalue

end Every

theorem flatNode_renameFree (h : e.FlatNode) : (e.renameFree old new).FlatNode := by
  cases e with
  | letIn y w d => exact (isLet_renameFree old new w).trans h
  | branch t c a => cases a <;> trivial
  | _ => trivial

theorem namedNode_renameFree (h : e.NamedNode) : (e.renameFree old new).NamedNode := by
  cases e with
  | app f es =>
    rw [renameFree, renameFreeAll_eq_map]
    intro p hp
    rw [← List.map_cons] at hp
    obtain ⟨q, hq, rfl⟩ := List.mem_map.1 hp
    exact (isAtomic_renameFree old new q).trans (h q hq)
  | branch t c a => cases a <;> exact (isAtomic_renameFree old new t).trans h
  | _ => trivial

/-- a binding of a value in A-normal form, its own bindings moved outside, is in A-normal form -/
theorem bindLifted_normal (hv : value.Every NormalNode) (hb : body.Every NormalNode) :
    (bindLifted true name body value s).1.Every NormalNode :=
  every_bindLifted (fun _ _ _ h => ⟨namedNode_renameFree h.1, flatNode_renameFree h.2⟩)
    (fun _ _ _ => ⟨fun h => h.2, fun h => ⟨trivial, h⟩⟩) hv hb

/-- with parts named, moving bindings leads to A-normal form -/
theorem liftLets_normal (e : Core) (s : Supply) (h : e.Every NamedNode) : (e.liftLets true s).1.Every NormalNode := by
  induction e generalizing s with
  | var name => exact normal_atom rfl
  | val v => exact normal_atom rfl
  | quote v => exact normal_atom rfl
  | letIn name value body ihv ihb =>
    obtain ⟨-, hv, hb⟩ := every_letIn.1 h
    exact bindLifted_normal (ihv s hv) (ihb _ hb)
  | lambda params rest body ih =>
    obtain ⟨-, hb⟩ := every_lambda.1 h
    exact every_lambda.2 ⟨⟨trivial, trivial⟩, ih s hb⟩
  | app operator operands ihf ihas =>
    -- the parts are atoms, which stay as they are
    obtain ⟨hatomic, -⟩ := every_app.1 h
    have hself : (app operator operands).liftLets true s = (app operator operands, s) := by
      simp only [liftLets, liftLets_atom (hatomic operator List.mem_cons_self),
        liftLetsAll_atoms fun p hp => hatomic p (List.mem_cons_of_mem _ hp)]
    rw [hself]
    exact every_app.2 ⟨⟨hatomic, trivial⟩, fun p hp => normal_atom (hatomic p hp)⟩
  | branch test consequent alternative iht ihc iha =>
    have ht : ∀ s, (test.liftLets true s).1.isAtomic = true := by
      intro s
      rw [liftLets_atom h.root]
      exact h.root
    cases alternative with
    | none =>
      obtain ⟨-, -, hc⟩ := every_branch_none.1 h
      exact every_branch_none.2 ⟨⟨ht s, trivial⟩, normal_atom (ht s), ihc _ hc⟩
    | some alternative =>
      obtain ⟨-, -, hc, ha⟩ := every_branch_some.1 h
      exact every_branch_some.2 ⟨⟨ht _, trivial⟩, normal_atom (ht _), ihc _ hc, iha _ rfl s ha⟩
  | assign name value ih =>
    obtain ⟨-, hv⟩ := every_assign.1 h
    exact every_assign.2 ⟨⟨trivial, trivial⟩, ih s hv⟩

/-- **A-normal form is reached.** At every node of the result, whatever the expression and the supply: operator,
operands and tests are atoms, and no binding is bound to a binding. -/
theorem normalForm_normal (e : Core) (s : Supply) : (e.normalForm s).1.Every NormalNode :=
  liftLets_normal _ _ (nameParts_named e _)

end SchemeStack.Core
