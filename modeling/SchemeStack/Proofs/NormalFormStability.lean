/-
Normalizing what is normalized changes nothing.

Each of the two steps leaves alone what already has the form that it leads to, and then draws no name from its supply:
naming parts where operators, operands and tests are atoms (`nameParts_eq_self`), moving bindings where no binding is
bound to a binding (`liftLets_eq_self`). The second form is reached from every expression, whether its parts were
named or not and whether bindings are given fresh names or not (`liftLets_flat`).

So a second normalization is the identity on the pair of expression and supply (`normalForm_stable`): the supply knows
all names of the result, and interns none of them anew.
-/
import SchemeStack.Proofs.FreshSpelling

namespace SchemeStack

theorem SymbolTable.internAll_eq_self {t : SymbolTable} {names : List String} (h : ∀ x ∈ names, x ∈ t.names) :
    t.internAll names = t := by
  induction names with
  | nil => rfl
  | cons x names ih =>
    obtain ⟨hx, hnames⟩ := List.forall_mem_cons.1 h
    rw [internAll, List.foldl_cons, intern_of_mem hx]
    exact ih hnames

namespace Core

variable {s : Supply} {hygienic : Bool} {name : String} {e body value test : Core}

/-! ## Naming parts -/

theorem nameOperands_atoms {es : List Core} (h : ∀ e ∈ es, e.isAtomic = true) (s : Supply) :
    nameOperands es s = ((es, []), s) := by
  induction es with
  | nil => rfl
  | cons e es ih =>
    obtain ⟨he, hes⟩ := List.forall_mem_cons.1 h
    rw [nameOperands, if_pos he, ih hes]

/-- where only atoms stand in the places of atoms, no part gets a name -/
theorem nameParts_eq_self (h : e.Every NamedNode) (s : Supply) : e.nameParts s = (e, s) := by
  induction e generalizing s with
  | var name => rfl
  | val v => rfl
  | quote v => rfl
  | letIn name value body ihv ihb =>
    obtain ⟨-, hv, hb⟩ := every_letIn.1 h
    rw [nameParts, ihv hv, ihb hb]
  | lambda params rest body ih => rw [nameParts, ih (every_lambda.1 h).2]
  | app operator operands _ _ =>
    obtain ⟨hoperator, hoperands⟩ := List.forall_mem_cons.1 h.root
    rw [nameParts, if_pos hoperator, nameOperands_atoms hoperands]
    rfl
  | branch test consequent alternative _ ihc iha =>
    rw [nameParts_branch_atomic h.root]
    cases alternative with
    | none =>
      obtain ⟨-, -, hc⟩ := every_branch_none.1 h
      simp only [nameArms, ihc hc]
    | some alternative =>
      obtain ⟨-, -, hc, ha⟩ := every_branch_some.1 h
      simp only [nameArms, ihc hc, iha _ rfl ha]
  | assign name value ih => rw [nameParts, ih (every_assign.1 h).2]

/-! ## Moving bindings -/

/-- after moving bindings, the expressions of a list have a property that each of them then has -/
theorem forall_mem_liftLetsAll {Q : Core → Prop} {es : List Core} (h : ∀ e ∈ es, ∀ s, Q (e.liftLets hygienic s).1)
    (s : Supply) :
    ∀ p ∈ (liftLetsAll hygienic es s).1, Q p := by
  induction es generalizing s with
  | nil => exact nofun
  | cons e es ih =>
    obtain ⟨he, hes⟩ := List.forall_mem_cons.1 h
    exact List.forall_mem_cons.2 ⟨he s, ih hes _⟩

/-- no binding is bound to a binding, once bindings have been moved -/
theorem liftLets_flat (hygienic : Bool) (e : Core) (s : Supply) : (e.liftLets hygienic s).1.Every FlatNode := by
  induction e generalizing s with
  | var name => exact (every_atom rfl).2 trivial
  | val v => exact (every_atom rfl).2 trivial
  | quote v => exact (every_atom rfl).2 trivial
  | letIn name value body ihv ihb =>
    exact every_bindLifted (fun _ _ _ h => flatNode_renameFree h) (fun _ _ _ => Iff.rfl) (ihv s) (ihb _)
  | lambda params rest body ih => exact every_lambda.2 ⟨trivial, ih s⟩
  | app operator operands ihf ihas =>
    exact every_app.2 ⟨trivial, List.forall_mem_cons.2 ⟨ihf s, forall_mem_liftLetsAll ihas _⟩⟩
  | branch test consequent alternative iht ihc iha =>
    cases alternative with
    | none => exact every_branch_none.2 ⟨trivial, iht s, ihc _⟩
    | some alternative => exact every_branch_some.2 ⟨trivial, iht _, ihc _, iha _ rfl s⟩
  | assign name value ih => exact every_assign.2 ⟨trivial, ih s⟩

theorem bindLifted_flat (h : value.isLet = false) :
    bindLifted hygienic name body value s = (letIn name value body, s) := by
  cases value with
  | letIn y w d => cases h
  | _ => rw [bindLifted]; simp

theorem liftLetsAll_eq_self {es : List Core} (h : ∀ e ∈ es, ∀ s, e.liftLets hygienic s = (e, s)) (s : Supply) :
    liftLetsAll hygienic es s = (es, s) := by
  induction es with
  | nil => rfl
  | cons e es ih =>
    obtain ⟨he, hes⟩ := List.forall_mem_cons.1 h
    rw [liftLetsAll, he s, ih hes]

/-- where no binding is bound to a binding, none is moved -/
theorem liftLets_eq_self (h : e.Every FlatNode) (s : Supply) : e.liftLets hygienic s = (e, s) := by
  induction e generalizing s with
  | var name => rfl
  | val v => rfl
  | quote v => rfl
  | letIn name value body ihv ihb =>
    obtain ⟨hflat, hv, hb⟩ := every_letIn.1 h
    rw [liftLets, ihv hv, ihb hb]
    exact bindLifted_flat hflat
  | lambda params rest body ih => rw [liftLets, ih (every_lambda.1 h).2]
  | app operator operands ihf ihas =>
    obtain ⟨hf, has⟩ := List.forall_mem_cons.1 (every_app.1 h).2
    rw [liftLets, ihf hf, liftLetsAll_eq_self fun e he s => ihas e he (has e he) s]
  | branch test consequent alternative iht ihc iha =>
    cases alternative with
    | none =>
      obtain ⟨-, ht, hc⟩ := every_branch_none.1 h
      rw [liftLets, iht ht, ihc hc]
    | some alternative =>
      obtain ⟨-, ht, hc, ha⟩ := every_branch_some.1 h
      rw [liftLets, iha _ rfl ha, iht ht, ihc hc]
  | assign name value ih => rw [liftLets, ih (every_assign.1 h).2]

/-! ## Both steps -/

/-- what is in A-normal form is its own, and only its names may be new to the supply -/
theorem normalForm_eq_self (h : e.Every NormalNode) (s : Supply) :
    e.normalForm s = (e, { s with table := e.internNames s.table }) := by
  rw [normalForm, nameParts_eq_self fun n hn => (h n hn).1]
  exact liftLets_eq_self (fun n hn => (h n hn).2) _

/-- **Normalizing and lifting are idempotent.** Normalizing the A-normal form of an expression, from the supply that
was left, yields the same expression and the same supply, so no name is minted or interned. Moving bindings, with
fresh names or without, leaves no binding bound to a binding; and doing it again, either way and from any supply,
yields the same expression and that supply -/
theorem normalForm_stable (e : Core) (s : Supply) :
    (e.normalForm s).1.normalForm (e.normalForm s).2 = e.normalForm s ∧
    ∀ hygienic,
      (∀ name value body, letIn name value body ∈ (e.liftLets hygienic s).1.nodes → value.isLet = false) ∧
      ∀ hygienic' s', (e.liftLets hygienic s).1.liftLets hygienic' s' = ((e.liftLets hygienic s).1, s') := by
  refine ⟨?_, fun hygienic => ⟨fun _ _ _ hnode => liftLets_flat hygienic e s _ hnode, fun hygienic' s' => ?_⟩⟩
  · have hnormal : (e.normalForm s).1.Every NormalNode := liftLets_normal _ _ (nameParts_named e _)
    have hknown : (e.normalForm s).1.internNames (e.normalForm s).2.table = (e.normalForm s).2.table :=
      SymbolTable.internAll_eq_self (normalForm_knows e s)
    rw [normalForm_eq_self hnormal, hknown]
  · exact liftLets_eq_self (liftLets_flat hygienic e s) s'

end Core

end SchemeStack
