/-
Renaming a variable to a fresh name changes nothing but that name.

Two expressions are alpha-equivalent if they are the same without the names of their binders (`AlphaEq`). In the
nameless form a variable that is bound in the expression refers to its binder, by the number of names that are bound
between the two; a variable that is free keeps its name (`Reference`). Of a procedure the form keeps how many
parameters it has, and whether it takes a rest.

`Renames` relates expressions that differ in names only, one binder for one binder. It implies the same nameless form,
as soon as names that it relates refer to the same (`Renames.nameless_eq`). An expression and its renamed form are
related in this way in the scope of a binding of the old name and of the new one.

`renameFree_fresh` puts this together with what is known of renaming node by node: of the free names only the one
changes, no binder does, the result is alpha-equivalent once the name is bound on both sides, and renaming can be
undone.
-/
import SchemeStack.Proofs.Flattening

namespace SchemeStack

/-! ## Expressions without the names of binders -/

/-- what a variable refers to: a name bound around it, with so many others between them, or a name that is free -/
inductive Reference where
  | bound (between : Nat)
  | free (name : String)
  deriving DecidableEq

namespace Reference

/-- the same reference with one more bound name between -/
def outward : Reference → Reference
  | bound between => bound (between + 1)
  | free name => free name

/-- what a name refers to, in the scope of names of which the first is bound last -/
def ofName (x : String) : List String → Reference
  | [] => free x
  | y :: scope => if x = y then bound 0 else (ofName x scope).outward

variable {x y a b : String} {scope scope' : List String}

theorem ofName_cons_self (x : String) (scope : List String) : ofName x (x :: scope) = bound 0 := if_pos rfl

theorem ofName_cons_of_ne (h : x ≠ y) : ofName x (y :: scope) = (ofName x scope).outward := if_neg h

/-- related names refer to the same in the scope of one more binder on each side -/
theorem ofName_bind {S : NameRel} (hS : ∀ a b, S a b → ofName a scope = ofName b scope') (h : S.bind x y a b) :
    ofName a (x :: scope) = ofName b (y :: scope') := by
  rcases h with ⟨rfl, rfl⟩ | ⟨ha, hb, hab⟩
  · rw [ofName_cons_self, ofName_cons_self]
  · rw [ofName_cons_of_ne ha, ofName_cons_of_ne hb, hS a b hab]

/-- and in the scope of the same binders -/
theorem ofName_bindSame {S : NameRel} (hS : ∀ a b, S a b → ofName a scope = ofName b scope') {names : List String}
    (h : S.bindSame names a b) : ofName a (names ++ scope) = ofName b (names ++ scope') := by
  rcases h with ⟨rfl, ha⟩ | ⟨ha, hb, hab⟩
  · induction names with
    | nil => cases ha
    | cons y names ih =>
      by_cases hay : a = y
      · rw [hay, List.cons_append, List.cons_append, ofName_cons_self, ofName_cons_self]
      · rw [List.cons_append, List.cons_append, ofName_cons_of_ne hay, ofName_cons_of_ne hay,
          ih ((List.mem_cons.1 ha).resolve_left hay)]
  · induction names with
    | nil => exact hS a b hab
    | cons y names ih =>
      rw [List.mem_cons, not_or] at ha hb
      rw [List.cons_append, List.cons_append, ofName_cons_of_ne ha.1, ofName_cons_of_ne hb.1, ih ha.2 hb.2]

end Reference

/-- an expression without the names of its binders -/
inductive Nameless where
  | var (reference : Reference)
  | val (v : Value)
  | quote (v : Value)
  | letIn (value body : Nameless)
  | lambda (params : Nat) (rest : Bool) (body : Nameless)
  | app (operator : Nameless) (operands : List Nameless)
  | branch (test consequent : Nameless) (alternative : Option Nameless)
  | assign (reference : Reference) (value : Nameless)

namespace Core

mutual

/-- the nameless form of an expression in the scope of some names, the last bound first; of equal parameters the last
hides those before it, and a rest parameter all of them -/
def nameless (scope : List String) : Core → Nameless
  | var name => .var (.ofName name scope)
  | val v => .val v
  | quote v => .quote v
  | letIn name value body => .letIn (value.nameless scope) (body.nameless (name :: scope))
  | lambda params rest body =>
    .lambda params.length rest.isSome (body.nameless ((binders params rest).reverse ++ scope))
  | app operator operands => .app (operator.nameless scope) (namelessAll scope operands)
  | branch test consequent none => .branch (test.nameless scope) (consequent.nameless scope) none
  | branch test consequent (some alternative) =>
    .branch (test.nameless scope) (consequent.nameless scope) (some (alternative.nameless scope))
  | assign name value => .assign (.ofName name scope) (value.nameless scope)

def namelessAll (scope : List String) : List Core → List Nameless
  | [] => []
  | e :: es => e.nameless scope :: namelessAll scope es

end

/-- the same expression up to the names of binders -/
def AlphaEq (e e' : Core) : Prop := e.nameless [] = e'.nameless []

end Core

open SchemeStack.Core

theorem RenamesAll.namelessAll_eq {S : NameRel} {scope scope' : List String} {es es' : List Core}
    (h : RenamesAll S es es') (hes : ∀ e ∈ es, ∀ e', Renames S e e' → e.nameless scope = e'.nameless scope') :
    namelessAll scope es = namelessAll scope' es' := by
  induction es generalizing es' with
  | nil =>
    cases h
    rfl
  | cons e es ih =>
    cases h with
    | cons he h =>
      rw [namelessAll, namelessAll, hes e List.mem_cons_self _ he, ih h fun e' he' =>
        hes e' (List.mem_cons_of_mem e he')]

/-- expressions that differ in names only have the same nameless form, if the names refer to the same -/
theorem Renames.nameless_eq {S : NameRel} {scope scope' : List String} {t u : Core} (h : Renames S t u)
    (hS : ∀ a b, S a b → Reference.ofName a scope = Reference.ofName b scope') :
    t.nameless scope = u.nameless scope' := by
  induction t generalizing S scope scope' u with
  | var name =>
    cases h with
    | var h => rw [nameless, nameless, hS _ _ h]
  | val v =>
    cases h
    rfl
  | quote v =>
    cases h
    rfl
  | letIn name value body ihv ihb =>
    cases h with
    | letIn hv hb => rw [nameless, nameless, ihv hv hS, ihb hb fun _ _ => Reference.ofName_bind hS]
  | lambda params rest body ih =>
    cases h with
    | lambda hb =>
      -- the scope has the parameters from last to first, which makes no difference to what is bound
      have hreverse : ∀ a b, S.bindSame (binders params rest) a b → S.bindSame (binders params rest).reverse a b := by
        intro a b h
        simpa only [NameRel.bindSame, List.mem_reverse] using h
      rw [nameless, nameless, ih hb fun a b h => Reference.ofName_bindSame hS (hreverse a b h)]
  | app operator operands ihf ihas =>
    cases h with
    | app hf has => rw [nameless, nameless, ihf hf hS, has.namelessAll_eq fun e he _ h => ihas e he h hS]
  | branch test consequent alternative iht ihc iha =>
    cases h with
    | branchNone ht hc => rw [nameless, nameless, iht ht hS, ihc hc hS]
    | branchSome ht hc ha => rw [nameless, nameless, iht ht hS, ihc hc hS, iha _ rfl ha hS]
  | assign name value ih =>
    cases h with
    | assign hn hv => rw [nameless, nameless, hS _ _ hn, ih hv hS]

namespace Core

variable {e : Core} {old new : String}

/-- with the name bound on both sides, an expression and its renamed form differ in names only -/
theorem renames_renameFree (h : new ∉ e.allNames) :
    Renames (NameRel.bind (· = ·) old new) e (e.renameFree old new) := by
  refine Renames.of_renameFree (.self (S := (· = ·)) fun _ _ => rfl) h ?_
  rintro c c' hc rfl
  by_cases hold : c = old
  · exact Or.inl ⟨hold, by rw [swapName, if_pos hold]⟩
  · have hfresh : c ≠ new := fun hnew => h (hnew ▸ mem_allNames_of_mem_freeNames hc)
    rw [swapName, if_neg hold]
    exact Or.inr ⟨hold, hfresh, rfl⟩

theorem alphaEq_renameFree (h : new ∉ e.allNames) (value : Core) :
    AlphaEq (letIn old value e) (letIn new value (e.renameFree old new)) := by
  have hrenames : Renames (· = ·) (letIn old value e) (letIn new value (e.renameFree old new)) :=
    .letIn (.self fun _ _ => rfl) (renames_renameFree h)
  refine hrenames.nameless_eq ?_
  rintro a b rfl
  rfl

/-! ## Binders -/

/-- what a node binds: a name, or parameters and perhaps a rest -/
inductive Binder where
  | name (x : String)
  | parameters (params : List String) (rest : Option String)
  deriving DecidableEq

def binder? : Core → Option Binder
  | letIn name _ _ => some (.name name)
  | lambda params rest _ => some (.parameters params rest)
  | _ => none

theorem binder?_renameFree (old new : String) (n : Core) : (n.renameFree old new).binder? = n.binder? := by
  cases n with
  | branch test consequent alternative => cases alternative <;> rfl
  | _ => rfl

/-- **Renaming to a fresh name is a substitution that captures nothing and can be undone.** Let the new name occur
nowhere in the expression. - The free names stay, but for the old name, which becomes the new one. - The binders, node
by node, are the same. - A binding of the old name around the expression is alpha-equivalent to one of the new name
around the renamed expression. - Renaming back yields the expression. -/
theorem renameFree_fresh (e : Core) (old new : String) (hnew : new ∉ e.allNames) :
    (∀ x, x ∈ (e.renameFree old new).freeNames ↔ x ∈ e.freeNames ∧ x ≠ old ∨ x = new ∧ old ∈ e.freeNames) ∧
    (e.renameFree old new).nodes.map binder? = e.nodes.map binder? ∧
    (∀ value, AlphaEq (letIn old value e) (letIn new value (e.renameFree old new))) ∧
    (e.renameFree old new).renameFree new old = e := by
  refine ⟨fun x => mem_freeNames_renameFree hnew, ?_, alphaEq_renameFree hnew, renameFree_renameFree hnew⟩
  exact map_nodes_renameFree (binder?_renameFree old new) e

/-- the old name is assigned, read in the value of a binding that hides it, and hidden by a rest parameter -/
theorem hidden_name_renamed :
    let e := app (lambda ["y"] (some "x") (var "x")) [assign "x" (var "y"), letIn "x" (var "x") (assign "x" (var "x"))]
    let e' := app (lambda ["y"] (some "x") (var "x")) [assign "z" (var "y"), letIn "x" (var "z") (assign "x" (var "x"))]
    "z" ∉ e.allNames ∧ e.renameFree "x" "z" = e' ∧ e'.renameFree "z" "x" = e ∧
      AlphaEq (letIn "x" (var "x") e) (letIn "z" (var "x") e') ∧ "z" ∈ e'.freeNames := by
  intro e e'
  have hnew : "z" ∉ e.allNames := by simp [e, binders]
  have heq : e.renameFree "x" "z" = e' := by decide
  obtain ⟨hfree, -, halpha, hback⟩ := renameFree_fresh e "x" "z" hnew
  rw [heq] at hfree halpha hback
  exact ⟨hnew, heq, hback, halpha (var "x"), (hfree "z").2 (Or.inr ⟨rfl, by decide⟩)⟩

end Core

end SchemeStack
