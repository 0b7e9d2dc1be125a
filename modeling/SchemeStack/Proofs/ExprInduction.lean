/-
Induction over data and over surface expressions, and what a well-formed expression is.

Functions on data go along chains and into their elements, several pairs at a time. `Datum.Below` is the hypothesis
that suits them: it is there for all smaller data (`Datum.below_induct`).

An expression has its parts in lists, bindings, clauses and bodies. `Expr.parts` lists them all, in the order in which
they are written, so that one induction principle serves for all fifteen kinds of expression (`Expr.induct`), and a
property of all nodes is one predicate (`Expr.Every`).

An expression is well-formed (`Expr.WellFormed`) if no body in it is empty and no constant is a pair. The body of the
final clause of a conditional may be empty.
-/
import SchemeStack.Expr.Basic

namespace SchemeStack

namespace Datum

/-- `P` is true of all smaller data -/
def Below (P : Datum → Prop) (d : Datum) : Prop := ∀ d', sizeOf d' < sizeOf d → P d'

/-- induction over a datum, with the hypothesis for all smaller data -/
theorem below_induct {P : Datum → Prop} (step : ∀ d, Below P d → P d) (d : Datum) : P d := by
  induction hsize : sizeOf d using Nat.strongRecOn generalizing d with
  | ind size ih =>
    subst hsize
    exact step d fun d' hd' => ih _ hd' d' rfl

namespace Below

variable {P : Datum → Prop} {first rest : Datum} {m : Source.Mark}

theorem inHead (h : Below P (pair first rest m)) : Below P first := by
  intro d' hd'
  refine h d' ?_
  simp only [pair.sizeOf_spec]
  omega

theorem inTail (h : Below P (pair first rest m)) : Below P rest := by
  intro d' hd'
  refine h d' ?_
  simp only [pair.sizeOf_spec]
  omega

theorem head (h : Below P (pair first rest m)) : P first := by
  refine h first ?_
  simp only [pair.sizeOf_spec]
  omega

theorem tail (h : Below P (pair first rest m)) : P rest := by
  refine h rest ?_
  simp only [pair.sizeOf_spec]
  omega

end Below

end Datum

namespace Expr

/-- the expressions that an expression is made of -/
def parts : Expr → List Expr
  | literal _ => []
  | var _ => []
  | quotation _ => []
  | call operator operands => operator :: operands
  | lambda _ _ body => body
  | branch test consequent alternative => test :: consequent :: alternative.toList
  | assign _ value => [value]
  | letIn bindings body => bindings.map (·.value) ++ body
  | letRec bindings body => bindings.map (·.value) ++ body
  | namedLet _ bindings body => bindings.map (·.value) ++ body
  | sequence body => body
  | cond clauses otherwise => clauses.flatMap (fun c => c.test :: c.body) ++ otherwise.getD []
  | conj body => body
  | disj body => body
  | template _ body => [body]

/-- induction over an expression, with the hypothesis for each of its parts -/
@[elab_as_elim]
theorem induct {motive : Expr → Prop} (step : ∀ e, (∀ p ∈ e.parts, motive p) → motive e) (e : Expr) : motive e := by
  -- the recursor goes through lists, bindings and clauses; for each it proves the property of all parts in them
  refine @Expr.rec motive (fun es => ∀ p ∈ es, motive p) (fun o => ∀ p ∈ o, motive p)
    (fun bs => ∀ p ∈ bs.map (·.value), motive p) (fun cs => ∀ p ∈ cs.flatMap fun c => c.test :: c.body, motive p)
    (fun o => ∀ p ∈ o.getD [], motive p) (fun b => motive b.value) (fun c => ∀ p ∈ c.test :: c.body, motive p)
    (fun d => step _ ?_) (fun name => step _ ?_) (fun d => step _ ?_) (fun f es hf hes => step _ ?_)
    (fun params rest body hbody => step _ hbody) (fun t c a ht hc ha => step _ ?_) (fun name v hv => step _ ?_)
    (fun bs body hbs hbody => step _ ?_) (fun bs body hbs hbody => step _ ?_) (fun name bs body hbs hbody => step _ ?_)
    (fun body hbody => step _ hbody) (fun cs o hcs ho => step _ ?_) (fun body hbody => step _ hbody)
    (fun body hbody => step _ hbody) (fun depth body hbody => step _ ?_) ?_ ?_ ?_ ?_ ?_ ?_ ?_ ?_ ?_ ?_ ?_ ?_ e
  all_goals simp only [parts, List.mem_append, List.mem_cons, List.not_mem_nil, List.map_nil, List.map_cons,
    List.flatMap_nil, List.flatMap_cons, Option.mem_toList, Option.getD_none, Option.getD_some, Option.mem_def]
  all_goals grind

/-- every node of the expression has the property -/
inductive Every (Q : Expr → Prop) : Expr → Prop
  | node {e : Expr} : Q e → (∀ p ∈ e.parts, Every Q p) → Every Q e

theorem Every.root {Q : Expr → Prop} {e : Expr} (h : e.Every Q) : Q e := by
  cases h with
  | node h _ => exact h

theorem Every.part {Q : Expr → Prop} {e p : Expr} (h : e.Every Q) (hp : p ∈ e.parts) : p.Every Q := by
  cases h with
  | node _ h => exact h p hp

theorem Every.imp {Q R : Expr → Prop} (hQR : ∀ e, Q e → R e) {e : Expr} (h : e.Every Q) : e.Every R := by
  induction h with
  | node hq _ ih => exact .node (hQR _ hq) ih

/-- the bodies of the expression itself are not empty, and it is not the constant of a pair -/
def isFormed : Expr → Bool
  | literal d => !d.isPair
  | quotation d => !d.isPair
  | lambda _ _ body => !body.isEmpty
  | letIn _ body => !body.isEmpty
  | letRec _ body => !body.isEmpty
  | namedLet _ _ body => !body.isEmpty
  | sequence body => !body.isEmpty
  | cond clauses _ => clauses.all fun c => !c.body.isEmpty
  | _ => true

/-- no body in the expression is empty, and no constant is a pair -/
def WellFormed (e : Expr) : Prop := e.Every fun n => n.isFormed = true

/-- a check of all nodes, for an expression that is not deeper than `height` -/
def checkFormed : (height : Nat) → Expr → Bool
  | 0, _ => false
  | height + 1, e => e.isFormed && e.parts.all (checkFormed height)

theorem wellFormed_of_checkFormed (height : Nat) {e : Expr} (h : e.checkFormed height = true) : e.WellFormed := by
  induction height generalizing e with
  | zero => cases h
  | succ height ih =>
    obtain ⟨hroot, hparts⟩ := Bool.and_eq_true_iff.1 h
    exact .node hroot fun p hp => ih (List.all_eq_true.1 hparts p hp)

end Expr

end SchemeStack
