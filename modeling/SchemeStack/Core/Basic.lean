/-
The core language: eight kinds of expression, which all others are explained by.

A binding binds one name, and sequences, loops and the other derived forms are gone: they are applications of
procedures. An expression is atomic if it is a variable, a constant or a quoted constant.

`children` lists the parts of an expression in the order in which they are evaluated: the operands of an application
come before its operator. `nodes` lists an expression with all that is inside it, each node before its children. It
works off a stack of expressions still to visit, so no tree is too deep for it; the total size of the stack goes down
by one at each node (`sizeAll_children`).
-/
import SchemeStack.Core.Value

namespace SchemeStack

inductive Core where
  | var (name : String)
  | val (v : Value)
  | quote (v : Value)
  | letIn (name : String) (value body : Core)
  | lambda (params : List String) (rest : Option String) (body : Core)
  | app (operator : Core) (operands : List Core)
  | branch (test consequent : Core) (alternative : Option Core)
  | assign (name : String) (value : Core)
  deriving Inhabited

namespace Core

def truth : Core := val (.boolean true)

def falsity : Core := val (.boolean false)

/-- a variable, a constant or a quoted constant -/
def isAtomic : Core → Bool
  | var _ => true
  | val _ => true
  | quote _ => true
  | _ => false

/-- the parts of an expression, in the order of their evaluation -/
def children : Core → List Core
  | var _ => []
  | val _ => []
  | quote _ => []
  | letIn _ value body => [value, body]
  | lambda _ _ body => [body]
  | app operator operands => operands ++ [operator]
  | branch test consequent none => [test, consequent]
  | branch test consequent (some alternative) => [test, consequent, alternative]
  | assign _ value => [value]

mutual

def size : Core → Nat
  | var _ => 1
  | val _ => 1
  | quote _ => 1
  | letIn _ value body => value.size + body.size + 1
  | lambda _ _ body => body.size + 1
  | app operator operands => sizeAll operands + operator.size + 1
  | branch test consequent none => test.size + consequent.size + 1
  | branch test consequent (some alternative) => test.size + consequent.size + alternative.size + 1
  | assign _ value => value.size + 1

def sizeAll : List Core → Nat
  | [] => 0
  | e :: es => e.size + sizeAll es

end

@[simp] theorem sizeAll_nil : sizeAll [] = 0 := rfl

@[simp] theorem sizeAll_cons (e : Core) (es : List Core) : sizeAll (e :: es) = e.size + sizeAll es := rfl

@[simp] theorem sizeAll_append (as bs : List Core) : sizeAll (as ++ bs) = sizeAll as + sizeAll bs := by
  induction as with
  | nil => simp
  | cons e es ih => simp [ih, Nat.add_assoc]

@[simp] theorem sizeAll_reverse (es : List Core) : sizeAll es.reverse = sizeAll es := by
  induction es with
  | nil => rfl
  | cons e es ih => simp [ih, Nat.add_comm]

/-- an expression is one node more than its children -/
theorem sizeAll_children (e : Core) : sizeAll e.children + 1 = e.size := by
  cases e with
  | branch test consequent alternative => cases alternative <;> simp [children, size, Nat.add_assoc]
  | _ => simp [children, size]

/-- the nodes of the expressions on a stack, the first one's first -/
def nodesOf : List Core → List Core
  | [] => []
  | e :: stack => e :: nodesOf (e.children ++ stack)
termination_by stack => sizeAll stack
decreasing_by
  have := sizeAll_children e
  simp only [sizeAll_append, sizeAll_cons]
  omega

/-- an expression and all expressions inside it, each before its children -/
def nodes (e : Core) : List Core := nodesOf [e]

mutual

def beq : Core → Core → Bool
  | var x, var y => x == y
  | val a, val b => a == b
  | quote a, quote b => a == b
  | letIn x v e, letIn y w f => x == y && (v.beq w && e.beq f)
  | lambda ps r e, lambda qs s f => ps == qs && (r == s && e.beq f)
  | app f as, app g bs => f.beq g && beqAll as bs
  | branch t c none, branch u d none => t.beq u && c.beq d
  | branch t c (some a), branch u d (some b) => t.beq u && (c.beq d && a.beq b)
  | assign x v, assign y w => x == y && v.beq w
  | _, _ => false

def beqAll : List Core → List Core → Bool
  | [], [] => true
  | a :: as, b :: bs => a.beq b && beqAll as bs
  | _, _ => false

end

mutual

theorem beq_iff_eq : ∀ a b : Core, a.beq b = true ↔ a = b
  | var x, b => by cases b <;> simp [beq]
  | val v, b => by cases b <;> simp [beq]
  | quote v, b => by cases b <;> simp [beq]
  | letIn x v e, b => by cases b <;> simp [beq, beq_iff_eq v, beq_iff_eq e]
  | lambda ps r e, b => by cases b <;> simp [beq, beq_iff_eq e]
  | app f as, b => by cases b <;> simp [beq, beq_iff_eq f, beqAll_iff_eq as]
  | branch t c none, b => by
    cases b with
    | branch u d alternative => cases alternative <;> simp [beq, beq_iff_eq t, beq_iff_eq c]
    | _ => simp [beq]
  | branch t c (some a), b => by
    cases b with
    | branch u d alternative => cases alternative <;> simp [beq, beq_iff_eq t, beq_iff_eq c, beq_iff_eq a]
    | _ => simp [beq]
  | assign x v, b => by cases b <;> simp [beq, beq_iff_eq v]

theorem beqAll_iff_eq : ∀ as bs : List Core, beqAll as bs = true ↔ as = bs
  | [], bs => by cases bs <;> simp [beqAll]
  | a :: as, bs => by cases bs <;> simp [beqAll, beq_iff_eq a, beqAll_iff_eq as]

end

instance : DecidableEq Core := fun a b => decidable_of_iff _ (beq_iff_eq a b)

end Core

end SchemeStack
