/-
Removing dead bindings: those whose name is not used and whose value has no effect.

The value and the body are treated first, so a binding that is used only by dead ones is dead too. Calls count as
effects, since a procedure that is not known may do anything.

`deadNames` lists the names of the removed bindings in the order of their removal.
-/
import SchemeStack.Core.Variables

namespace SchemeStack.Core

/-- the binding of the name to the value around the body is of no use -/
def isDead (name : String) (value body : Core) : Bool :=
  !body.freeNames.contains name && !value.hasEffect true

mutual

/-- the expression without its dead bindings -/
def dropDead : Core → Core
  | var name => var name
  | val v => val v
  | quote v => quote v
  | letIn name value body =>
    let v := value.dropDead
    let b := body.dropDead
    if isDead name v b then b else letIn name v b
  | lambda params rest body => lambda params rest body.dropDead
  | app operator operands => app operator.dropDead (dropDeadAll operands)
  | branch test consequent none => branch test.dropDead consequent.dropDead none
  | branch test consequent (some alternative) =>
    branch test.dropDead consequent.dropDead (some alternative.dropDead)
  | assign name value => assign name value.dropDead

def dropDeadAll : List Core → List Core
  | [] => []
  | e :: es => e.dropDead :: dropDeadAll es

end

mutual

/-- the names of the bindings that are removed, in the order of their removal -/
def deadNames : Core → List String
  | var _ => []
  | val _ => []
  | quote _ => []
  | letIn name value body =>
    value.deadNames ++ body.deadNames ++ (if isDead name value.dropDead body.dropDead then [name] else [])
  | lambda _ _ body => body.deadNames
  | app operator operands => operator.deadNames ++ deadNamesAll operands
  | branch test consequent none => test.deadNames ++ consequent.deadNames
  | branch test consequent (some alternative) =>
    alternative.deadNames ++ test.deadNames ++ consequent.deadNames
  | assign _ value => value.deadNames

def deadNamesAll : List Core → List String
  | [] => []
  | e :: es => e.deadNames ++ deadNamesAll es

end

end SchemeStack.Core
