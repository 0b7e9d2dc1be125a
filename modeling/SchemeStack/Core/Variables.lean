/-
The census of variables: which names an expression mentions, binds, leaves free, assigns and captures.

A binding binds its name in its body and not in its value; a procedure binds its parameters and its rest parameter in
its body. A name is free if it is mentioned outside the scope of all its binders. The free names that are assigned, and
those mentioned inside a procedure, decide which variables need a cell of their own when code is generated.

The lists may hold a name several times; what counts is membership. `sortedNames` makes a list of names into the
increasing list of its members.

`hasEffect` tells whether evaluating an expression may have an effect. Assignments count wherever they stand. Calls
count, if asked for, unless they stand in a procedure, which is not run when it is made.
-/
import SchemeStack.Core.Basic

namespace SchemeStack

/-- a name put into an increasing list, unless it is there -/
def insertName (name : String) : List String → List String
  | [] => [name]
  | other :: names =>
    if name < other then name :: other :: names
    else if name = other then other :: names
    else other :: insertName name names

/-- the different names of a list, in increasing order of their code points -/
def sortedNames (names : List String) : List String := names.foldr insertName []

namespace Core

/-- the names that a procedure binds -/
def binders (params : List String) (rest : Option String) : List String := params ++ rest.toList

mutual

/-- the names mentioned outside the scope of their binders -/
def freeNames : Core → List String
  | var name => [name]
  | val _ => []
  | quote _ => []
  | letIn name value body => value.freeNames ++ body.freeNames.filter (· != name)
  | lambda params rest body => body.freeNames.filter (!(binders params rest).contains ·)
  | app operator operands => freeNamesAll operands ++ operator.freeNames
  | branch test consequent none => test.freeNames ++ consequent.freeNames
  | branch test consequent (some alternative) => test.freeNames ++ consequent.freeNames ++ alternative.freeNames
  | assign name value => name :: value.freeNames

def freeNamesAll : List Core → List String
  | [] => []
  | e :: es => e.freeNames ++ freeNamesAll es

end

mutual

/-- the free names that are assigned -/
def assignedNames : Core → List String
  | var _ => []
  | val _ => []
  | quote _ => []
  | letIn name value body => value.assignedNames ++ body.assignedNames.filter (· != name)
  | lambda params rest body => body.assignedNames.filter (!(binders params rest).contains ·)
  | app operator operands => assignedNamesAll operands ++ operator.assignedNames
  | branch test consequent none => test.assignedNames ++ consequent.assignedNames
  | branch test consequent (some alternative) =>
    test.assignedNames ++ consequent.assignedNames ++ alternative.assignedNames
  | assign name value => name :: value.assignedNames

def assignedNamesAll : List Core → List String
  | [] => []
  | e :: es => e.assignedNames ++ assignedNamesAll es

end

mutual

/-- the free names that are mentioned inside a procedure -/
def capturedNames : Core → List String
  | var _ => []
  | val _ => []
  | quote _ => []
  | letIn name value body => value.capturedNames ++ body.capturedNames.filter (· != name)
  | lambda params rest body => (lambda params rest body).freeNames
  | app operator operands => capturedNamesAll operands ++ operator.capturedNames
  | branch test consequent none => test.capturedNames ++ consequent.capturedNames
  | branch test consequent (some alternative) =>
    test.capturedNames ++ consequent.capturedNames ++ alternative.capturedNames
  | assign _ value => value.capturedNames

def capturedNamesAll : List Core → List String
  | [] => []
  | e :: es => e.capturedNames ++ capturedNamesAll es

end

/-- the name that a node reads or assigns -/
def mention : Core → List String
  | var name => [name]
  | assign name _ => [name]
  | _ => []

def bind : Core → List String
  | letIn name _ _ => [name]
  | lambda params rest _ => binders params rest
  | _ => []

def mentionedNames (e : Core) : List String := e.nodes.flatMap mention

def boundNames (e : Core) : List String := e.nodes.flatMap bind

def nodeNames (e : Core) : List String := e.mention ++ e.bind

/-- all names of an expression, in the order of its nodes -/
def allNames (e : Core) : List String := e.nodes.flatMap nodeNames

def isLambda : Core → Bool
  | lambda _ _ _ => true
  | _ => false

/-- the node has an effect of its own; `calls` tells whether a call counts as one -/
def isEffect (calls : Bool) : Core → Bool
  | assign _ _ => true
  | app _ _ => calls
  | _ => false

/-- an effect among expressions still to visit, each with whether it stands in a procedure -/
def effectAmong (calls : Bool) : List (Core × Bool) → Bool
  | [] => false
  | (e, inLambda) :: stack =>
    e.isEffect (calls && !inLambda) ||
      effectAmong calls ((e.children.map fun child => (child, inLambda || e.isLambda)).reverse ++ stack)
termination_by stack => sizeAll (stack.map (·.1))
decreasing_by
  have := sizeAll_children e
  simp only [List.map_append, List.map_reverse, List.map_map, Function.comp_def, List.map_id', sizeAll_append,
    sizeAll_reverse, List.map_cons, sizeAll_cons]
  omega

/-- evaluating the expression may have an effect; `calls` tells whether calls count -/
def hasEffect (e : Core) (calls : Bool) : Bool := effectAmong calls [(e, false)]

end Core

end SchemeStack
