/-
A-normal form: every operator, operand and test is atomic, and no binding is bound to a binding.

    (f (g x) (h y))   becomes   (let (($g0 (g x)))
                                    (let (($g1 (h y)))
                                        (f $g0 $g1)))

Two steps lead there. `nameParts` binds each part that is not atomic to a fresh name, in the order of evaluation: the
operator first, then the operands from left to right. `liftLets` moves a binding out of the value of another binding.
A name that moves to where it would capture a free name of the body it is moved over gets a fresh one, if asked for.

Both draw fresh names from a supply: a symbol table, with a record of what the names were used for. `normalForm`
interns all names of the expression before, so no fresh name meets one of them.
-/
import SchemeStack.Core.Renaming
import SchemeStack.SymbolTable

namespace SchemeStack

/-- the places whose expressions are bound to fresh names -/
inductive Place where
  | test
  | operator
  | operand
  deriving DecidableEq

/-- what a fresh name was used for -/
inductive NormalEvent where
  | named (place : Place) (fresh : String)
  | renamed (old fresh : String)
  deriving DecidableEq

/-- the source of fresh names -/
structure Supply where
  table : SymbolTable
  /-- what was done so far, the last first -/
  events : List NormalEvent

namespace Supply

def ofTable (table : SymbolTable) : Supply := ⟨table, []⟩

/-- a fresh name, and the supply after it, with a record of its use -/
def mint (s : Supply) (event : String → NormalEvent) : String × Supply :=
  let g := s.table.mint
  (g.1, ⟨g.2, event g.1 :: s.events⟩)

end Supply

namespace Core

/-- expressions bound to names around another, the first outermost -/
def bindAll (bindings : List (String × Core)) (body : Core) : Core :=
  bindings.foldr (fun b e => letIn b.1 b.2 e) body

mutual

/-- binds every test, operator and operand that is not atomic to a fresh name -/
def nameParts : Core → Supply → Core × Supply
  | var name, s => (var name, s)
  | val v, s => (val v, s)
  | quote v, s => (quote v, s)
  | letIn name value body, s =>
    let v := value.nameParts s
    let b := body.nameParts v.2
    (letIn name v.1 b.1, b.2)
  | lambda params rest body, s =>
    let b := body.nameParts s
    (lambda params rest b.1, b.2)
  | app operator operands, s =>
    if operator.isAtomic then
      let as := nameOperands operands s
      (bindAll as.1.2 (app operator as.1.1), as.2)
    else
      let g := s.mint (.named .operator)
      let f := operator.nameParts g.2
      let as := nameOperands operands f.2
      (letIn g.1 f.1 (bindAll as.1.2 (app (var g.1) as.1.1)), as.2)
  | branch test consequent none, s =>
    if test.isAtomic then
      let c := consequent.nameParts s
      (branch test c.1 none, c.2)
    else
      let g := s.mint (.named .test)
      let t := test.nameParts g.2
      let c := consequent.nameParts t.2
      (letIn g.1 t.1 (branch (var g.1) c.1 none), c.2)
  | branch test consequent (some alternative), s =>
    if test.isAtomic then
      let c := consequent.nameParts s
      let a := alternative.nameParts c.2
      (branch test c.1 (some a.1), a.2)
    else
      let g := s.mint (.named .test)
      let t := test.nameParts g.2
      let c := consequent.nameParts t.2
      let a := alternative.nameParts c.2
      (letIn g.1 t.1 (branch (var g.1) c.1 (some a.1)), a.2)
  | assign name value, s =>
    let v := value.nameParts s
    (assign name v.1, v.2)

/-- atoms for operands, with the bindings of those that were not atomic -/
def nameOperands : List Core → Supply → (List Core × List (String × Core)) × Supply
  | [], s => (([], []), s)
  | e :: es, s =>
    if e.isAtomic then
      let r := nameOperands es s
      ((e :: r.1.1, r.1.2), r.2)
    else
      let g := s.mint (.named .operand)
      let v := e.nameParts g.2
      let r := nameOperands es v.2
      ((var g.1 :: r.1.1, (g.1, v.1) :: r.1.2), r.2)

end

/-- binds a name to a value, the bindings at the top of the value moved outside; `hygienic` asks for a fresh name where
one of them would capture a free name of the body -/
def bindLifted (hygienic : Bool) (name : String) (body : Core) : (value : Core) → Supply → Core × Supply
  | letIn inner innerValue innerBody, s =>
    if hygienic && inner != name && body.freeNames.contains inner then
      let g := s.mint (.renamed inner)
      let r := bindLifted hygienic name body (innerBody.renameFree inner g.1) g.2
      (letIn g.1 innerValue r.1, r.2)
    else
      let r := bindLifted hygienic name body innerBody s
      (letIn inner innerValue r.1, r.2)
  | value, s => (letIn name value body, s)
termination_by value => value.size
decreasing_by
  · rw [size_renameFree]
    simp only [size]
    omega
  · simp only [size]
    omega

mutual

/-- moves bindings out of the values of bindings, everywhere -/
def liftLets (hygienic : Bool) : Core → Supply → Core × Supply
  | var name, s => (var name, s)
  | val v, s => (val v, s)
  | quote v, s => (quote v, s)
  | letIn name value body, s =>
    let v := value.liftLets hygienic s
    let b := body.liftLets hygienic v.2
    bindLifted hygienic name b.1 v.1 b.2
  | lambda params rest body, s =>
    let b := body.liftLets hygienic s
    (lambda params rest b.1, b.2)
  | app operator operands, s =>
    let f := operator.liftLets hygienic s
    let as := liftLetsAll hygienic operands f.2
    (app f.1 as.1, as.2)
  | branch test consequent none, s =>
    let t := test.liftLets hygienic s
    let c := consequent.liftLets hygienic t.2
    (branch t.1 c.1 none, c.2)
  | branch test consequent (some alternative), s =>
    let a := alternative.liftLets hygienic s
    let t := test.liftLets hygienic a.2
    let c := consequent.liftLets hygienic t.2
    (branch t.1 c.1 (some a.1), c.2)
  | assign name value, s =>
    let v := value.liftLets hygienic s
    (assign name v.1, v.2)

def liftLetsAll (hygienic : Bool) : List Core → Supply → List Core × Supply
  | [], s => ([], s)
  | e :: es, s =>
    let r := e.liftLets hygienic s
    let rs := liftLetsAll hygienic es r.2
    (r.1 :: rs.1, rs.2)

end

def internNames (e : Core) (t : SymbolTable) : SymbolTable := t.internAll e.allNames

def normalForm (e : Core) (s : Supply) : Core × Supply :=
  let named := e.nameParts { s with table := e.internNames s.table }
  named.1.liftLets true named.2

end Core

end SchemeStack
