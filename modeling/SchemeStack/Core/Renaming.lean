/-
Renaming the free occurrences of a variable.

Occurrences in the scope of a binder of the old name are left alone. A renamed expression has the same shape as before,
so its size is the same (`size_renameFree`).
-/
import SchemeStack.Core.Variables

namespace SchemeStack.Core

/-- the new name for the old one, any other name for itself -/
def swapName (old new name : String) : String := if name = old then new else name

mutual

def renameFree (old new : String) : Core → Core
  | var name => var (swapName old new name)
  | val v => val v
  | quote v => quote v
  | letIn name value body =>
    letIn name (value.renameFree old new) (if name = old then body else body.renameFree old new)
  | lambda params rest body =>
    lambda params rest (if (binders params rest).contains old then body else body.renameFree old new)
  | app operator operands => app (operator.renameFree old new) (renameFreeAll old new operands)
  | branch test consequent none => branch (test.renameFree old new) (consequent.renameFree old new) none
  | branch test consequent (some alternative) =>
    branch (test.renameFree old new) (consequent.renameFree old new) (some (alternative.renameFree old new))
  | assign name value => assign (swapName old new name) (value.renameFree old new)

def renameFreeAll (old new : String) : List Core → List Core
  | [] => []
  | e :: es => e.renameFree old new :: renameFreeAll old new es

end

mutual

/-- renaming keeps the size -/
theorem size_renameFree (old new : String) : ∀ e : Core, (e.renameFree old new).size = e.size
  | var _ => rfl
  | val _ => rfl
  | quote _ => rfl
  | letIn name value body => by
    have hv := size_renameFree old new value
    have hb := size_renameFree old new body
    by_cases h : name = old <;> simp [renameFree, size, h, hv, hb]
  | lambda params rest body => by
    have hb := size_renameFree old new body
    by_cases h : old ∈ binders params rest <;> simp [renameFree, size, h, hb]
  | app operator operands => by
    have hf := size_renameFree old new operator
    have ha := sizeAll_renameFreeAll old new operands
    simp [renameFree, size, hf, ha]
  | branch test consequent none => by
    have ht := size_renameFree old new test
    have hc := size_renameFree old new consequent
    simp [renameFree, size, ht, hc]
  | branch test consequent (some alternative) => by
    have ht := size_renameFree old new test
    have hc := size_renameFree old new consequent
    have ha := size_renameFree old new alternative
    simp [renameFree, size, ht, hc, ha]
  | assign name value => by
    have hv := size_renameFree old new value
    simp [renameFree, size, hv]

theorem sizeAll_renameFreeAll (old new : String) :
    ∀ es : List Core, sizeAll (renameFreeAll old new es) = sizeAll es
  | [] => rfl
  | e :: es => by
    have he := size_renameFree old new e
    have hes := sizeAll_renameFreeAll old new es
    simp [renameFreeAll, he, hes]

end

end SchemeStack.Core
