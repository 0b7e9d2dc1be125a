/-
Computations that leave notes behind, and may fail.

The notes of a computation are kept when it fails: they tell what was done up to the fault. The outcome does not depend
on them (`outcome_bind`), so a fact about results is proved in `Except` alone.
-/
namespace SchemeStack

/-- an outcome, with the notes taken on the way to it -/
structure Traced (ν ε α : Type) where
  notes : List ν
  outcome : Except ε α

namespace Traced

variable {ν ε α β : Type}

def fail (fault : ε) : Traced ν ε α := ⟨[], .error fault⟩

def note (n : ν) : Traced ν ε Unit := ⟨[n], .ok ()⟩

def ofExcept (outcome : Except ε α) : Traced ν ε α := ⟨[], outcome⟩

/-- one computation after another, unless the first fails -/
def andThen (x : Traced ν ε α) (f : α → Traced ν ε β) : Traced ν ε β :=
  match x.outcome with
  | .ok a => ⟨x.notes ++ (f a).notes, (f a).outcome⟩
  | .error fault => ⟨x.notes, .error fault⟩

instance : Monad (Traced ν ε) where
  pure a := ⟨[], .ok a⟩
  bind := andThen

theorem andThen_pure (x : Traced ν ε α) : x.andThen (fun a => ⟨[], .ok a⟩) = x := by
  obtain ⟨notes, outcome⟩ := x
  cases outcome with
  | ok a => simp [andThen]
  | error fault => rfl

theorem andThen_assoc {γ : Type} (x : Traced ν ε α) (f : α → Traced ν ε β) (g : β → Traced ν ε γ) :
    (x.andThen f).andThen g = x.andThen fun a => (f a).andThen g := by
  obtain ⟨notes, outcome⟩ := x
  cases outcome with
  | error fault => rfl
  | ok a =>
    change andThen ⟨notes ++ (f a).notes, (f a).outcome⟩ g =
      ⟨notes ++ ((f a).andThen g).notes, ((f a).andThen g).outcome⟩
    obtain ⟨notes', outcome'⟩ := f a
    cases outcome' with
    | ok b => simp [andThen]
    | error fault => rfl

instance : LawfulMonad (Traced ν ε) := .mk' _ andThen_pure (fun _ _ => rfl) andThen_assoc

/-- the same computation with other notes and faults -/
def relabel {ν' ε' : Type} (onNote : ν → ν') (onFault : ε → ε') (x : Traced ν ε α) : Traced ν' ε' α :=
  ⟨x.notes.map onNote, x.outcome.mapError onFault⟩

@[simp] theorem outcome_pure (a : α) : (pure a : Traced ν ε α).outcome = .ok a := rfl

@[simp] theorem outcome_fail (fault : ε) : (fail fault : Traced ν ε α).outcome = .error fault := rfl

@[simp] theorem outcome_note (n : ν) : (note n : Traced ν ε Unit).outcome = .ok () := rfl

@[simp] theorem outcome_ofExcept (r : Except ε α) : (ofExcept r : Traced ν ε α).outcome = r := rfl

@[simp] theorem outcome_bind (x : Traced ν ε α) (f : α → Traced ν ε β) :
    (x >>= f).outcome = x.outcome >>= fun a => (f a).outcome := by
  cases x with
  | mk notes outcome => cases outcome <;> rfl

@[simp] theorem outcome_map (f : α → β) (x : Traced ν ε α) : (f <$> x).outcome = x.outcome.map f := by
  cases x with
  | mk notes outcome => cases outcome <;> rfl

end Traced

end SchemeStack
