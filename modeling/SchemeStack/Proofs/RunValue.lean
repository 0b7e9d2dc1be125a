/-
Values at run time, what callees that are not closures answer, and memories.

A run-time value is a constant, a value of some type `α` that is made elsewhere (a built-in procedure, say), a pair,
or a closure. What a closure is depends on what runs: expressions and machine code have closures of their own, so the
type `κ` of closures is a parameter. A value without closures is plain: `Plain α` has no closures at all.

`Builtins α` fixes what a callee that is not a closure answers. It sees plain values only and answers with one, so it
means the same wherever the program runs (`answer`).

`RunValue.Forall` tells that the closures inside a value have some property, `Memory.Forall` that those in a memory
have it.

`RunValue.Rel` relates values that are the same up to their closures. On plain values it is equality
(`Rel.embed_left`, `Rel.embed_right`), and related callees give the same answer to related arguments (`answer_rel`).
-/
import Mathlib.Data.List.Forall2
import Mathlib.Data.List.Induction
import SchemeStack.Core.Value

namespace SchemeStack

theorem optionRel_mono {β γ : Type} {R S : β → γ → Prop} (h : ∀ b c, R b c → S b c) {o : Option β} {o' : Option γ}
    (ho : Option.Rel R o o') : Option.Rel S o o' := by
  cases ho with
  | some hr => exact .some (h _ _ hr)
  | none => exact .none

theorem optionRel_iff {β γ : Type} {R : β → γ → Prop} {o : Option β} {o' : Option γ} :
    Option.Rel R o o' ↔ o = none ∧ o' = none ∨ ∃ b c, o = some b ∧ o' = some c ∧ R b c := by
  constructor
  · intro h
    cases h with
    | none => exact Or.inl ⟨rfl, rfl⟩
    | some h => exact Or.inr ⟨_, _, rfl, rfl, h⟩
  · rintro (⟨rfl, rfl⟩ | ⟨b, c, rfl, rfl, h⟩)
    · exact .none
    · exact .some h

theorem optionRel_map_cons {β γ : Type} {R : β → γ → Prop} {b : β} {c : γ} {o : Option (List β)} {o' : Option (List γ)}
    (hbc : R b c) (ho : Option.Rel (List.Forall₂ R) o o') :
    Option.Rel (List.Forall₂ R) (o.map (b :: ·)) (o'.map (c :: ·)) := by
  cases ho with
  | some h => exact .some (.cons hbc h)
  | none => exact .none

theorem optionRel_bind_cons {β γ : Type} {R : β → γ → Prop} {a : Option β} {a' : Option γ} {o : Option (List β)}
    {o' : Option (List γ)} (ha : Option.Rel R a a') (ho : Option.Rel (List.Forall₂ R) o o') :
    Option.Rel (List.Forall₂ R) (a.bind fun b => o.map (b :: ·)) (a'.bind fun c => o'.map (c :: ·)) := by
  cases ha with
  | some h => exact optionRel_map_cons h ho
  | none => exact .none

theorem forall₂_getElem? {β γ : Type} {R : β → γ → Prop} {bs : List β} {cs : List γ}
    (h : List.Forall₂ R bs cs) {i : Nat} {b : β} (hb : bs[i]? = some b) : ∃ c, cs[i]? = some c ∧ R b c := by
  induction h generalizing i with
  | nil => simp at hb
  | cons hr _ ih =>
    cases i with
    | zero => cases hb; exact ⟨_, rfl, hr⟩
    | succ i => exact ih (by simpa using hb)

/-- in a list of names that are numbered from the front and searched from the back, a name is not found, or found with
its last index, counted from whatever number comes first -/
theorem lookup_zipIdx (names : List String) (x : String) :
    (x ∉ names ∧ ∀ first, (names.zipIdx first).reverse.lookup x = none) ∨
      ∃ i, names[i]? = some x ∧ ∀ first, (names.zipIdx first).reverse.lookup x = some (first + i) := by
  induction names using List.reverseRecOn with
  | nil => simp
  | append_singleton names name ih =>
    simp only [List.zipIdx_append, List.zipIdx_singleton, List.reverse_append, List.reverse_singleton,
      List.singleton_append, List.lookup_cons]
    by_cases hx : x = name
    · subst hx
      exact Or.inr ⟨names.length, by simp, by simp⟩
    · have hbeq : (x == name) = false := by simpa using hx
      rcases ih with ⟨hmem, hnone⟩ | ⟨i, hi, hsome⟩
      · exact Or.inl ⟨by simp [hmem, hx], by simp [hbeq, hnone]⟩
      · have hlt := (List.getElem?_eq_some_iff.1 hi).1
        exact Or.inr ⟨i, by rw [List.getElem?_append_left hlt, hi], by simp [hbeq, hsome]⟩

inductive RunValue (α κ : Type) where
  | atom (v : Value)
  | foreign (a : α)
  | pair (first second : RunValue α κ)
  | closure (c : κ)
  deriving DecidableEq

/-- a value without closures -/
abbrev Plain (α : Type) := RunValue α Empty

/-- what a callee that is not a closure answers to its arguments, if it answers -/
abbrev Builtins (α : Type) := Plain α → List (Plain α) → Option (Plain α)

namespace RunValue

variable {α κ κ' : Type}

/-- a plain value among all values -/
def embed : Plain α → RunValue α κ
  | atom v => atom v
  | foreign a => foreign a
  | pair a b => pair (embed a) (embed b)

/-- the plain value that a value is, if it has no closure inside -/
def plain? : RunValue α κ → Option (Plain α)
  | atom v => some (atom v)
  | foreign a => some (foreign a)
  | pair a b => a.plain?.bind fun x => b.plain?.map fun y => pair x y
  | closure _ => none

/-- the value counts as false: only the constant false does -/
def isFalse : RunValue α κ → Bool
  | atom (.boolean b) => !b
  | _ => false

def ofList : List (RunValue α κ) → RunValue α κ
  | [] => atom .nil
  | v :: vs => pair v (ofList vs)

/-- the values that a procedure's parameters take, the rest parameter last; none if their number does not fit -/
def arguments? (params : Nat) (rest : Bool) (args : List (RunValue α κ)) : Option (List (RunValue α κ)) :=
  if rest then
    if params ≤ args.length then some (args.take params ++ [ofList (args.drop params)]) else none
  else if args.length = params then some args else none

/-- the answer of a callee that is not a closure -/
def answer (builtins : Builtins α) (callee : RunValue α κ) (args : List (RunValue α κ)) : Option (Plain α) :=
  callee.plain?.bind fun f => (args.mapM plain?).bind fun xs => builtins f xs

/-- as many values as the procedure has parameters, the rest parameter counted -/
theorem length_arguments? {params : Nat} {rest : Bool} {args values : List (RunValue α κ)}
    (h : arguments? params rest args = some values) : values.length = params + rest.toNat := by
  unfold arguments? at h
  split_ifs at h with hr hl hl
  · cases h
    simp [hr, hl]
  · cases h
    simp [hr, hl]

/-- the same values up to their closures, which are related -/
inductive Rel (K : κ → κ' → Prop) : RunValue α κ → RunValue α κ' → Prop
  | atom (v : Value) : Rel K (atom v) (atom v)
  | foreign (a : α) : Rel K (foreign a) (foreign a)
  | pair {a b a' b'} : Rel K a a' → Rel K b b' → Rel K (pair a b) (pair a' b')
  | closure {c c'} : K c c' → Rel K (closure c) (closure c')

namespace Rel

variable {K K' : κ → κ' → Prop} {v : RunValue α κ} {w : RunValue α κ'}

theorem mono (hK : ∀ c c', K c c' → K' c c') (h : Rel K v w) : Rel K' v w := by
  induction h with
  | atom v => exact .atom v
  | foreign a => exact .foreign a
  | pair _ _ iha ihb => exact .pair iha ihb
  | closure hc => exact .closure (hK _ _ hc)

theorem embed (d : Plain α) : Rel K (RunValue.embed d) (RunValue.embed d) := by
  induction d with
  | atom v => exact .atom v
  | foreign a => exact .foreign a
  | pair a b iha ihb => exact .pair iha ihb
  | closure c => exact c.elim

/-- a value related to a plain one is that one -/
theorem embed_left {d : Plain α} (h : Rel K (RunValue.embed d) w) : w = RunValue.embed d := by
  induction d generalizing w with
  | atom v => cases h; rfl
  | foreign a => cases h; rfl
  | pair a b iha ihb =>
    cases h with
    | pair ha hb => rw [iha ha, ihb hb]; rfl
  | closure c => exact c.elim

/-- a value that a plain one is related to is that one -/
theorem embed_right {d : Plain α} (h : Rel K v (RunValue.embed d)) : v = RunValue.embed d := by
  induction d generalizing v with
  | atom v => cases h; rfl
  | foreign a => cases h; rfl
  | pair a b iha ihb =>
    cases h with
    | pair ha hb => rw [iha ha, ihb hb]; rfl
  | closure c => exact c.elim

theorem some_embed_iff {o : Option (RunValue α κ)} {o' : Option (RunValue α κ')} (h : Option.Rel (Rel K) o o')
    (d : Plain α) :
    o = some (RunValue.embed d) ↔ o' = some (RunValue.embed d) := by
  cases h with
  | none => simp
  | some h =>
    rw [Option.some.injEq, Option.some.injEq]
    exact ⟨fun hd => (hd ▸ h).embed_left, fun hd => (hd ▸ h).embed_right⟩

theorem plain?_eq (h : Rel K v w) : v.plain? = w.plain? := by
  induction h with
  | atom v => rfl
  | foreign a => rfl
  | pair _ _ iha ihb => simp only [plain?, iha, ihb]
  | closure _ => rfl

theorem isFalse_eq (h : Rel K v w) : v.isFalse = w.isFalse := by
  cases h with
  | atom v => cases v <;> rfl
  | _ => rfl

theorem ofList {vs : List (RunValue α κ)} {ws : List (RunValue α κ')} (h : List.Forall₂ (Rel K) vs ws) :
    Rel K (RunValue.ofList vs) (RunValue.ofList ws) := by
  induction h with
  | nil => exact .atom _
  | cons hv _ ih => exact .pair hv ih

end Rel

/-- every closure inside the value has the property -/
def Forall (K : κ → Prop) : RunValue α κ → Prop
  | atom _ => True
  | foreign _ => True
  | pair a b => a.Forall K ∧ b.Forall K
  | closure c => K c

namespace Forall

variable {K L : κ → Prop} {v : RunValue α κ}

theorem imp (hKL : ∀ c, K c → L c) (h : v.Forall K) : v.Forall L := by
  induction v with
  | atom v => exact trivial
  | foreign a => exact trivial
  | pair a b iha ihb => exact ⟨iha h.1, ihb h.2⟩
  | closure c => exact hKL c h

theorem and (h : v.Forall K) (h' : v.Forall L) : v.Forall fun c => K c ∧ L c := by
  induction v with
  | atom v => exact trivial
  | foreign a => exact trivial
  | pair a b iha ihb => exact ⟨iha h.1 h'.1, ihb h.2 h'.2⟩
  | closure c => exact ⟨h, h'⟩

theorem embed (d : Plain α) : (RunValue.embed d : RunValue α κ).Forall K := by
  induction d with
  | atom v => exact trivial
  | foreign a => exact trivial
  | pair a b iha ihb => exact ⟨iha, ihb⟩
  | closure c => exact c.elim

theorem ofList {vs : List (RunValue α κ)} (h : ∀ v ∈ vs, v.Forall K) : (RunValue.ofList vs).Forall K := by
  induction vs with
  | nil => exact trivial
  | cons v vs ih => exact ⟨h v List.mem_cons_self, ih fun w hw => h w (List.mem_cons_of_mem v hw)⟩

theorem arguments? {params : Nat} {rest : Bool} {args values : List (RunValue α κ)} (hargs : ∀ v ∈ args, v.Forall K)
    (h : RunValue.arguments? params rest args = some values) : ∀ v ∈ values, v.Forall K := by
  unfold RunValue.arguments? at h
  split_ifs at h <;> cases h
  · refine List.forall_mem_append.2 ⟨fun v hv => hargs v (List.mem_of_mem_take hv), ?_⟩
    exact List.forall_mem_singleton.2 (ofList fun v hv => hargs v (List.mem_of_mem_drop hv))
  · exact hargs

/-- a value is related to itself if its closures are -/
theorem rel {L : κ → κ → Prop} (hKL : ∀ c, K c → L c c) (h : v.Forall K) : Rel L v v := by
  induction v with
  | atom v => exact .atom v
  | foreign a => exact .foreign a
  | pair a b iha ihb => exact .pair (iha h.1) (ihb h.2)
  | closure c => exact .closure (hKL c h)

end Forall

variable {K : κ → κ' → Prop} {vs : List (RunValue α κ)} {ws : List (RunValue α κ')}

theorem mapM_plain?_eq (h : List.Forall₂ (Rel K) vs ws) : vs.mapM plain? = ws.mapM plain? := by
  induction h with
  | nil => rfl
  | cons hv _ ih => simp only [List.mapM_cons, hv.plain?_eq, ih]

/-- related callees that are not closures give the same answer to related arguments -/
theorem answer_rel (builtins : Builtins α) {f : RunValue α κ} {g : RunValue α κ'} (hf : Rel K f g)
    (h : List.Forall₂ (Rel K) vs ws) : answer builtins f vs = answer builtins g ws := by
  unfold answer
  rw [hf.plain?_eq, mapM_plain?_eq h]

/-- related arguments give related values to parameters, or both do not fit -/
theorem arguments?_rel (params : Nat) (rest : Bool) (h : List.Forall₂ (Rel K) vs ws) :
    Option.Rel (List.Forall₂ (Rel K)) (arguments? params rest vs) (arguments? params rest ws) := by
  have hlen := h.length_eq
  unfold arguments?
  rw [hlen]
  split_ifs
  · have htake := List.forall₂_take params h
    have hdrop := Rel.ofList (List.forall₂_drop params h)
    exact .some (List.rel_append htake (.cons hdrop .nil))
  · exact .none
  · exact .some h
  · exact .none

end RunValue

/-- the values of numbered places, and of global variables by their names -/
structure Memory (ν : Type) where
  heap : List ν
  globals : String → Option ν

/-- an environment: names with the places of their variables, the innermost first -/
abbrev Env := List (String × Nat)

/-- the variables of the environment have places among the first `n` -/
def PlacesBelow (n : Nat) (ρ : Env) : Prop := ∀ x p, ρ.lookup x = some p → p < n

theorem placesBelow_of_forall_mem {n : Nat} {ρ : Env} (h : ∀ b ∈ ρ, b.2 < n) : PlacesBelow n ρ := by
  intro x p hp
  obtain ⟨before, after, rfl, -⟩ := List.lookup_eq_some_iff.1 hp
  exact h (x, p) (by simp)

namespace Memory

variable {ν : Type}

/-- gives a value a new place; the number of the place is the length of the heap before -/
def alloc (m : Memory ν) (v : ν) : Memory ν := { m with heap := m.heap ++ [v] }

def allocAll (m : Memory ν) (vs : List ν) : Memory ν := { m with heap := m.heap ++ vs }

/-- changes the value of a place, if there is such a place -/
def write (m : Memory ν) (place : Nat) (v : ν) : Option (Memory ν) :=
  if place < m.heap.length then some { m with heap := m.heap.set place v } else none

def setGlobal (m : Memory ν) (name : String) (v : ν) : Memory ν :=
  { m with globals := fun x => if x = name then some v else m.globals x }

/-- the value of a variable: that of its place, or of a global variable -/
def get (m : Memory ν) (ρ : Env) (name : String) : Option ν :=
  match ρ.lookup name with
  | some place => m.heap[place]?
  | none => m.globals name

def put (m : Memory ν) (ρ : Env) (name : String) (v : ν) : Option (Memory ν) :=
  match ρ.lookup name with
  | some place => m.write place v
  | none => some (m.setGlobal name v)

/-- every closure in the memory has the property -/
structure Forall {α κ : Type} (K : κ → Prop) (m : Memory (RunValue α κ)) : Prop where
  heap : ∀ v ∈ m.heap, v.Forall K
  globals : ∀ x v, m.globals x = some v → v.Forall K

theorem Forall.and {α κ : Type} {K L : κ → Prop} {m : Memory (RunValue α κ)} (h : m.Forall K) (h' : m.Forall L) :
    m.Forall fun c => K c ∧ L c :=
  ⟨fun v hv => (h.heap v hv).and (h'.heap v hv), fun x v hv => (h.globals x v hv).and (h'.globals x v hv)⟩

theorem Forall.imp {α κ : Type} {K L : κ → Prop} (hKL : ∀ c, K c → L c) {m : Memory (RunValue α κ)} (h : m.Forall K) :
    m.Forall L :=
  ⟨fun v hv => (h.heap v hv).imp hKL, fun x v hv => (h.globals x v hv).imp hKL⟩

end Memory

end SchemeStack
