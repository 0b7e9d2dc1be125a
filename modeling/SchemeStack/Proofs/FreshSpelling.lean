/-
The A-normal form depends on the symbol table only through the spelling of the fresh names.

`mapNames` replaces names in an expression, at binders and uses alike; `replaced gs hs` is the replacement that takes
the names of one list to those of another, place by place. `normalForm_respelled` compares two runs of normalization
on one expression, from any two supplies: both mint equally many names, and replacing in the first result each minted
name by the one that was minted in its turn in the other run gives the second result.

What a table will mint is settled by the table (`mintedName`), so there is one renaming that takes every name of the
first run to its partner in the second, also those that are yet to come (`exists_respells`). It is injective on the
names that occur. All decisions on names survive such a renaming: whether a name is free (`mem_freeNames_mapNames`),
where renaming stops (`mapNames_renameFree`), and so whether a binding that is moved captures a name
(`captures_mapNames`). Hence the two runs go the same way at each step and stay in step (`nameParts_alike`,
`bindLifted_alike`, `liftLets_alike`).
-/
import Mathlib.Data.Set.Function
import SchemeStack.Proofs.NormalFormNames

namespace SchemeStack

/-! ## The names a table will mint -/

namespace SymbolTable

/-- the table after a number of names were minted -/
def mintMany (t : SymbolTable) : Nat → SymbolTable
  | 0 => t
  | n + 1 => (t.mintMany n).mint.2

/-- the name that is minted after `n` others -/
def mintedName (t : SymbolTable) (n : Nat) : String := (t.mintMany n).freshName

/-- the first `n` names that are minted -/
def mintedNames (t : SymbolTable) (n : Nat) : List String := (List.range n).map t.mintedName

theorem mintMany_mints (t : SymbolTable) (n : Nat) : t.Mints (t.mintedNames n) (t.mintMany n) := by
  induction n with
  | zero => exact .nil t
  | succ n ih =>
    rw [mintedNames, List.range_succ, List.map_append]
    exact ih.append (.cons (.nil _))

theorem mintedName_not_mem (t : SymbolTable) (n : Nat) : t.mintedName n ∉ t.names :=
  (t.mintMany_mints (n + 1)).fresh _ (List.mem_map_of_mem (List.mem_range.2 n.lt_succ_self))

theorem mintedName_injective (t : SymbolTable) : Function.Injective t.mintedName := by
  intro i j h
  have hnodup := (t.mintMany_mints (max i j + 1)).nodup
  exact List.inj_on_of_nodup_map hnodup (List.mem_range.2 (by omega)) (List.mem_range.2 (by omega)) h

/-- the names of the table after minting -/
theorem mem_mintMany {t : SymbolTable} {n : Nat} {x : String} :
    x ∈ (t.mintMany n).names ↔ x ∈ t.names ∨ ∃ i < n, t.mintedName i = x := by
  induction n with
  | zero => simp [mintMany]
  | succ n ih =>
    have hlast : x ∈ (t.mintMany (n + 1)).names ↔ x ∈ (t.mintMany n).names ∨ x = t.mintedName n := mem_mint
    rw [hlast, ih, or_assoc]
    refine or_congr_right ⟨?_, ?_⟩
    · intro h
      rcases h with ⟨i, hi, hx⟩ | hx
      · exact ⟨i, by omega, hx⟩
      · exact ⟨n, by omega, hx.symm⟩
    · intro h
      obtain ⟨i, hi, hx⟩ := h
      rcases Nat.lt_succ_iff_lt_or_eq.1 hi with hi | rfl
      · exact Or.inl ⟨i, hi, hx⟩
      · exact Or.inr hx.symm

/-- a renaming that takes the names minted from one table to those minted from another, injective on `D`, to which they
belong -/
structure Respells (ρ : String → String) (D : Set String) (t₁ t₂ : SymbolTable) : Prop where
  injOn : Set.InjOn ρ D
  mem : ∀ n, t₁.mintedName n ∈ D
  eq : ∀ n, ρ (t₁.mintedName n) = t₂.mintedName n

/-- there is such a renaming that leaves names alone which both tables have -/
theorem exists_respells {K : List String} {t₁ t₂ : SymbolTable} (h₁ : ∀ x ∈ K, x ∈ t₁.names)
    (h₂ : ∀ x ∈ K, x ∈ t₂.names) :
    ∃ ρ D, Respells ρ D t₁ t₂ ∧ (∀ x ∈ K, x ∈ D) ∧ ∀ x ∈ t₁.names, ρ x = x := by
  let ρ := Function.extend t₁.mintedName t₂.mintedName id
  have hminted : ∀ n, ρ (t₁.mintedName n) = t₂.mintedName n := t₁.mintedName_injective.extend_apply _ _
  have hkept : ∀ x ∈ t₁.names, ρ x = x := by
    intro x hx
    apply Function.extend_apply'
    intro hrange
    obtain ⟨n, rfl⟩ := hrange
    exact t₁.mintedName_not_mem n hx
  refine ⟨ρ, {x | x ∈ K ∨ ∃ n, t₁.mintedName n = x}, ⟨?_, fun n => Or.inr ⟨n, rfl⟩, hminted⟩, fun x => Or.inl, hkept⟩
  -- a name that is kept is in the second table, and a name minted from it is not
  have hapart : ∀ x ∈ K, ∀ n, ρ x ≠ ρ (t₁.mintedName n) := by
    intro x hx n h
    rw [hkept x (h₁ x hx), hminted] at h
    exact t₂.mintedName_not_mem n (h ▸ h₂ x hx)
  intro x hx y hy h
  rcases hx with hx | ⟨i, rfl⟩ <;> rcases hy with hy | ⟨j, rfl⟩
  · rwa [hkept x (h₁ x hx), hkept y (h₁ y hy)] at h
  · exact absurd h (hapart x hx j)
  · exact absurd h.symm (hapart y hy i)
  · rw [hminted, hminted] at h
    rw [t₂.mintedName_injective h]

end SymbolTable

namespace Supply

open SymbolTable

/-- both supplies have minted equally many names, each from its own table -/
def InStep (t₁ t₂ : SymbolTable) (s₁ s₂ : Supply) : Prop := ∃ n, s₁.table = t₁.mintMany n ∧ s₂.table = t₂.mintMany n

variable {ρ : String → String} {D : Set String} {t₁ t₂ : SymbolTable} {s₁ s₂ : Supply}

/-- supplies in step mint partners, and stay in step -/
theorem InStep.mint (hρ : Respells ρ D t₁ t₂) (h : InStep t₁ t₂ s₁ s₂) (event₁ event₂ : String → NormalEvent) :
    (s₁.mint event₁).1 ∈ D ∧ ρ (s₁.mint event₁).1 = (s₂.mint event₂).1 ∧
      InStep t₁ t₂ (s₁.mint event₁).2 (s₂.mint event₂).2 := by
  obtain ⟨n, h₁, h₂⟩ := h
  have hname₁ : (s₁.mint event₁).1 = t₁.mintedName n := congrArg (·.freshName) h₁
  have hname₂ : (s₂.mint event₂).1 = t₂.mintedName n := congrArg (·.freshName) h₂
  have htable₁ : (s₁.mint event₁).2.table = t₁.mintMany (n + 1) := congrArg (·.mint.2) h₁
  have htable₂ : (s₂.mint event₂).2.table = t₂.mintMany (n + 1) := congrArg (·.mint.2) h₂
  refine ⟨hname₁ ▸ hρ.mem n, ?_, n + 1, htable₁, htable₂⟩
  rw [hname₁, hname₂, hρ.eq]

end Supply

namespace Core

open SymbolTable Supply

/-! ## Replacing names -/

mutual

/-- replaces the names of an expression, at binders and uses alike -/
def mapNames (ρ : String → String) : Core → Core
  | var name => var (ρ name)
  | val v => val v
  | quote v => quote v
  | letIn name value body => letIn (ρ name) (value.mapNames ρ) (body.mapNames ρ)
  | lambda params rest body => lambda (params.map ρ) (rest.map ρ) (body.mapNames ρ)
  | app operator operands => app (operator.mapNames ρ) (mapNamesAll ρ operands)
  | branch test consequent none => branch (test.mapNames ρ) (consequent.mapNames ρ) none
  | branch test consequent (some alternative) =>
    branch (test.mapNames ρ) (consequent.mapNames ρ) (some (alternative.mapNames ρ))
  | assign name value => assign (ρ name) (value.mapNames ρ)

def mapNamesAll (ρ : String → String) : List Core → List Core
  | [] => []
  | e :: es => e.mapNames ρ :: mapNamesAll ρ es

end

/-- the name at the same place of another list, any name that is not in the list itself -/
def replaced (gs hs : List String) (x : String) : String := ((gs.zip hs).lookup x).getD x

variable {ρ σ : String → String} {D : Set String} {e t c d v body value : Core} {a : Option Core}
  {x old new name : String}

theorem mapNamesAll_eq_map (ρ : String → String) (es : List Core) : mapNamesAll ρ es = es.map (mapNames ρ) := by
  induction es with
  | nil => rfl
  | cons e es ih => rw [mapNamesAll, ih, List.map_cons]

theorem mapNames_branch (ρ : String → String) (t c : Core) (a : Option Core) :
    (branch t c a).mapNames ρ = branch (t.mapNames ρ) (c.mapNames ρ) (a.map (mapNames ρ)) := by
  cases a <;> rfl

theorem isAtomic_mapNames (ρ : String → String) (e : Core) : (e.mapNames ρ).isAtomic = e.isAtomic := by
  cases e with
  | branch t c a => cases a <;> rfl
  | _ => rfl

theorem binders_map (ρ : String → String) (params : List String) (rest : Option String) :
    binders (params.map ρ) (rest.map ρ) = (binders params rest).map ρ := by
  cases rest <;> simp [binders]

/-- only what the replacement does to the names of the expression counts -/
theorem mapNames_congr (h : ∀ x ∈ e.allNames, ρ x = σ x) : e.mapNames ρ = e.mapNames σ := by
  induction e with
  | var name => rw [mapNames, mapNames, h name (by simp)]
  | val v => rfl
  | quote v => rfl
  | letIn name value body ihv ihb =>
    rw [mapNames, mapNames, h name (by simp), ihv fun x hx => h x (by simp [hx]), ihb fun x hx => h x (by simp [hx])]
  | lambda params rest body ih =>
    have hparams : params.map ρ = params.map σ := List.map_congr_left fun x hx => h x (by simp [binders, hx])
    have hrest : rest.map ρ = rest.map σ := Option.map_congr fun x hx => h x (by simp [binders, Option.mem_def.1 hx])
    rw [mapNames, mapNames, hparams, hrest, ih fun x hx => h x (by simp [hx])]
  | app operator operands ihf ihas =>
    have has : operands.map (mapNames ρ) = operands.map (mapNames σ) := List.map_congr_left fun e he =>
      ihas e he fun x hx => h x (mem_allNames_app.2 (Or.inl ⟨e, he, hx⟩))
    rw [mapNames, mapNames, mapNamesAll_eq_map, mapNamesAll_eq_map, has, ihf fun x hx => h x (by simp [hx])]
  | branch test consequent alternative iht ihc iha =>
    have ha : alternative.map (mapNames ρ) = alternative.map (mapNames σ) := by
      apply Option.map_congr
      intro e he
      cases he
      exact iha e rfl fun x hx => h x (by simp [hx])
    rw [mapNames_branch, mapNames_branch, ha, iht fun x hx => h x (by cases alternative <;> simp [hx]),
      ihc fun x hx => h x (by cases alternative <;> simp [hx])]
  | assign name value ih => rw [mapNames, mapNames, h name (by simp), ih fun x hx => h x (by simp [hx])]

theorem mapNames_id (e : Core) : e.mapNames id = e := by
  induction e with
  | var name => rfl
  | val v => rfl
  | quote v => rfl
  | letIn name value body ihv ihb => rw [mapNames, ihv, ihb, id]
  | lambda params rest body ih => rw [mapNames, ih, List.map_id, Option.map_id, id]
  | app operator operands ihf ihas =>
    have has : operands.map (mapNames id) = operands := by rw [List.map_congr_left ihas, List.map_id']
    rw [mapNames, mapNamesAll_eq_map, ihf, has]
  | branch test consequent alternative iht ihc iha =>
    cases alternative with
    | none => rw [mapNames, iht, ihc]
    | some alternative => rw [mapNames, iht, ihc, iha _ rfl]
  | assign name value ih => rw [mapNames, ih, id]

/-! ## What an injective replacement leaves as it is -/

/-- all names of the expression are among some -/
def Within (D : Set String) (e : Core) : Prop := ∀ x ∈ e.allNames, x ∈ D

theorem within_letIn : (letIn name v body).Within D ↔ name ∈ D ∧ v.Within D ∧ body.Within D := by
  simp [Within, or_imp, forall_and]

theorem within_lambda {params : List String} {rest : Option String} :
    (lambda params rest body).Within D ↔ (∀ x ∈ binders params rest, x ∈ D) ∧ body.Within D := by
  simp [Within, or_imp, forall_and]

theorem within_app {f : Core} {es : List Core} : (app f es).Within D ↔ ∀ p ∈ f :: es, p.Within D := by
  simp only [Within, mem_allNames_app, List.forall_mem_cons]
  grind

theorem within_branch : (branch t c a).Within D ↔ t.Within D ∧ c.Within D ∧ ∀ e ∈ a, e.Within D := by
  cases a <;> simp [Within, or_imp, forall_and]

theorem within_assign : (assign name v).Within D ↔ name ∈ D ∧ v.Within D := by
  simp [Within, or_imp, forall_and]

theorem Within.renameFree (h : e.Within D) (hnew : new ∈ D) : (e.renameFree old new).Within D := by
  intro x hx
  rcases mem_allNames_renameFree hx with rfl | hx
  · exact hnew
  · exact h x hx

theorem mem_map_iff_of_injOn (hinj : Set.InjOn ρ D) {xs : List String} (hxs : ∀ y ∈ xs, y ∈ D) (hx : x ∈ D) :
    ρ x ∈ xs.map ρ ↔ x ∈ xs := by
  rw [List.mem_map]
  constructor
  · intro h
    obtain ⟨y, hy, heq⟩ := h
    rwa [← hinj (hxs y hy) hx heq]
  · intro h
    exact ⟨x, h, rfl⟩

/-- a name is free behind the replacement if it was before -/
theorem mem_freeNames_mapNames (hinj : Set.InjOn ρ D) (he : e.Within D) (hx : x ∈ D) :
    ρ x ∈ (e.mapNames ρ).freeNames ↔ x ∈ e.freeNames := by
  induction e with
  | var name =>
    have hname : name ∈ D := he name (by simp)
    simp [mapNames, freeNames, hinj.eq_iff hx hname]
  | val v => simp [mapNames, freeNames]
  | quote v => simp [mapNames, freeNames]
  | letIn name value body ihv ihb =>
    obtain ⟨hname, hv, hb⟩ := within_letIn.1 he
    rw [mapNames, mem_freeNames_letIn, mem_freeNames_letIn, ihv hv, ihb hb, ne_eq, hinj.eq_iff hx hname]
  | lambda params rest body ih =>
    obtain ⟨hbinders, hb⟩ := within_lambda.1 he
    rw [mapNames, mem_freeNames_lambda, mem_freeNames_lambda, ih hb, binders_map, mem_map_iff_of_injOn hinj hbinders hx]
  | app operator operands ihf ihas =>
    have hparts := within_app.1 he
    have hmap : ∀ p ∈ operator :: operands, (ρ x ∈ (p.mapNames ρ).freeNames ↔ x ∈ p.freeNames) :=
      List.forall_mem_cons.2 ⟨ihf (hparts _ List.mem_cons_self), fun p hp =>
        ihas p hp (hparts p (List.mem_cons_of_mem _ hp))⟩
    rw [mapNames, mapNamesAll_eq_map, mem_freeNames_app, mem_freeNames_app, ← List.map_cons]
    constructor
    · intro h
      obtain ⟨q, hq, hfree⟩ := h
      obtain ⟨p, hp, rfl⟩ := List.mem_map.1 hq
      exact ⟨p, hp, (hmap p hp).1 hfree⟩
    · intro h
      obtain ⟨p, hp, hfree⟩ := h
      exact ⟨_, List.mem_map_of_mem hp, (hmap p hp).2 hfree⟩
  | branch test consequent alternative iht ihc iha =>
    obtain ⟨ht, hc, ha⟩ := within_branch.1 he
    rw [mapNames_branch, mem_freeNames_branch, mem_freeNames_branch, iht ht, ihc hc]
    cases alternative with
    | none => simp
    | some alternative => simp [iha _ rfl (ha _ rfl)]
  | assign name value ih =>
    obtain ⟨hname, hv⟩ := within_assign.1 he
    rw [mapNames, mem_freeNames_assign, mem_freeNames_assign, ih hv, hinj.eq_iff hx hname]

theorem swapName_map (hinj : Set.InjOn ρ D) (hname : name ∈ D) (hold : old ∈ D) :
    ρ (swapName old new name) = swapName (ρ old) (ρ new) (ρ name) := by
  unfold swapName
  rw [apply_ite ρ]
  simp only [hinj.eq_iff hname hold]

/-- renaming a free variable and replacing names commute -/
theorem mapNames_renameFree (hinj : Set.InjOn ρ D) (he : e.Within D) (hold : old ∈ D) :
    (e.renameFree old new).mapNames ρ = (e.mapNames ρ).renameFree (ρ old) (ρ new) := by
  induction e with
  | var name => simp [renameFree, mapNames, swapName_map hinj (he name (by simp)) hold]
  | val v => rfl
  | quote v => rfl
  | letIn name value body ihv ihb =>
    obtain ⟨hname, hv, hb⟩ := within_letIn.1 he
    simp only [renameFree, mapNames, apply_ite (mapNames ρ), ihv hv, ihb hb, hinj.eq_iff hname hold]
  | lambda params rest body ih =>
    obtain ⟨hbinders, hb⟩ := within_lambda.1 he
    simp only [renameFree, mapNames, apply_ite (mapNames ρ), ih hb, binders_map, List.contains_iff_mem,
      mem_map_iff_of_injOn hinj hbinders hold]
  | app operator operands ihf ihas =>
    have hparts := within_app.1 he
    have has : operands.map (mapNames ρ ∘ Core.renameFree old new) =
        operands.map (Core.renameFree (ρ old) (ρ new) ∘ mapNames ρ) :=
      List.map_congr_left fun p hp => ihas p hp (hparts p (List.mem_cons_of_mem _ hp))
    simp only [renameFree, mapNames, renameFreeAll_eq_map, mapNamesAll_eq_map, List.map_map,
      ihf (hparts _ List.mem_cons_self), has]
  | branch test consequent alternative iht ihc iha =>
    obtain ⟨ht, hc, ha⟩ := within_branch.1 he
    cases alternative with
    | none => simp only [renameFree, mapNames, iht ht, ihc hc]
    | some alternative => simp only [renameFree, mapNames, iht ht, ihc hc, iha _ rfl (ha _ rfl)]
  | assign name value ih =>
    obtain ⟨hname, hv⟩ := within_assign.1 he
    simp only [renameFree, mapNames, ih hv, swapName_map hinj hname hold]

/-- so the question that decides on a fresh name has the same answer -/
theorem captures_mapNames (hinj : Set.InjOn ρ D) (hname : name ∈ D) (hx : x ∈ D) (hbody : body.Within D) :
    (true && ρ x != ρ name && (body.mapNames ρ).freeNames.contains (ρ x)) =
      (true && x != name && body.freeNames.contains x) := by
  rw [Bool.eq_iff_iff]
  simp only [Bool.true_and, Bool.and_eq_true, bne_iff_ne, ne_eq, List.contains_iff_mem, hinj.eq_iff hx hname,
    mem_freeNames_mapNames hinj hbody hx]

/-! ## Two runs -/

section Runs

variable {t₁ t₂ : SymbolTable} {s₁ s₂ : Supply}

/-- the outcomes of two runs: the first has names of `D` only, replacing them gives the second, and the supplies are in
step -/
structure Alike (ρ : String → String) (D : Set String) (t₁ t₂ : SymbolTable) (r₁ r₂ : Core × Supply) : Prop where
  within : r₁.1.Within D
  mapped : r₁.1.mapNames ρ = r₂.1
  inStep : InStep t₁ t₂ r₁.2 r₂.2

theorem mapNames_bindAll (ρ : String → String) (B : List (String × Core)) (k : Core) :
    (bindAll B k).mapNames ρ = bindAll (B.map (Prod.map ρ (mapNames ρ))) (k.mapNames ρ) := by
  induction B with
  | nil => rfl
  | cons b B ih => exact congrArg (letIn (ρ b.1) (b.2.mapNames ρ)) ih

theorem within_bindAll {B : List (String × Core)} {k : Core} (hB : ∀ b ∈ B, b.1 ∈ D ∧ b.2.Within D) (hk : k.Within D) :
    (bindAll B k).Within D := by
  intro x hx
  rcases mem_allNames_bindAll.1 hx with ⟨b, hb, rfl | hx⟩ | hx
  · exact (hB b hb).1
  · exact (hB b hb).2 x hx
  · exact hk x hx

theorem nameArms_alike (hs : InStep t₁ t₂ s₁ s₂) (ht : t.Within D)
    (ihc : ∀ s₁ s₂, InStep t₁ t₂ s₁ s₂ → Alike ρ D t₁ t₂ (c.nameParts s₁) ((c.mapNames ρ).nameParts s₂))
    (iha : ∀ e ∈ a, ∀ s₁ s₂, InStep t₁ t₂ s₁ s₂ → Alike ρ D t₁ t₂ (e.nameParts s₁) ((e.mapNames ρ).nameParts s₂)) :
    Alike ρ D t₁ t₂ (nameArms t c a s₁) (nameArms (t.mapNames ρ) (c.mapNames ρ) (a.map (mapNames ρ)) s₂) := by
  have hc' := ihc s₁ s₂ hs
  cases a with
  | none =>
    refine ⟨within_branch.2 ⟨ht, hc'.within, nofun⟩, ?_, hc'.inStep⟩
    exact congrArg (fun c => branch (t.mapNames ρ) c none) hc'.mapped
  | some a =>
    have ha' := iha a rfl _ _ hc'.inStep
    refine ⟨within_branch.2 ⟨ht, hc'.within, fun e he => ?_⟩, ?_, ha'.inStep⟩
    · cases he
      exact ha'.within
    · exact congrArg₂ (fun c a => branch (t.mapNames ρ) c (some a)) hc'.mapped ha'.mapped

theorem liftLetsAll_alike {es : List Core} (hD : ∀ e ∈ es, e.Within D)
    (hes : ∀ e ∈ es, e.Within D → ∀ s₁ s₂, InStep t₁ t₂ s₁ s₂ →
      Alike ρ D t₁ t₂ (e.liftLets true s₁) ((e.mapNames ρ).liftLets true s₂)) (hs : InStep t₁ t₂ s₁ s₂) :
    (∀ e ∈ (liftLetsAll true es s₁).1, e.Within D) ∧
      mapNamesAll ρ (liftLetsAll true es s₁).1 = (liftLetsAll true (mapNamesAll ρ es) s₂).1 ∧
      InStep t₁ t₂ (liftLetsAll true es s₁).2 (liftLetsAll true (mapNamesAll ρ es) s₂).2 := by
  induction es generalizing s₁ s₂ with
  | nil => exact ⟨nofun, rfl, hs⟩
  | cons e es ih =>
    have he := hes e List.mem_cons_self (hD e List.mem_cons_self) s₁ s₂ hs
    obtain ⟨hwithin, hmap, hstep⟩ := ih (fun e' he' => hD e' (List.mem_cons_of_mem e he'))
      (fun e' he' => hes e' (List.mem_cons_of_mem e he')) he.inStep
    exact ⟨List.forall_mem_cons.2 ⟨he.within, hwithin⟩, congrArg₂ List.cons he.mapped hmap, hstep⟩

variable (hρ : Respells ρ D t₁ t₂)

include hρ

/-- the parts of two applications are named alike -/
theorem NamesParts.alike {s₁' s₂' : Supply} {es as₁ as₂ : List Core} {B₁ B₂ : List (String × Core)}
    (h₁ : NamesParts s₁ es as₁ B₁ s₁') (h₂ : NamesParts s₂ (es.map (mapNames ρ)) as₂ B₂ s₂')
    (hs : InStep t₁ t₂ s₁ s₂) (hD : ∀ e ∈ es, e.Within D)
    (hes : ∀ e ∈ es, e.Within D → ∀ s₁ s₂, InStep t₁ t₂ s₁ s₂ →
      Alike ρ D t₁ t₂ (e.nameParts s₁) ((e.mapNames ρ).nameParts s₂)) :
    (∀ a ∈ as₁, a.Within D) ∧ as₁.map (mapNames ρ) = as₂ ∧ (∀ b ∈ B₁, b.1 ∈ D ∧ b.2.Within D) ∧
      B₁.map (Prod.map ρ (mapNames ρ)) = B₂ ∧ InStep t₁ t₂ s₁' s₂' := by
  induction h₁ generalizing s₂ as₂ B₂ with
  | nil s =>
    cases h₂
    exact ⟨nofun, rfl, nofun, rfl, hs⟩
  | @atom s₁ s₁' e es as₁ B₁ hatomic _ ih =>
    have hrest := fun (e' : Core) he' => hes e' (List.mem_cons_of_mem e he')
    have hD' := List.forall_mem_cons.1 hD
    cases h₂ with
    | atom _ h₂ =>
      obtain ⟨has, hmap, hB⟩ := ih h₂ hs hD'.2 hrest
      exact ⟨List.forall_mem_cons.2 ⟨hD'.1, has⟩, congrArg (e.mapNames ρ :: ·) hmap, hB⟩
    | named event hnot _ =>
      rw [isAtomic_mapNames, hatomic] at hnot
      cases hnot
  | @named s₁ s₁' e es as₁ B₁ event hatomic _ ih =>
    have hrest := fun (e' : Core) he' => hes e' (List.mem_cons_of_mem e he')
    have hD' := List.forall_mem_cons.1 hD
    cases h₂ with
    | atom hyes _ =>
      rw [isAtomic_mapNames, hatomic] at hyes
      cases hyes
    | named event₂ _ h₂ =>
      obtain ⟨hg, heq, hs'⟩ := hs.mint hρ event event₂
      have hvalue := hes e List.mem_cons_self hD'.1 _ _ hs'
      obtain ⟨has, hmap, hB, hBmap, hstep⟩ := ih h₂ hvalue.inStep hD'.2 hrest
      have hvar : (var (s₁.mint event).1).Within D := fun x hx => mem_allNames_var.1 hx ▸ hg
      refine ⟨List.forall_mem_cons.2 ⟨hvar, has⟩, ?_, List.forall_mem_cons.2 ⟨⟨hg, hvalue.within⟩, hB⟩, ?_, hstep⟩
      · rw [List.map_cons, hmap, mapNames, heq]
      · rw [List.map_cons, hBmap, Prod.map_apply, heq, hvalue.mapped]

/-- naming parts goes alike in both runs -/
theorem nameParts_alike (e : Core) (he : e.Within D) (s₁ s₂ : Supply) (hs : InStep t₁ t₂ s₁ s₂) :
    Alike ρ D t₁ t₂ (e.nameParts s₁) ((e.mapNames ρ).nameParts s₂) := by
  induction e generalizing s₁ s₂ with
  | var name => exact ⟨he, rfl, hs⟩
  | val v => exact ⟨he, rfl, hs⟩
  | quote v => exact ⟨he, rfl, hs⟩
  | letIn name value body ihv ihb =>
    obtain ⟨hname, hv, hb⟩ := within_letIn.1 he
    have hv' := ihv hv s₁ s₂ hs
    have hb' := ihb hb _ _ hv'.inStep
    exact ⟨within_letIn.2 ⟨hname, hv'.within, hb'.within⟩, congrArg₂ (letIn (ρ name)) hv'.mapped hb'.mapped, hb'.inStep⟩
  | lambda params rest body ih =>
    obtain ⟨hbinders, hb⟩ := within_lambda.1 he
    have hb' := ih hb s₁ s₂ hs
    exact ⟨within_lambda.2 ⟨hbinders, hb'.within⟩, congrArg (lambda (params.map ρ) (rest.map ρ)) hb'.mapped, hb'.inStep⟩
  | app operator operands ihf ihas =>
    obtain ⟨a₁, as₁, B₁, s₁', heq₁, hparts₁⟩ := nameParts_app operator operands s₁
    obtain ⟨a₂, as₂, B₂, s₂', heq₂, hparts₂⟩ := nameParts_app (operator.mapNames ρ) (operands.map (mapNames ρ)) s₂
    obtain ⟨has, hmap, hB, hBmap, hstep⟩ := hparts₁.alike hρ hparts₂ hs (within_app.1 he)
      (List.forall_mem_cons.2 ⟨ihf, ihas⟩)
    obtain ⟨hf, hargs⟩ := List.cons.inj hmap
    rw [mapNames, mapNamesAll_eq_map, heq₁, heq₂]
    refine ⟨within_bindAll hB (within_app.2 has), ?_, hstep⟩
    rw [mapNames_bindAll, hBmap, mapNames, mapNamesAll_eq_map, hf, hargs]
  | branch test consequent alternative iht ihc iha =>
    obtain ⟨ht, hc, ha⟩ := within_branch.1 he
    have hatomic' := isAtomic_mapNames ρ test
    rw [mapNames_branch]
    cases hatomic : test.isAtomic with
    | true =>
      rw [nameParts_branch_atomic hatomic, nameParts_branch_atomic (hatomic'.trans hatomic)]
      exact nameArms_alike hs ht (ihc hc) fun e he => iha e he (ha e he)
    | false =>
      rw [nameParts_branch_named hatomic, nameParts_branch_named (hatomic'.trans hatomic)]
      obtain ⟨hg, heq, hs'⟩ := hs.mint hρ (.named .test) (.named .test)
      have ht' := iht ht _ _ hs'
      have hvar : (var (s₁.mint (.named .test)).1).Within D := fun x hx => mem_allNames_var.1 hx ▸ hg
      have harms := nameArms_alike ht'.inStep hvar (ihc hc) fun e he => iha e he (ha e he)
      rw [mapNames, heq] at harms
      refine ⟨within_letIn.2 ⟨hg, ht'.within, harms.within⟩, ?_, harms.inStep⟩
      rw [mapNames, heq, ht'.mapped, harms.mapped]
  | assign name value ih =>
    obtain ⟨hname, hv⟩ := within_assign.1 he
    have hv' := ih hv s₁ s₂ hs
    exact ⟨within_assign.2 ⟨hname, hv'.within⟩, congrArg (assign (ρ name)) hv'.mapped, hv'.inStep⟩

/-- a binding is moved out of a value alike in both runs -/
theorem bindLifted_alike (hname : name ∈ D) (hbody : body.Within D) (hvalue : value.Within D) :
    ∀ s₂, InStep t₁ t₂ s₁ s₂ → Alike ρ D t₁ t₂ (bindLifted true name body value s₁)
      (bindLifted true (ρ name) (body.mapNames ρ) (value.mapNames ρ) s₂) := by
  induction value, s₁ using bindLifted.induct true name body with
  | case1 inner w d s₁ hcapture g ih =>
    intro s₂ hs
    obtain ⟨hinner, hw, hd⟩ := within_letIn.1 hvalue
    obtain ⟨hg, heq, hs'⟩ := hs.mint hρ (.renamed inner) (.renamed (ρ inner))
    have hrest := ih (hd.renameFree hg) _ hs'
    rw [mapNames_renameFree hρ.injOn hd hinner, heq] at hrest
    rw [mapNames, bindLifted, if_pos hcapture, bindLifted,
      if_pos ((captures_mapNames hρ.injOn hname hinner hbody).trans hcapture)]
    refine ⟨within_letIn.2 ⟨hg, hw, hrest.within⟩, ?_, hrest.inStep⟩
    rw [mapNames, heq, hrest.mapped]
  | case2 inner w d s₁ hcapture ih =>
    intro s₂ hs
    obtain ⟨hinner, hw, hd⟩ := within_letIn.1 hvalue
    have hrest := ih hd s₂ hs
    rw [mapNames, bindLifted, if_neg hcapture, bindLifted,
      if_neg (captures_mapNames hρ.injOn hname hinner hbody ▸ hcapture)]
    refine ⟨within_letIn.2 ⟨hinner, hw, hrest.within⟩, ?_, hrest.inStep⟩
    rw [mapNames, hrest.mapped]
  | case3 value s₁ hlet =>
    intro s₂ hs
    have hlet' : ∀ y w d, value.mapNames ρ ≠ letIn y w d := by
      intro y w d h
      cases value with
      | letIn y' w' d' => exact hlet y' w' d' rfl
      | branch t c a => cases a <;> cases h
      | _ => cases h
    rw [bindLifted.eq_2 _ _ _ _ _ hlet, bindLifted.eq_2 _ _ _ _ _ hlet']
    exact ⟨within_letIn.2 ⟨hname, hvalue, hbody⟩, rfl, hs⟩

/-- bindings are moved alike in both runs -/
theorem liftLets_alike (e : Core) (he : e.Within D) (s₁ s₂ : Supply) (hs : InStep t₁ t₂ s₁ s₂) :
    Alike ρ D t₁ t₂ (e.liftLets true s₁) ((e.mapNames ρ).liftLets true s₂) := by
  induction e generalizing s₁ s₂ with
  | var name => exact ⟨he, rfl, hs⟩
  | val v => exact ⟨he, rfl, hs⟩
  | quote v => exact ⟨he, rfl, hs⟩
  | letIn name value body ihv ihb =>
    obtain ⟨hname, hv, hb⟩ := within_letIn.1 he
    have hv' := ihv hv s₁ s₂ hs
    have hb' := ihb hb _ _ hv'.inStep
    have hbind := bindLifted_alike hρ hname hb'.within hv'.within _ hb'.inStep
    rw [hb'.mapped, hv'.mapped] at hbind
    exact hbind
  | lambda params rest body ih =>
    obtain ⟨hbinders, hb⟩ := within_lambda.1 he
    have hb' := ih hb s₁ s₂ hs
    exact ⟨within_lambda.2 ⟨hbinders, hb'.within⟩, congrArg (lambda (params.map ρ) (rest.map ρ)) hb'.mapped, hb'.inStep⟩
  | app operator operands ihf ihas =>
    obtain ⟨hf, has⟩ := List.forall_mem_cons.1 (within_app.1 he)
    have hf' := ihf hf s₁ s₂ hs
    obtain ⟨hwithin, hmap, hstep⟩ := liftLetsAll_alike has ihas hf'.inStep
    exact ⟨within_app.2 (List.forall_mem_cons.2 ⟨hf'.within, hwithin⟩), congrArg₂ app hf'.mapped hmap, hstep⟩
  | branch test consequent alternative iht ihc iha =>
    obtain ⟨ht, hc, ha⟩ := within_branch.1 he
    cases alternative with
    | none =>
      have ht' := iht ht s₁ s₂ hs
      have hc' := ihc hc _ _ ht'.inStep
      refine ⟨within_branch.2 ⟨ht'.within, hc'.within, nofun⟩, ?_, hc'.inStep⟩
      exact congrArg₂ (branch · · none) ht'.mapped hc'.mapped
    | some alternative =>
      have ha' := iha _ rfl (ha _ rfl) s₁ s₂ hs
      have ht' := iht ht _ _ ha'.inStep
      have hc' := ihc hc _ _ ht'.inStep
      refine ⟨within_branch.2 ⟨ht'.within, hc'.within, fun e he => ?_⟩, ?_, hc'.inStep⟩
      · cases he
        exact ha'.within
      · change branch _ _ (some _) = branch _ _ (some _)
        rw [ht'.mapped, hc'.mapped, ha'.mapped]
  | assign name value ih =>
    obtain ⟨hname, hv⟩ := within_assign.1 he
    have hv' := ih hv s₁ s₂ hs
    exact ⟨within_assign.2 ⟨hname, hv'.within⟩, congrArg (assign (ρ name)) hv'.mapped, hv'.inStep⟩

end Runs

/-! ## The whole of it -/

theorem replaced_of_not_mem {gs hs : List String} (h : x ∉ gs) : replaced gs hs x = x := by
  have hnone : (gs.zip hs).lookup x = none := by
    rw [List.lookup_eq_none_iff]
    intro p hp
    have hne : x ≠ p.1 := fun heq => h (heq ▸ (List.of_mem_zip hp).1)
    simpa using hne
  rw [replaced, hnone, Option.getD_none]

theorem replaced_map {f g : Nat → String} (hf : Function.Injective f) {l : List Nat} {i : Nat} (hi : i ∈ l) :
    replaced (l.map f) (l.map g) (f i) = g i := by
  rw [replaced, List.zip_map']
  induction l with
  | nil => cases hi
  | cons j l ih =>
    rw [List.map_cons, List.lookup_cons]
    by_cases hij : f i = f j
    · simp [hf hij]
    · rcases List.mem_cons.1 hi with rfl | hi
      · exact absurd rfl hij
      · rw [beq_eq_false_iff_ne.2 hij]
        exact ih hi

/-- on the names of a table after minting, the two replacements are the same -/
theorem replaced_mintedNames {t₁ t₂ : SymbolTable} (hρ : Respells ρ D t₁ t₂) (hkept : ∀ x ∈ t₁.names, ρ x = x) {n : Nat}
    (hx : x ∈ (t₁.mintMany n).names) : replaced (t₁.mintedNames n) (t₂.mintedNames n) x = ρ x := by
  rcases mem_mintMany.1 hx with hold | ⟨i, hi, rfl⟩
  · rw [hkept x hold, replaced_of_not_mem fun hnew => (t₁.mintMany_mints n).fresh x hnew hold]
  · rw [hρ.eq]
    exact replaced_map t₁.mintedName_injective (List.mem_range.2 hi)

theorem normalForm_knows (e : Core) (s : Supply) : (e.normalForm s).2.Knows (e.normalForm s).1 :=
  (liftLets_keeps _ _ (nameParts_keeps e _ (knows_internNames e s)).2).2

/-- normalization goes alike in both runs -/
theorem normalForm_alike {e : Core} {s₁ s₂ : Supply}
    (hρ : Respells ρ D (e.internNames s₁.table) (e.internNames s₂.table))
    (hD : e.Within D) (hself : e.mapNames ρ = e) :
    Alike ρ D (e.internNames s₁.table) (e.internNames s₂.table) (e.normalForm s₁) (e.normalForm s₂) := by
  have hnamed := nameParts_alike hρ e hD { s₁ with table := e.internNames s₁.table }
    { s₂ with table := e.internNames s₂.table } ⟨0, rfl, rfl⟩
  have hlifted := liftLets_alike hρ _ hnamed.within _ _ hnamed.inStep
  rw [hnamed.mapped, hself] at hlifted
  exact hlifted

/-- **Only the spelling of fresh names depends on the table.** From any two supplies, normalization mints equally many
names, and replacing in the first result each by its partner in the second run, at binders and uses alike, gives the
second result. -/
theorem normalForm_respelled (e : Core) (s₁ s₂ : Supply) :
    ∃ gs₁ gs₂, (e.internNames s₁.table).Mints gs₁ (e.normalForm s₁).2.table ∧
      (e.internNames s₂.table).Mints gs₂ (e.normalForm s₂).2.table ∧ gs₁.length = gs₂.length ∧
      (e.normalForm s₁).1.mapNames (replaced gs₁ gs₂) = (e.normalForm s₂).1 := by
  obtain ⟨ρ, D, hρ, hD, hkept⟩ := exists_respells (knows_internNames e s₁) (knows_internNames e s₂)
  have hself : e.mapNames ρ = e := by
    calc e.mapNames ρ
      _ = e.mapNames id := mapNames_congr fun x hx => hkept x (knows_internNames e s₁ x hx)
      _ = e := e.mapNames_id
  have halike : Alike ρ D _ _ (e.normalForm s₁) (e.normalForm s₂) := normalForm_alike hρ hD hself
  obtain ⟨n, htable₁, htable₂⟩ := halike.inStep
  refine ⟨mintedNames _ n, mintedNames _ n, htable₁ ▸ mintMany_mints _ n, htable₂ ▸ mintMany_mints _ n, ?_, ?_⟩
  · simp only [mintedNames, List.length_map]
  · -- the names of the first result are in the table that it leaves
    calc (e.normalForm s₁).1.mapNames (replaced _ _)
      _ = (e.normalForm s₁).1.mapNames ρ := by
        apply mapNames_congr
        intro x hx
        exact replaced_mintedNames hρ hkept (htable₁ ▸ normalForm_knows e s₁ x hx)
      _ = (e.normalForm s₂).1 := halike.mapped

end Core

end SchemeStack
