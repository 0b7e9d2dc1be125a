/-
Fresh names are fresh, and the supply knows the names of what was made with it.

A minted name is not in the table, whatever the table (`freshName_not_mem`): of the names with a suffix that are
tried, one more than the table has, all are different, so one of them is missing. After it was minted it is in the
table.

A supply knows an expression if its table has all names of the expression. Naming parts only adds names to the table,
and the supply that it leaves knows what it made (`nameParts_keeps`). So a name that is minted afterwards occurs
nowhere in it.

`NamesParts` tells how the parts of an application are named, operator and operands alike.
-/
import Mathlib.Data.List.Nodup
import Mathlib.Data.List.Perm.Subperm
import SchemeStack.Core.NormalForm
import SchemeStack.Proofs.CoreInduction

namespace SchemeStack

namespace NameRegister

variable {r : NameRegister} {x name base : String} {n : Nat}

def keys (r : NameRegister) : List String := r.numbers.map Prod.fst

theorem contains_iff_mem_keys : r.contains name = true ↔ name ∈ r.keys := by
  simp [contains, indexOf?, keys, List.lookup_isSome_iff]

/-- a name that was tried last and has a number: so have all that were tried -/
theorem mem_keys_of_suffixed {tries i : Nat} (h : r.suffixed base tries i ∈ r.keys) {j : Nat} (hij : i ≤ j)
    (hj : j ≤ i + tries) : base ++ "~" ++ toString j ∈ r.keys := by
  induction tries generalizing i with
  | zero =>
    obtain rfl : i = j := by omega
    exact h
  | succ tries ih =>
    rw [suffixed] at h
    split at h
    · rename_i hi
      by_cases hji : i = j
      · exact hji ▸ contains_iff_mem_keys.1 hi
      · exact ih h (by omega) (by omega)
    · rename_i hi
      exact absurd (contains_iff_mem_keys.2 h) hi

theorem suffix_injective (base : String) : Function.Injective fun i : Nat => base ++ "~" ++ toString i := by
  intro i j h
  have hdigits : toString i = toString j := (String.append_right_inj _).1 h
  rw [Nat.toString_eq_ofList_toDigits, Nat.toString_eq_ofList_toDigits, String.ofList_inj] at hdigits
  have hread : ∀ n, Nat.ofDigitChars 10 (Nat.toDigits 10 n) 0 = n := fun n =>
    Nat.ofDigitChars_toDigits (by omega) (by omega)
  rw [← hread i, hdigits, hread]

/-- a fresh name has no number -/
theorem freshName_not_mem_keys (r : NameRegister) : r.freshName ∉ r.keys := by
  unfold freshName
  dsimp only
  split
  · intro h
    -- otherwise the dictionary has more names than it has entries
    let tried := (List.range (r.numbers.length + 1)).map fun i : Nat => "$g" ++ toString r.minted ++ "~" ++ toString i
    have hnodup : tried.Nodup := List.nodup_range.map (suffix_injective _)
    have hsubset : tried ⊆ r.keys := by
      intro name hname
      obtain ⟨i, hi, rfl⟩ := List.mem_map.1 hname
      exact mem_keys_of_suffixed h (Nat.zero_le i) (by have := List.mem_range.1 hi; omega)
    have hlen := (List.subperm_of_subset hnodup hsubset).length_le
    simp only [tried, keys, List.length_map, List.length_range] at hlen
    omega
  · rename_i h
    exact fun hmem => h (contains_iff_mem_keys.2 hmem)

namespace InStep

theorem keys_eq (h : r.InStep) : r.keys = r.names := by
  have hnumbers : r.numbers = r.names.zipIdx := h
  rw [keys, hnumbers, List.zipIdx_map_fst]

theorem contains_iff (h : r.InStep) : r.contains name = true ↔ name ∈ r.names := by
  rw [contains_iff_mem_keys, h.keys_eq]

theorem freshName_not_mem (h : r.InStep) : r.freshName ∉ r.names := h.keys_eq ▸ r.freshName_not_mem_keys

end InStep

/-- **What interning does to a register:** a name without a number is put behind the others, in the list and in the
dictionary -/
theorem handle_table (r : NameRegister) (name : String) :
    (r.handle name).2 = if r.contains name then r else
      { r with names := r.names ++ [name], numbers := r.numbers ++ [(name, r.names.length)] } := by
  cases h : r.indexOf? name <;> simp [handle, contains, h]

end NameRegister

namespace SymbolTable

variable {t t' : SymbolTable} {x name : String}

/-- a table is known by its list of names and its count -/
theorem ext_names (hnames : t.names = t'.names) (hminted : t.minted = t'.minted) : t = t' := by
  obtain ⟨⟨names, numbers, minted⟩, hstep⟩ := t
  obtain ⟨⟨names', numbers', minted'⟩, hstep'⟩ := t'
  have hnumbers : numbers = names.zipIdx := hstep
  have hnumbers' : numbers' = names'.zipIdx := hstep'
  cases hnames
  cases hminted
  subst hnumbers hnumbers'
  rfl

@[simp] theorem contains_iff : t.contains name = true ↔ name ∈ t.names := t.inStep.contains_iff

theorem names_intern (t : SymbolTable) (name : String) :
    (t.intern name).names = if name ∈ t.names then t.names else t.names ++ [name] := by
  change (t.handle name).2.names = _
  simp only [NameRegister.handle_table, contains_iff]
  split <;> rfl

@[simp] theorem minted_intern (t : SymbolTable) (name : String) : (t.intern name).minted = t.minted := by
  change (t.handle name).2.minted = _
  rw [NameRegister.handle_table]
  split <;> rfl

theorem intern_of_mem (h : name ∈ t.names) : t.intern name = t :=
  ext_names (by rw [names_intern, if_pos h]) (minted_intern t name)

theorem mem_intern : x ∈ (t.intern name).names ↔ x ∈ t.names ∨ x = name := by
  rw [names_intern]
  split
  · rename_i h
    exact ⟨Or.inl, fun hx => hx.elim id fun hx => hx ▸ h⟩
  · simp

theorem mem_internAll {names : List String} : x ∈ (t.internAll names).names ↔ x ∈ t.names ∨ x ∈ names := by
  induction names generalizing t with
  | nil => simp [internAll]
  | cons name names ih =>
    rw [internAll, List.foldl_cons, ← internAll, ih, mem_intern, List.mem_cons, or_assoc]

/-- a fresh name is not in the table -/
theorem freshName_not_mem (t : SymbolTable) : t.freshName ∉ t.names := t.inStep.freshName_not_mem

theorem mem_mint : x ∈ t.mint.2.names ↔ x ∈ t.names ∨ x = t.mint.1 := by
  have hstep : NameRegister.InStep { t.toNameRegister with minted := t.minted + 1 } := t.inStep
  exact mem_intern (t := ⟨_, hstep⟩)

end SymbolTable

namespace Supply

variable {s s' s'' : Supply} {x : String}

/-- the names of one supply are names of another -/
def Le (s s' : Supply) : Prop := ∀ x ∈ s.table.names, x ∈ s'.table.names

/-- the supply has all names of the expression -/
def Knows (s : Supply) (e : Core) : Prop := ∀ x ∈ e.allNames, x ∈ s.table.names

theorem Le.refl (s : Supply) : s.Le s := fun _ h => h

theorem Le.trans (h : s.Le s') (h' : s'.Le s'') : s.Le s'' := fun x hx => h' x (h x hx)

theorem Knows.le {e : Core} (h : s.Knows e) (hs : s.Le s') : s'.Knows e := fun x hx => hs x (h x hx)

theorem mem_mint {event : String → NormalEvent} :
    x ∈ (s.mint event).2.table.names ↔ x ∈ s.table.names ∨ x = (s.mint event).1 :=
  SymbolTable.mem_mint

theorem le_mint (s : Supply) (event : String → NormalEvent) : s.Le (s.mint event).2 :=
  fun _ hx => mem_mint.2 (Or.inl hx)

theorem mint_mem (s : Supply) (event : String → NormalEvent) : (s.mint event).1 ∈ (s.mint event).2.table.names :=
  mem_mint.2 (Or.inr rfl)

theorem mint_not_mem (s : Supply) (event : String → NormalEvent) : (s.mint event).1 ∉ s.table.names :=
  s.table.freshName_not_mem

end Supply

namespace Core

open Supply

/-! ## Naming parts -/

/-- the supply with all names of an expression interned knows it -/
theorem knows_internNames (e : Core) (s : Supply) : Supply.Knows { s with table := e.internNames s.table } e :=
  fun _ hx => SymbolTable.mem_internAll.2 (Or.inr hx)

theorem mem_allNames_bindAll {x : String} {B : List (String × Core)} {k : Core} :
    x ∈ (bindAll B k).allNames ↔ (∃ b ∈ B, x = b.1 ∨ x ∈ b.2.allNames) ∨ x ∈ k.allNames := by
  induction B with
  | nil => simp [bindAll]
  | cons b B ih =>
    rw [show bindAll (b :: B) k = letIn b.1 b.2 (bindAll B k) from rfl, mem_allNames_letIn, ih]
    simp only [List.mem_cons, exists_eq_or_imp, or_assoc]

/-- the parts of an application as atoms, and the bindings of those that were none, in the order in which they are
named -/
inductive NamesParts : Supply → List Core → List Core → List (String × Core) → Supply → Prop
  | nil (s : Supply) : NamesParts s [] [] [] s
  | atom {s s' : Supply} {e : Core} {es as : List Core} {B : List (String × Core)} :
    e.isAtomic = true → NamesParts s es as B s' → NamesParts s (e :: es) (e :: as) B s'
  | named {s s' : Supply} {e : Core} {es as : List Core} {B : List (String × Core)} (event : String → NormalEvent) :
    e.isAtomic = false → NamesParts (e.nameParts (s.mint event).2).2 es as B s' →
    NamesParts s (e :: es) (var (s.mint event).1 :: as) (((s.mint event).1, (e.nameParts (s.mint event).2).1) :: B) s'

theorem nameOperands_namesParts (es : List Core) (s : Supply) :
    NamesParts s es (nameOperands es s).1.1 (nameOperands es s).1.2 (nameOperands es s).2 := by
  induction es generalizing s with
  | nil => exact .nil s
  | cons e es ih =>
    rw [nameOperands]
    split
    · rename_i hatomic
      exact .atom hatomic (ih s)
    · rename_i hatomic
      exact .named _ (by simpa using hatomic) (ih _)

/-- the operator is named like an operand, before them -/
theorem nameParts_app (f : Core) (es : List Core) (s : Supply) :
    ∃ a as B s', (app f es).nameParts s = (bindAll B (app a as), s') ∧ NamesParts s (f :: es) (a :: as) B s' := by
  rw [nameParts]
  split
  · rename_i hatomic
    exact ⟨_, _, _, _, rfl, .atom hatomic (nameOperands_namesParts es s)⟩
  · rename_i hatomic
    exact ⟨_, _, _, _, rfl, .named _ (by simpa using hatomic) (nameOperands_namesParts es _)⟩

/-- a step that makes an expression only adds names, and knows those of what it made -/
def Keeps (s : Supply) (r : Core × Supply) : Prop := s.Le r.2 ∧ r.2.Knows r.1

theorem NamesParts.knows {s s' : Supply} {es as : List Core} {B : List (String × Core)} (h : NamesParts s es as B s')
    (hs : ∀ e ∈ es, s.Knows e) (hes : ∀ e ∈ es, ∀ s : Supply, s.Knows e → Keeps s (e.nameParts s)) :
    s.Le s' ∧ (∀ a ∈ as, s'.Knows a) ∧ ∀ b ∈ B, b.1 ∈ s'.table.names ∧ s'.Knows b.2 := by
  induction h with
  | nil s => exact ⟨.refl s, nofun, nofun⟩
  | atom _ _ ih =>
    obtain ⟨hle, has, hB⟩ := ih (fun e he => hs e (List.mem_cons_of_mem _ he)) fun e he =>
      hes e (List.mem_cons_of_mem _ he)
    exact ⟨hle, List.forall_mem_cons.2 ⟨(hs _ List.mem_cons_self).le hle, has⟩, hB⟩
  | @named s s' e es as B event _ _ ih =>
    have hle₁ := s.le_mint event
    obtain ⟨hle₂, hv⟩ := hes _ List.mem_cons_self _ ((hs _ List.mem_cons_self).le hle₁)
    obtain ⟨hle, has, hB⟩ := ih (fun e he => (hs e (List.mem_cons_of_mem _ he)).le (hle₁.trans hle₂))
      fun e he => hes e (List.mem_cons_of_mem _ he)
    have hg : (s.mint event).1 ∈ s'.table.names := hle _ (hle₂ _ (s.mint_mem event))
    refine ⟨(hle₁.trans hle₂).trans hle, List.forall_mem_cons.2 ⟨fun x hx => ?_, has⟩,
      List.forall_mem_cons.2 ⟨⟨hg, hv.le hle⟩, hB⟩⟩
    rwa [mem_allNames_var.1 hx]

/-- a conditional with a test that is given, the parts of its arms named -/
def nameArms (test consequent : Core) (alternative : Option Core) (s : Supply) : Core × Supply :=
  let c := consequent.nameParts s
  match alternative with
  | none => (branch test c.1 none, c.2)
  | some alternative =>
    let a := alternative.nameParts c.2
    (branch test c.1 (some a.1), a.2)

theorem nameParts_branch_atomic {test : Core} (h : test.isAtomic = true) (c : Core) (a : Option Core) (s : Supply) :
    (branch test c a).nameParts s = nameArms test c a s := by
  cases a <;> simp [nameParts, nameArms, h]

theorem nameParts_branch_named {test : Core} (h : test.isAtomic = false) (c : Core) (a : Option Core) (s : Supply) :
    (branch test c a).nameParts s =
      let g := s.mint (.named .test)
      let t := test.nameParts g.2
      let r := nameArms (var g.1) c a t.2
      (letIn g.1 t.1 r.1, r.2) := by
  cases a <;> simp [nameParts, nameArms, h]

theorem nameArms_keeps {test c : Core} {a : Option Core} {s : Supply} (ht : s.Knows test) (hc : s.Knows c)
    (ha : ∀ e ∈ a, s.Knows e) (ihc : ∀ s : Supply, s.Knows c → Keeps s (c.nameParts s))
    (iha : ∀ e ∈ a, ∀ s : Supply, s.Knows e → Keeps s (e.nameParts s)) : Keeps s (nameArms test c a s) := by
  obtain ⟨hle, hc'⟩ := ihc s hc
  cases a with
  | none =>
    refine ⟨hle, fun x hx => ?_⟩
    rcases mem_allNames_branch_none.1 hx with hx | hx
    · exact ht.le hle x hx
    · exact hc' x hx
  | some a =>
    obtain ⟨hle', ha'⟩ := iha a rfl _ ((ha a rfl).le hle)
    refine ⟨hle.trans hle', fun x hx => ?_⟩
    rcases mem_allNames_branch_some.1 hx with hx | hx | hx
    · exact ht.le (hle.trans hle') x hx
    · exact hc'.le hle' x hx
    · exact ha' x hx

/-- naming parts only adds names to the supply, which knows the result -/
theorem nameParts_keeps (e : Core) (s : Supply) (h : s.Knows e) : Keeps s (e.nameParts s) := by
  induction e generalizing s with
  | var name => exact ⟨.refl s, h⟩
  | val v => exact ⟨.refl s, h⟩
  | quote v => exact ⟨.refl s, h⟩
  | letIn name value body ihv ihb =>
    obtain ⟨hle, hv⟩ := ihv s fun x hx => h x (by simp [hx])
    obtain ⟨hle', hb⟩ := ihb (value.nameParts s).2 fun x hx => hle x (h x (by simp [hx]))
    refine ⟨hle.trans hle', fun x hx => ?_⟩
    rcases mem_allNames_letIn.1 hx with rfl | hx | hx
    · exact hle' _ (hle _ (h _ (by simp)))
    · exact hv.le hle' x hx
    · exact hb x hx
  | lambda params rest body ih =>
    obtain ⟨hle, hb⟩ := ih s fun x hx => h x (by simp [hx])
    refine ⟨hle, fun x hx => ?_⟩
    rcases mem_allNames_lambda.1 hx with hx | hx
    · exact hle x (h x (by simp [hx]))
    · exact hb x hx
  | app operator operands ihf ihas =>
    obtain ⟨a, as, B, s', heq, hparts⟩ := nameParts_app operator operands s
    obtain ⟨hle, has, hB⟩ := hparts.knows (List.forall_mem_cons.2 ⟨fun x hx => h x (by simp [hx]), fun e he x hx => h x
      (mem_allNames_app.2 (Or.inl ⟨e, he, hx⟩))⟩) (List.forall_mem_cons.2 ⟨ihf, ihas⟩)
    rw [heq]
    refine ⟨hle, fun x hx => ?_⟩
    rcases mem_allNames_bindAll.1 hx with ⟨b, hb, rfl | hx⟩ | hx
    · exact (hB b hb).1
    · exact (hB b hb).2 x hx
    · rcases mem_allNames_app.1 hx with ⟨e, he, hx⟩ | hx
      · exact has e (List.mem_cons_of_mem a he) x hx
      · exact has a List.mem_cons_self x hx
  | branch test consequent alternative iht ihc iha =>
    have ht : s.Knows test := fun x hx => h x (by cases alternative <;> simp [hx])
    have hc : s.Knows consequent := fun x hx => h x (by cases alternative <;> simp [hx])
    have ha : ∀ e ∈ alternative, s.Knows e := by
      intro e he x hx
      cases he
      exact h x (by simp [hx])
    cases hatomic : test.isAtomic with
    | true =>
      rw [nameParts_branch_atomic hatomic]
      exact nameArms_keeps ht hc ha ihc iha
    | false =>
      rw [nameParts_branch_named hatomic]
      have hle₁ := s.le_mint (.named .test)
      obtain ⟨hle₂, ht'⟩ := iht _ (ht.le hle₁)
      have hle := hle₁.trans hle₂
      have hg := hle₂ _ (s.mint_mem (.named .test))
      have hvar : (test.nameParts (s.mint (.named .test)).2).2.Knows (var (s.mint (.named .test)).1) :=
        fun x hx => mem_allNames_var.1 hx ▸ hg
      obtain ⟨hle', hr⟩ := nameArms_keeps hvar (hc.le hle) (fun e he => (ha e he).le hle) ihc iha
      refine ⟨hle.trans hle', fun x hx => ?_⟩
      rcases mem_allNames_letIn.1 hx with rfl | hx | hx
      · exact hle' _ hg
      · exact ht'.le hle' x hx
      · exact hr x hx
  | assign name value ih =>
    obtain ⟨hle, hv⟩ := ih s fun x hx => h x (by simp [hx])
    refine ⟨hle, fun x hx => ?_⟩
    rcases mem_allNames_assign.1 hx with rfl | hx
    · exact hle _ (h _ (by simp))
    · exact hv x hx

end Core

end SchemeStack
