/-
Normalization is hygienic: it keeps the free names, and binds no name but those of the expression and its own fresh
ones.

`Mints` says which names were minted between two states of a symbol table. They differ from one another and from all
names of the table before. `normalForm_hygienic` shows, for any expression and any table:
- the free names are those of the expression;
- a name that is bound in the result is bound in the expression or was minted;
- a name that was minted was not in the table, occurs nowhere in the expression, and is bound by one binding of the
  result and by nothing else.

The binders of an expression are counted (`tally`). Naming parts adds one binder for each minted name and takes none
away (`nameParts_addsBinders`). Moving bindings may rename a binder, which takes one away for each that it adds
(`liftLets_movesBinders`). It never renames one of those that naming parts added: such a name is not free behind the
value that binds it (`nameParts_apart`), so it captures nothing when it is moved there.
-/
import SchemeStack.Proofs.NormalFormNodes

namespace SchemeStack

/-! ## Minting -/

namespace SymbolTable

/-- minting the names one after the other leads from one table to another -/
inductive Mints : SymbolTable → List String → SymbolTable → Prop
  | nil (t : SymbolTable) : Mints t [] t
  | cons {t t' : SymbolTable} {gs : List String} : Mints t.mint.2 gs t' → Mints t (t.mint.1 :: gs) t'

variable {t t' t'' : SymbolTable} {gs hs : List String} {x : String}

theorem Mints.append (h : Mints t gs t') (h' : Mints t' hs t'') : Mints t (gs ++ hs) t'' := by
  induction h with
  | nil t => exact h'
  | cons _ ih => exact .cons (ih h')

theorem Mints.fresh (h : Mints t gs t') : ∀ g ∈ gs, g ∉ t.names := by
  induction h with
  | nil t => exact nofun
  | @cons t t' gs _ ih =>
    refine List.forall_mem_cons.2 ⟨t.freshName_not_mem, fun g hg hmem => ih g hg ?_⟩
    exact mem_mint.2 (Or.inl hmem)

theorem Mints.nodup (h : Mints t gs t') : gs.Nodup := by
  induction h with
  | nil t => exact List.nodup_nil
  | @cons t t' gs h ih =>
    have hlast : t.mint.1 ∈ t.mint.2.names := mem_mint.2 (Or.inr rfl)
    exact List.nodup_cons.2 ⟨fun hg => h.fresh _ hg hlast, ih⟩

end SymbolTable

namespace Core

open Supply SymbolTable

variable {s s' : Supply} {x y g name : String} {e k t c v b body value : Core} {a : Option Core} {K : List String}

/-! ## Free names -/

theorem mem_freeNames_bindLifted (hv : s.Knows value) (hb : s.Knows body) :
    x ∈ (bindLifted true name body value s).1.freeNames ↔ x ∈ value.freeNames ∨ x ∈ body.freeNames ∧ x ≠ name := by
  induction value, s using bindLifted.induct true name body with
  | case1 inner w d s hcapture g ih =>
    have hg : g.1 ∉ s.table.names := s.mint_not_mem _
    have hgd : g.1 ∉ d.allNames := fun h => hg (hv _ (by simp [h]))
    have hgb : g.1 ∉ body.freeNames := fun h => hg (hb _ (mem_allNames_of_mem_freeNames h))
    have hknown : g.2.Knows (d.renameFree inner g.1) := by
      intro z hz
      rcases mem_allNames_renameFree hz with rfl | hz
      · exact s.mint_mem _
      · exact s.le_mint _ z (hv z (by simp [hz]))
    have hrest := ih hknown (hb.le (s.le_mint _))
    rw [mem_freeNames_renameFree hgd] at hrest
    have hgd' : g.1 ∉ d.freeNames := fun h => hgd (mem_allNames_of_mem_freeNames h)
    rw [bindLifted, if_pos hcapture, mem_freeNames_letIn, mem_freeNames_letIn]
    grind
  | case2 inner w d s hcapture ih =>
    have hrest := ih (fun z hz => hv z (by simp [hz])) hb
    have hvisible : inner = name ∨ inner ∉ body.freeNames := by
      simp only [Bool.true_and, Bool.and_eq_true, bne_iff_ne, ne_eq, List.contains_iff_mem, not_and_or,
        not_not] at hcapture
      exact hcapture
    rw [bindLifted, if_neg hcapture, mem_freeNames_letIn, mem_freeNames_letIn]
    grind
  | case3 value s hlet =>
    rw [bindLifted, mem_freeNames_letIn]
    exact hlet

theorem mem_freeNames_liftLetsAll {es : List Core} (hs : ∀ e ∈ es, s.Knows e)
    (hes : ∀ e ∈ es, ∀ s : Supply, s.Knows e → (x ∈ (e.liftLets true s).1.freeNames ↔ x ∈ e.freeNames)) :
    (∃ e ∈ (liftLetsAll true es s).1, x ∈ e.freeNames) ↔ ∃ e ∈ es, x ∈ e.freeNames := by
  induction es generalizing s with
  | nil => exact Iff.rfl
  | cons e es ih =>
    have hle := (liftLets_keeps e s (hs e List.mem_cons_self)).1
    have hrest := ih (fun e' he' => (hs e' (List.mem_cons_of_mem e he')).le hle)
      fun e' he' => hes e' (List.mem_cons_of_mem e he')
    rw [liftLetsAll, List.exists_mem_cons_iff, List.exists_mem_cons_iff, hrest,
      hes e List.mem_cons_self s (hs e List.mem_cons_self)]

/-- moving bindings keeps the free names -/
theorem mem_freeNames_liftLets (h : s.Knows e) : x ∈ (e.liftLets true s).1.freeNames ↔ x ∈ e.freeNames := by
  induction e generalizing s with
  | var name => exact Iff.rfl
  | val v => exact Iff.rfl
  | quote v => exact Iff.rfl
  | letIn name value body ihv ihb =>
    have hv : s.Knows value := fun z hz => h z (by simp [hz])
    obtain ⟨hle, hv'⟩ := liftLets_keeps value s hv
    have hb : (value.liftLets true s).2.Knows body := fun z hz => hle z (h z (by simp [hz]))
    obtain ⟨hle', hb'⟩ := liftLets_keeps body _ hb
    rw [liftLets, mem_freeNames_letIn, mem_freeNames_bindLifted (hv'.le hle') hb', ihv hv, ihb hb]
  | lambda params rest body ih =>
    rw [liftLets, mem_freeNames_lambda, mem_freeNames_lambda, ih fun z hz => h z (by simp [hz])]
  | app operator operands ihf ihas =>
    have hf : s.Knows operator := fun z hz => h z (by simp [hz])
    have hle := (liftLets_keeps operator s hf).1
    have has := mem_freeNames_liftLetsAll (fun e he z hz => hle z (h z (mem_allNames_app.2 (Or.inl ⟨e, he, hz⟩))))
      fun e he s hs => ihas e he hs
    rw [liftLets, mem_freeNames_app, mem_freeNames_app, List.exists_mem_cons_iff, List.exists_mem_cons_iff, has, ihf hf]
  | branch test consequent alternative iht ihc iha =>
    cases alternative with
    | none =>
      have ht : s.Knows test := fun z hz => h z (by simp [hz])
      have hle := (liftLets_keeps test s ht).1
      have hc : (test.liftLets true s).2.Knows consequent := fun z hz => hle z (h z (by simp [hz]))
      simp only [liftLets, mem_freeNames_branch, iht ht, ihc hc]
    | some alternative =>
      have ha : s.Knows alternative := fun z hz => h z (by simp [hz])
      have hle := (liftLets_keeps alternative s ha).1
      have ht : (alternative.liftLets true s).2.Knows test := fun z hz => hle z (h z (by simp [hz]))
      have hle' := (liftLets_keeps test _ ht).1
      have hc : (test.liftLets true (alternative.liftLets true s).2).2.Knows consequent := fun z hz =>
        hle' z (hle z (h z (by simp [hz])))
      simp only [liftLets, mem_freeNames_branch, Option.mem_some_iff, exists_eq_left', iht ht, ihc hc, iha _ rfl ha]
  | assign name value ih =>
    rw [liftLets, mem_freeNames_assign, mem_freeNames_assign, ih fun z hz => h z (by simp [hz])]

/-- the free names behind bindings of parts, where `P` are those that are free there apart from the names of the parts
-/
theorem NamesParts.mem_freeNames {es as : List Core} {B : List (String × Core)} (h : NamesParts s es as B s')
    (hs : ∀ e ∈ es, s.Knows e)
    (hes : ∀ e ∈ es, ∀ s : Supply, s.Knows e → ∀ x, x ∈ (e.nameParts s).1.freeNames ↔ x ∈ e.freeNames)
    {P : String → Prop} (hP : ∀ x, P x → x ∈ s.table.names)
    (hk : ∀ x, x ∈ k.freeNames ↔ P x ∨ ∃ a ∈ as, x ∈ a.freeNames) (x : String) :
    x ∈ (bindAll B k).freeNames ↔ P x ∨ ∃ e ∈ es, x ∈ e.freeNames := by
  induction h generalizing P with
  | nil s => exact hk x
  | @atom s s' e es as B hatomic _ ih =>
    have hknown := hs e List.mem_cons_self
    rw [ih (fun e' he' => hs e' (List.mem_cons_of_mem e he')) (fun e' he' => hes e' (List.mem_cons_of_mem e he'))
      (P := fun x => P x ∨ x ∈ e.freeNames) ?_ ?_, List.exists_mem_cons_iff, or_assoc]
    · rintro x (hx | hx)
      · exact hP x hx
      · exact hknown x (mem_allNames_of_mem_freeNames hx)
    · intro x
      rw [hk, List.exists_mem_cons_iff, or_assoc]
  | @named s s' e es as B event hatomic _ ih =>
    have hknown := (hs e List.mem_cons_self).le (s.le_mint event)
    have hle := (nameParts_keeps e _ hknown).1
    have hrest := ih (fun e' he' => ((hs e' (List.mem_cons_of_mem e he')).le (s.le_mint event)).le hle)
      (fun e' he' => hes e' (List.mem_cons_of_mem e he')) (P := fun x => P x ∨ x = (s.mint event).1) ?_ ?_
    · -- the fresh name is none of the others
      have hnew : x = (s.mint event).1 → ¬ P x ∧ ∀ e' ∈ es, x ∉ e'.freeNames := by
        rintro rfl
        refine ⟨fun hx => s.mint_not_mem event (hP _ hx), fun e' he' hx => s.mint_not_mem event ?_⟩
        exact hs e' (List.mem_cons_of_mem e he') _ (mem_allNames_of_mem_freeNames hx)
      have hvalue := hes e List.mem_cons_self _ hknown x
      rw [show bindAll (((s.mint event).1, (e.nameParts (s.mint event).2).1) :: B) k =
        letIn (s.mint event).1 (e.nameParts (s.mint event).2).1 (bindAll B k) from rfl, mem_freeNames_letIn,
          hvalue, hrest,
        List.exists_mem_cons_iff]
      grind
    · rintro x (hx | rfl)
      · exact hle x (s.le_mint event x (hP x hx))
      · exact hle _ (s.mint_mem event)
    · intro x
      rw [hk, List.exists_mem_cons_iff, or_assoc]
      simp [freeNames]

theorem mem_freeNames_nameArms (hc : s.Knows c) (ha : ∀ e ∈ a, s.Knows e)
    (ihc : ∀ s : Supply, s.Knows c → (x ∈ (c.nameParts s).1.freeNames ↔ x ∈ c.freeNames))
    (iha : ∀ e ∈ a, ∀ s : Supply, s.Knows e → (x ∈ (e.nameParts s).1.freeNames ↔ x ∈ e.freeNames)) :
    x ∈ (nameArms t c a s).1.freeNames ↔ x ∈ (branch t c a).freeNames := by
  cases a with
  | none => simp only [nameArms, mem_freeNames_branch, ihc s hc]
  | some a =>
    have hle := (nameParts_keeps c s hc).1
    simp only [nameArms, mem_freeNames_branch, Option.mem_some_iff, exists_eq_left', ihc s hc,
      iha a rfl _ ((ha a rfl).le hle)]

/-- naming parts keeps the free names -/
theorem mem_freeNames_nameParts (h : s.Knows e) (x : String) : x ∈ (e.nameParts s).1.freeNames ↔ x ∈ e.freeNames := by
  induction e generalizing s x with
  | var name => exact Iff.rfl
  | val v => exact Iff.rfl
  | quote v => exact Iff.rfl
  | letIn name value body ihv ihb =>
    have hv : s.Knows value := fun z hz => h z (by simp [hz])
    have hle := (nameParts_keeps value s hv).1
    have hb : (value.nameParts s).2.Knows body := fun z hz => hle z (h z (by simp [hz]))
    rw [nameParts, mem_freeNames_letIn, mem_freeNames_letIn, ihv hv, ihb hb]
  | lambda params rest body ih =>
    rw [nameParts, mem_freeNames_lambda, mem_freeNames_lambda, ih fun z hz => h z (by simp [hz])]
  | app operator operands ihf ihas =>
    obtain ⟨a, as, B, s', heq, hparts⟩ := nameParts_app operator operands s
    have hknown : ∀ e ∈ operator :: operands, s.Knows e := List.forall_mem_cons.2
      ⟨fun z hz => h z (by simp [hz]), fun e he z hz => h z (mem_allNames_app.2 (Or.inl ⟨e, he, hz⟩))⟩
    have hfree := hparts.mem_freeNames hknown
      (List.forall_mem_cons.2 ⟨fun s hs x => ihf hs x, fun e he s hs x => ihas e he hs x⟩) (P := fun _ => False)
      (fun _ hfalse => hfalse.elim) (k := app a as) (fun x => by rw [mem_freeNames_app, false_or]) x
    rw [heq, hfree, false_or, mem_freeNames_app]
  | branch test consequent alternative iht ihc iha =>
    have ht : s.Knows test := fun z hz => h z (by cases alternative <;> simp [hz])
    have hc : s.Knows consequent := fun z hz => h z (by cases alternative <;> simp [hz])
    have ha : ∀ e ∈ alternative, s.Knows e := by
      rintro e rfl z hz
      exact h z (by simp [hz])
    cases hatomic : test.isAtomic with
    | true =>
      rw [nameParts_branch_atomic hatomic]
      exact mem_freeNames_nameArms hc ha (fun s hs => ihc hs x) fun e he s hs => iha e he hs x
    | false =>
      let g := s.mint (.named .test)
      have hle : s.Le (test.nameParts g.2).2 := (s.le_mint _).trans (nameParts_keeps test _ (ht.le (s.le_mint _))).1
      have harms : x ∈ (nameArms (var g.1) consequent alternative (test.nameParts g.2).2).1.freeNames ↔
          x ∈ (branch (var g.1) consequent alternative).freeNames :=
        mem_freeNames_nameArms (hc.le hle) (fun e he => (ha e he).le hle) (fun s hs => ihc hs x)
          fun e he s hs => iha e he hs x
      have htest := iht (ht.le (s.le_mint (.named .test))) x
      -- the fresh name is free nowhere in the arms
      have hnew : x = g.1 → x ∉ consequent.freeNames ∧ ∀ e ∈ alternative, x ∉ e.freeNames := by
        rintro rfl
        refine ⟨fun hx => s.mint_not_mem (.named .test) ?_, fun e he hx => s.mint_not_mem (.named .test) ?_⟩
        · exact hc _ (mem_allNames_of_mem_freeNames hx)
        · exact ha e he _ (mem_allNames_of_mem_freeNames hx)
      rw [nameParts_branch_named hatomic]
      dsimp only
      rw [mem_freeNames_letIn, htest, harms, mem_freeNames_branch, mem_freeNames_branch]
      simp only [freeNames, List.mem_singleton]
      grind
  | assign name value ih =>
    rw [nameParts, mem_freeNames_assign, mem_freeNames_assign, ih fun z hz => h z (by simp [hz])]

/-! ## Counting binders -/

/-- the names that a binding binds -/
def letName : Core → List String
  | letIn name _ _ => [name]
  | _ => []

def letNames (e : Core) : List String := e.nodes.flatMap letName

/-- the names that a node binds, where `L` tells which names of a procedure count -/
def bindersOf (L : List String → Option String → List String) : Core → List String
  | letIn name _ _ => [name]
  | lambda params rest _ => L params rest
  | _ => []

/-- the binders anywhere in an expression, each as often as it binds -/
def tally (L : List String → Option String → List String) (e : Core) : List String := e.nodes.flatMap (bindersOf L)

theorem boundNames_eq_tally (e : Core) : e.boundNames = e.tally binders := by
  have h : bind = bindersOf binders := by
    funext n
    cases n <;> rfl
  rw [boundNames, tally, h]

theorem letNames_eq_tally (e : Core) : e.letNames = e.tally fun _ _ => [] := by
  have h : letName = bindersOf fun _ _ => [] := by
    funext n
    cases n <;> rfl
  rw [letNames, tally, h]

/-- what counts of a procedure are names that it binds -/
def Counts (L : List String → Option String → List String) : Prop := ∀ ps r, ∀ x ∈ L ps r, x ∈ binders ps r

theorem mem_allNames_of_mem_tally {L : List String → Option String → List String} (hL : Counts L) (h : x ∈ e.tally L) :
    x ∈ e.allNames := by
  obtain ⟨n, hn, hx⟩ := List.mem_flatMap.1 h
  refine List.mem_flatMap.2 ⟨n, hn, List.mem_append_right _ ?_⟩
  cases n with
  | letIn y v b => exact hx
  | lambda ps r b => exact hL ps r x hx
  | _ => cases hx

theorem mem_allNames_of_mem_boundNames (h : x ∈ e.boundNames) : x ∈ e.allNames :=
  mem_allNames_of_mem_tally (fun _ _ _ h => h) (e.boundNames_eq_tally ▸ h)

section Tally

variable {L : List String → Option String → List String} {ps : List String} {r : Option String} {f : Core}
  {es : List Core}

theorem tally_eq (e : Core) : e.tally L = e.bindersOf L ++ e.children.flatMap (tally L) := by
  rw [tally, nodes_eq, List.flatMap_cons, List.flatMap_assoc]
  rfl

theorem tally_atom (h : e.isAtomic = true) : e.tally L = [] := by
  rw [tally_eq]
  cases e with
  | var name => rfl
  | val v => rfl
  | quote v => rfl
  | _ => cases h

theorem tally_letIn : (letIn y v b).tally L = y :: (v.tally L ++ b.tally L) := by
  rw [tally_eq]; simp [bindersOf, children]

theorem tally_lambda : (lambda ps r b).tally L = L ps r ++ b.tally L := by
  rw [tally_eq]; simp [bindersOf, children]

theorem tally_app : (app f es).tally L = es.flatMap (tally L) ++ f.tally L := by
  rw [tally_eq]; simp [bindersOf, children]

theorem tally_branch : (branch t c a).tally L = t.tally L ++ c.tally L ++ a.toList.flatMap (tally L) := by
  rw [tally_eq]
  cases a <;> simp [bindersOf, children]

theorem tally_assign : (assign y v).tally L = v.tally L := by
  rw [tally_eq]; simp [bindersOf, children]

theorem tally_bindAll_cons (w : String × Core) (B : List (String × Core)) (k : Core) :
    (bindAll (w :: B) k).tally L = w.1 :: (w.2.tally L ++ (bindAll B k).tally L) := tally_letIn

theorem bindersOf_renameFree (old new : String) (n : Core) : (n.renameFree old new).bindersOf L = n.bindersOf L := by
  cases n with
  | branch t c a => cases a <;> rfl
  | _ => rfl

/-- changing a name changes no binder -/
theorem tally_renameFree (old new : String) (e : Core) : (e.renameFree old new).tally L = e.tally L := by
  rw [tally, tally, List.flatMap_def, List.flatMap_def, map_nodes_renameFree (bindersOf_renameFree old new)]

end Tally

/-! ## Naming parts -/

/-- a step that mints names and adds one binder for each of them -/
def AddsBinders (e : Core) (s : Supply) (r : Core × Supply) : Prop :=
  ∃ gs, s.table.Mints gs r.2.table ∧ ∀ L x, (r.1.tally L).count x = (e.tally L).count x + gs.count x

theorem AddsBinders.refl : AddsBinders e s (e, s) := ⟨[], .nil _, fun _ _ => by simp⟩

theorem NamesParts.addsBinders {es as : List Core} {B : List (String × Core)} (h : NamesParts s es as B s')
    (hes : ∀ e ∈ es, ∀ s, AddsBinders e s (e.nameParts s)) :
    ∃ gs, s.table.Mints gs s'.table ∧ ∀ L x,
      ((bindAll B k).tally L).count x = (es.flatMap (tally L)).count x + gs.count x + (k.tally L).count x := by
  induction h with
  | nil s => exact ⟨[], .nil _, fun L x => by simp [bindAll]⟩
  | atom hatomic _ ih =>
    obtain ⟨gs, hgs, hcount⟩ := ih fun e he => hes e (List.mem_cons_of_mem _ he)
    refine ⟨gs, hgs, fun L x => ?_⟩
    rw [hcount, List.flatMap_cons, tally_atom hatomic, List.nil_append]
  | @named s s' e es as B event _ _ ih =>
    obtain ⟨gs, hgs, hcount⟩ := hes e List.mem_cons_self (s.mint event).2
    obtain ⟨hs, hhs, hcount'⟩ := ih fun e he => hes e (List.mem_cons_of_mem _ he)
    refine ⟨(s.mint event).1 :: (gs ++ hs), .cons (hgs.append hhs), fun L x => ?_⟩
    simp only [tally_bindAll_cons, List.flatMap_cons, List.count_cons, List.count_append, hcount, hcount']
    omega

theorem nameArms_addsBinders (hc : ∀ s, AddsBinders c s (c.nameParts s))
    (ha : ∀ e ∈ a, ∀ s, AddsBinders e s (e.nameParts s)) :
    ∃ gs, s.table.Mints gs (nameArms t c a s).2.table ∧ ∀ L x, ((nameArms t c a s).1.tally L).count x =
      (t.tally L).count x + (c.tally L).count x + (a.toList.flatMap (tally L)).count x + gs.count x := by
  obtain ⟨gs, hgs, hcount⟩ := hc s
  cases a with
  | none =>
    refine ⟨gs, hgs, fun L x => ?_⟩
    simp only [nameArms, tally_branch, List.count_append, hcount]
    omega
  | some a =>
    obtain ⟨hs, hhs, hcount'⟩ := ha a rfl (c.nameParts s).2
    refine ⟨gs ++ hs, hgs.append hhs, fun L x => ?_⟩
    simp only [nameArms, tally_branch, List.count_append, Option.toList_some, List.flatMap_singleton, hcount, hcount']
    omega

/-- naming parts adds a binder for each name that it mints -/
theorem nameParts_addsBinders (e : Core) (s : Supply) : AddsBinders e s (e.nameParts s) := by
  induction e generalizing s with
  | var name => exact .refl
  | val v => exact .refl
  | quote v => exact .refl
  | letIn name value body ihv ihb =>
    obtain ⟨gs, hgs, hcount⟩ := ihv s
    obtain ⟨hs, hhs, hcount'⟩ := ihb (value.nameParts s).2
    refine ⟨gs ++ hs, hgs.append hhs, fun L x => ?_⟩
    simp only [nameParts, tally_letIn, List.count_cons, List.count_append, hcount, hcount']
    omega
  | lambda params rest body ih =>
    obtain ⟨gs, hgs, hcount⟩ := ih s
    refine ⟨gs, hgs, fun L x => ?_⟩
    simp only [nameParts, tally_lambda, List.count_append, hcount]
    omega
  | app operator operands ihf ihas =>
    obtain ⟨a, as, B, s', heq, hparts⟩ := nameParts_app operator operands s
    obtain ⟨gs, hgs, hcount⟩ := hparts.addsBinders (k := app a as) (List.forall_mem_cons.2 ⟨ihf, ihas⟩)
    have hatoms : ∀ L, (app a as).tally L = [] := by
      intro L
      rw [tally_app, tally_atom (hparts.atomic a List.mem_cons_self), List.append_nil, List.flatMap_eq_nil_iff]
      exact fun p hp => tally_atom (hparts.atomic p (List.mem_cons_of_mem a hp))
    rw [heq]
    refine ⟨gs, hgs, fun L x => ?_⟩
    simp only [hcount, hatoms, tally_app, List.flatMap_cons, List.count_append, List.count_nil]
    omega
  | branch test consequent alternative iht ihc iha =>
    cases hatomic : test.isAtomic with
    | true =>
      obtain ⟨gs, hgs, hcount⟩ := nameArms_addsBinders (t := test) (s := s) ihc iha
      rw [nameParts_branch_atomic hatomic]
      refine ⟨gs, hgs, fun L x => ?_⟩
      simp only [hcount, tally_branch, List.count_append]
    | false =>
      let g := s.mint (.named .test)
      obtain ⟨gs, hgs, hcount⟩ := iht g.2
      obtain ⟨hs, hhs, hcount'⟩ := nameArms_addsBinders (t := var g.1) (s := (test.nameParts g.2).2) ihc iha
      rw [nameParts_branch_named hatomic]
      refine ⟨g.1 :: (gs ++ hs), .cons (hgs.append hhs), fun L x => ?_⟩
      have hvar : (var g.1).tally L = [] := tally_atom rfl
      simp only [tally_letIn, tally_branch, List.count_cons, List.count_append, List.count_nil, hcount,
        hcount', hvar, g]
      omega
  | assign name value ih =>
    obtain ⟨gs, hgs, hcount⟩ := ih s
    refine ⟨gs, hgs, fun L x => ?_⟩
    simp only [nameParts, tally_assign, hcount]

/-- a name that is bound after naming parts is bound before, or new to the supply -/
theorem mem_boundNames_nameParts (h : x ∈ (e.nameParts s).1.boundNames) : x ∈ e.boundNames ∨ x ∉ s.table.names := by
  obtain ⟨gs, hgs, hcount⟩ := nameParts_addsBinders e s
  rw [boundNames_eq_tally, ← List.count_pos_iff, hcount] at h
  by_cases hx : x ∈ gs
  · exact Or.inr (hgs.fresh x hx)
  · rw [List.count_eq_zero_of_not_mem hx] at h
    rw [boundNames_eq_tally, ← List.count_pos_iff]
    exact Or.inl h

/-- a name that is bound in the value of a binding and free in its body is one of `K` -/
def Apart (K : List String) : Core → Prop
  | letIn _ value body => ∀ x ∈ value.boundNames, x ∈ body.freeNames → x ∈ K
  | _ => True

theorem apart_atom (h : e.isAtomic = true) : e.Every (Apart K) := by
  rw [every_atom h]
  cases e with
  | letIn y w d => cases h
  | _ => trivial

theorem NamesParts.apart {es as : List Core} {B : List (String × Core)} (h : NamesParts s es as B s')
    (hs : ∀ e ∈ es, s.Knows e) (hK : ∀ e ∈ es, ∀ x ∈ e.allNames, x ∈ K)
    (hes : ∀ e ∈ es, ∀ s : Supply, s.Knows e → (e.nameParts s).1.Every (Apart K))
    {P : String → Prop} (hP : ∀ x, P x → x ∈ s.table.names)
    (hk : ∀ x, x ∈ k.freeNames ↔ P x ∨ ∃ a ∈ as, x ∈ a.freeNames) (hk' : k.Every (Apart K)) :
    (bindAll B k).Every (Apart K) := by
  induction h generalizing P with
  | nil s => exact hk'
  | @atom s s' e es as B hatomic _ ih =>
    refine ih (fun e' he' => hs e' (List.mem_cons_of_mem e he')) (fun e' he' => hK e' (List.mem_cons_of_mem e he'))
      (fun e' he' => hes e' (List.mem_cons_of_mem e he')) (P := fun x => P x ∨ x ∈ e.freeNames) ?_ ?_
    · rintro x (hx | hx)
      · exact hP x hx
      · exact hs e List.mem_cons_self x (mem_allNames_of_mem_freeNames hx)
    · intro x
      rw [hk, List.exists_mem_cons_iff, or_assoc]
  | @named s s' e es as B event hatomic hparts ih =>
    have hknown := (hs e List.mem_cons_self).le (s.le_mint event)
    have hle := (nameParts_keeps e _ hknown).1
    have hs' : ∀ e' ∈ es, (e.nameParts (s.mint event).2).2.Knows e' := fun e' he' =>
      ((hs e' (List.mem_cons_of_mem e he')).le (s.le_mint event)).le hle
    have hP' : ∀ x, P x ∨ x = (s.mint event).1 → x ∈ (s.mint event).2.table.names := by
      rintro x (hx | rfl)
      · exact s.le_mint event x (hP x hx)
      · exact s.mint_mem event
    have hk₁ : ∀ x, x ∈ k.freeNames ↔ (P x ∨ x = (s.mint event).1) ∨ ∃ a ∈ as, x ∈ a.freeNames := by
      intro x
      rw [hk, List.exists_mem_cons_iff, or_assoc]
      simp [freeNames]
    refine every_letIn.2 ⟨fun x hbound hfree => ?_, hes e List.mem_cons_self _ hknown,
      ih hs' (fun e' he' => hK e' (List.mem_cons_of_mem e he')) (fun e' he' => hes e' (List.mem_cons_of_mem e he'))
        (fun x hx => hle x (hP' x hx)) hk₁⟩
    rcases mem_boundNames_nameParts hbound with hbound | hbound
    · exact hK e List.mem_cons_self x (mem_allNames_of_mem_boundNames hbound)
    · -- the names that are free behind were known when the value was treated
      have hfree' := (hparts.mem_freeNames hs' (fun e' _ s hs x => mem_freeNames_nameParts hs x)
        (fun x hx => hle x (hP' x hx)) hk₁ x).1 hfree
      rcases hfree' with hx | ⟨e', he', hx⟩
      · exact absurd (hP' x hx) hbound
      · exact hK e' (List.mem_cons_of_mem e he') x (mem_allNames_of_mem_freeNames hx)

theorem nameArms_apart (ht : t.isAtomic = true) (hc : s.Knows c) (ha : ∀ e ∈ a, s.Knows e)
    (ihc : ∀ s : Supply, s.Knows c → (c.nameParts s).1.Every (Apart K))
    (iha : ∀ e ∈ a, ∀ s : Supply, s.Knows e → (e.nameParts s).1.Every (Apart K)) :
    (nameArms t c a s).1.Every (Apart K) := by
  cases a with
  | none => exact every_branch_none.2 ⟨trivial, apart_atom ht, ihc s hc⟩
  | some a =>
    have hle := (nameParts_keeps c s hc).1
    exact every_branch_some.2 ⟨trivial, apart_atom ht, ihc s hc, iha a rfl _ ((ha a rfl).le hle)⟩

/-- naming parts keeps the names that it mints apart -/
theorem nameParts_apart (hK : ∀ x ∈ e.allNames, x ∈ K) (h : s.Knows e) : (e.nameParts s).1.Every (Apart K) := by
  induction e generalizing s with
  | var name => exact apart_atom rfl
  | val v => exact apart_atom rfl
  | quote v => exact apart_atom rfl
  | letIn name value body ihv ihb =>
    have hv : s.Knows value := fun z hz => h z (by simp [hz])
    have hle := (nameParts_keeps value s hv).1
    have hb : (value.nameParts s).2.Knows body := fun z hz => hle z (h z (by simp [hz]))
    refine every_letIn.2 ⟨fun x _ hx => ?_, ihv (fun z hz => hK z (by simp [hz])) hv,
      ihb (fun z hz => hK z (by simp [hz])) hb⟩
    rw [mem_freeNames_nameParts hb] at hx
    exact hK x (by simp [mem_allNames_of_mem_freeNames hx])
  | lambda params rest body ih =>
    exact every_lambda.2 ⟨trivial, ih (fun z hz => hK z (by simp [hz])) fun z hz => h z (by simp [hz])⟩
  | app operator operands ihf ihas =>
    obtain ⟨a, as, B, s', heq, hparts⟩ := nameParts_app operator operands s
    have hsub : ∀ e ∈ operator :: operands, ∀ x ∈ e.allNames, x ∈ (app operator operands).allNames := by
      refine List.forall_mem_cons.2 ⟨fun x hx => by simp [hx], fun e he x hx => ?_⟩
      exact mem_allNames_app.2 (Or.inl ⟨e, he, hx⟩)
    have hKparts : ∀ e ∈ operator :: operands, ∀ x ∈ e.allNames, x ∈ K := fun e he x hx => hK x (hsub e he x hx)
    have hcall : (app a as).Every (Apart K) := every_app.2 ⟨trivial, fun p hp => apart_atom (hparts.atomic p hp)⟩
    rw [heq]
    refine hparts.apart (fun e he x hx => h x (hsub e he x hx)) hKparts ?_ (P := fun _ => False) nofun
      (fun x => by rw [mem_freeNames_app, false_or]) hcall
    exact List.forall_mem_cons.2 ⟨fun s hs => ihf (hKparts _ List.mem_cons_self) hs,
      fun e he s hs => ihas e he (hKparts e (List.mem_cons_of_mem _ he)) hs⟩
  | branch test consequent alternative iht ihc iha =>
    have hsub : ∀ e, e = test ∨ e = consequent ∨ e ∈ alternative →
        ∀ x ∈ e.allNames, x ∈ (branch test consequent alternative).allNames := by
      rintro e (rfl | rfl | he) x hx
      · cases alternative <;> simp [hx]
      · cases alternative <;> simp [hx]
      · cases he
        simp [hx]
    have ht : s.Knows test := fun x hx => h x (hsub test (Or.inl rfl) x hx)
    have hc : s.Knows consequent := fun x hx => h x (hsub consequent (Or.inr (Or.inl rfl)) x hx)
    have ha : ∀ e ∈ alternative, s.Knows e := fun e he x hx => h x (hsub e (Or.inr (Or.inr he)) x hx)
    have hKt : ∀ x ∈ test.allNames, x ∈ K := fun x hx => hK x (hsub test (Or.inl rfl) x hx)
    have hKc : ∀ x ∈ consequent.allNames, x ∈ K := fun x hx => hK x (hsub consequent (Or.inr (Or.inl rfl)) x hx)
    have hKa : ∀ e ∈ alternative, ∀ x ∈ e.allNames, x ∈ K := fun e he x hx => hK x (hsub e (Or.inr (Or.inr he)) x hx)
    have hc' : ∀ s : Supply, s.Knows consequent → (consequent.nameParts s).1.Every (Apart K) := fun s hs => ihc hKc hs
    have ha' : ∀ e ∈ alternative, ∀ s : Supply, s.Knows e → (e.nameParts s).1.Every (Apart K) :=
      fun e he s hs => iha e he (hKa e he) hs
    cases hatomic : test.isAtomic with
    | true =>
      rw [nameParts_branch_atomic hatomic]
      exact nameArms_apart hatomic hc ha hc' ha'
    | false =>
      let g := s.mint (.named .test)
      have hle₁ : s.Le g.2 := s.le_mint _
      have hle : s.Le (test.nameParts g.2).2 := hle₁.trans (nameParts_keeps test _ (ht.le hle₁)).1
      have harms := nameArms_apart (t := var g.1) rfl (hc.le hle) (fun e he => (ha e he).le hle) hc' ha'
      rw [nameParts_branch_named hatomic]
      refine every_letIn.2 ⟨fun x hbound hfree => ?_, iht hKt (ht.le hle₁), harms⟩
      rcases mem_boundNames_nameParts hbound with hbound | hbound
      · exact hKt x (mem_allNames_of_mem_boundNames hbound)
      · rw [mem_freeNames_nameArms (hc.le hle) (fun e he => (ha e he).le hle)
          (fun s hs => mem_freeNames_nameParts hs x) fun e _ s hs => mem_freeNames_nameParts hs x] at hfree
        rcases mem_freeNames_branch.1 hfree with hx | hx | ⟨e, he, hx⟩
        · exact absurd (List.mem_singleton.1 hx ▸ s.mint_mem _) hbound
        · exact hKc x (mem_allNames_of_mem_freeNames hx)
        · exact hKa e he x (mem_allNames_of_mem_freeNames hx)
  | assign name value ih =>
    exact every_assign.2 ⟨trivial, ih (fun z hz => hK z (by simp [hz])) fun z hz => h z (by simp [hz])⟩

/-! ## Moving bindings -/

/-- a step that mints names and adds a binder for each of them, in place of a binder that is one of `K` or of none -/
def MovesBinders (K : List String) (e : Core) (s : Supply) (r : Core × Supply) : Prop :=
  ∃ gs olds : List String, s.table.Mints gs r.2.table ∧ (∀ x ∈ olds, x ∈ K) ∧
    ∀ L x, (r.1.tally L).count x + olds.count x = (e.tally L).count x + gs.count x

theorem MovesBinders.refl : MovesBinders K e s (e, s) := ⟨[], [], .nil _, nofun, fun _ _ => rfl⟩

theorem bindLifted_movesBinders (name : String) (hK : ∀ x ∈ value.boundNames, x ∈ body.freeNames → x ∈ K) :
    MovesBinders K (letIn name value body) s (bindLifted true name body value s) := by
  induction value, s using bindLifted.induct true name body with
  | case1 inner w d s hcapture g ih =>
    simp only [boundNames_eq_tally, tally_letIn, List.mem_cons, List.mem_append] at hK
    obtain ⟨gs, olds, hgs, holds, hcount⟩ := ih fun x hx => hK x (by
      rw [boundNames_eq_tally, tally_renameFree] at hx
      exact Or.inr (Or.inr hx))
    have hfree : inner ∈ body.freeNames := by
      simp only [Bool.true_and, Bool.and_eq_true, List.contains_iff_mem] at hcapture
      exact hcapture.2
    rw [bindLifted, if_pos hcapture]
    refine ⟨g.1 :: gs, inner :: olds, .cons hgs, List.forall_mem_cons.2 ⟨hK inner (Or.inl rfl) hfree, holds⟩,
      fun L x => ?_⟩
    have h := hcount L x
    simp only [tally_letIn, tally_renameFree, List.count_cons, List.count_append, g] at h ⊢
    omega
  | case2 inner w d s hcapture ih =>
    simp only [boundNames_eq_tally, tally_letIn, List.mem_cons, List.mem_append] at hK
    obtain ⟨gs, olds, hgs, holds, hcount⟩ := ih fun x hx => hK x (by
      rw [boundNames_eq_tally] at hx
      exact Or.inr (Or.inr hx))
    rw [bindLifted, if_neg hcapture]
    refine ⟨gs, olds, hgs, holds, fun L x => ?_⟩
    have h := hcount L x
    simp only [tally_letIn, List.count_cons, List.count_append] at h ⊢
    omega
  | case3 value s hlet =>
    rw [bindLifted]
    · exact .refl
    · exact hlet

theorem liftLetsAll_movesBinders {es : List Core} (hs : ∀ e ∈ es, s.Knows e)
    (hes : ∀ e ∈ es, ∀ s : Supply, s.Knows e → MovesBinders K e s (e.liftLets true s)) :
    ∃ gs olds : List String, s.table.Mints gs (liftLetsAll true es s).2.table ∧ (∀ x ∈ olds, x ∈ K) ∧
      ∀ L x, ((liftLetsAll true es s).1.flatMap (tally L)).count x + olds.count x =
        (es.flatMap (tally L)).count x + gs.count x := by
  induction es generalizing s with
  | nil => exact ⟨[], [], .nil _, nofun, fun _ _ => rfl⟩
  | cons e es ih =>
    have hle := (liftLets_keeps e s (hs e List.mem_cons_self)).1
    obtain ⟨gs, olds, hgs, holds, hcount⟩ := hes e List.mem_cons_self s (hs e List.mem_cons_self)
    obtain ⟨gs', olds', hgs', holds', hcount'⟩ := ih (fun e' he' => (hs e' (List.mem_cons_of_mem e he')).le hle)
      fun e' he' => hes e' (List.mem_cons_of_mem e he')
    refine ⟨gs ++ gs', olds ++ olds', hgs.append hgs', List.forall_mem_append.2 ⟨holds, holds'⟩, fun L x => ?_⟩
    have h := hcount L x
    have h' := hcount' L x
    simp only [liftLetsAll, List.flatMap_cons, List.count_append] at h h' ⊢
    omega

/-- moving bindings renames binders only if they are among `K`, where all others are kept apart -/
theorem liftLets_movesBinders (hK : e.Every (Apart K)) (h : s.Knows e) : MovesBinders K e s (e.liftLets true s) := by
  induction e generalizing s with
  | var name => exact .refl
  | val v => exact .refl
  | quote v => exact .refl
  | letIn name value body ihv ihb =>
    obtain ⟨hapart, hKv, hKb⟩ := every_letIn.1 hK
    have hv : s.Knows value := fun z hz => h z (by simp [hz])
    have hle := (liftLets_keeps value s hv).1
    have hb : (value.liftLets true s).2.Knows body := fun z hz => hle z (h z (by simp [hz]))
    obtain ⟨gs, olds, hgs, holds, hcount⟩ := ihv hKv hv
    obtain ⟨gs', olds', hgs', holds', hcount'⟩ := ihb hKb hb
    -- a name of the value that is free in the body was bound in the value before, since no fresh name is free there
    have hlift : ∀ x ∈ (value.liftLets true s).1.boundNames,
        x ∈ (body.liftLets true (value.liftLets true s).2).1.freeNames → x ∈ K := by
      intro x hbound hfree
      rw [mem_freeNames_liftLets hb] at hfree
      have hx : x ∉ gs := fun hx => hgs.fresh x hx (h x (by simp [mem_allNames_of_mem_freeNames hfree]))
      have hvalue := hcount binders x
      rw [List.count_eq_zero_of_not_mem hx] at hvalue
      rw [boundNames_eq_tally, ← List.count_pos_iff] at hbound
      refine hapart x ?_ hfree
      rw [boundNames_eq_tally, ← List.count_pos_iff]
      omega
    obtain ⟨gs'', olds'', hgs'', holds'', hcount''⟩ := bindLifted_movesBinders name
      (s := (body.liftLets true (value.liftLets true s).2).2) hlift
    refine ⟨gs ++ gs' ++ gs'', olds ++ olds' ++ olds'', (hgs.append hgs').append hgs'',
      List.forall_mem_append.2 ⟨List.forall_mem_append.2 ⟨holds, holds'⟩, holds''⟩, fun L x => ?_⟩
    have h₁ := hcount L x
    have h₂ := hcount' L x
    have h₃ := hcount'' L x
    simp only [liftLets, tally_letIn, List.count_cons, List.count_append] at h₁ h₂ h₃ ⊢
    omega
  | lambda params rest body ih =>
    obtain ⟨-, hKb⟩ := every_lambda.1 hK
    obtain ⟨gs, olds, hgs, holds, hcount⟩ := ih hKb fun z hz => h z (by simp [hz])
    refine ⟨gs, olds, hgs, holds, fun L x => ?_⟩
    have h₁ := hcount L x
    simp only [liftLets, tally_lambda, List.count_append] at h₁ ⊢
    omega
  | app operator operands ihf ihas =>
    obtain ⟨-, hKparts⟩ := every_app.1 hK
    have hf : s.Knows operator := fun z hz => h z (by simp [hz])
    have hle := (liftLets_keeps operator s hf).1
    obtain ⟨gs, olds, hgs, holds, hcount⟩ := ihf (hKparts operator List.mem_cons_self) hf
    obtain ⟨gs', olds', hgs', holds', hcount'⟩ := liftLetsAll_movesBinders
      (fun e he z hz => hle z (h z (mem_allNames_app.2 (Or.inl ⟨e, he, hz⟩))))
      fun e he s hs => ihas e he (hKparts e (List.mem_cons_of_mem _ he)) hs
    refine ⟨gs ++ gs', olds ++ olds', hgs.append hgs', List.forall_mem_append.2 ⟨holds, holds'⟩, fun L x => ?_⟩
    have h₁ := hcount L x
    have h₂ := hcount' L x
    simp only [liftLets, tally_app, List.count_append] at h₁ h₂ ⊢
    omega
  | branch test consequent alternative iht ihc iha =>
    cases alternative with
    | none =>
      obtain ⟨-, hKt, hKc⟩ := every_branch_none.1 hK
      have ht : s.Knows test := fun z hz => h z (by simp [hz])
      have hle := (liftLets_keeps test s ht).1
      obtain ⟨gs, olds, hgs, holds, hcount⟩ := iht hKt ht
      obtain ⟨gs', olds', hgs', holds', hcount'⟩ := ihc (s := (test.liftLets true s).2) hKc fun z hz =>
        hle z (h z (by simp [hz]))
      refine ⟨gs ++ gs', olds ++ olds', hgs.append hgs', List.forall_mem_append.2 ⟨holds, holds'⟩, fun L x => ?_⟩
      have h₁ := hcount L x
      have h₂ := hcount' L x
      simp only [liftLets, tally_branch, List.count_append] at h₁ h₂ ⊢
      omega
    | some alternative =>
      obtain ⟨-, hKt, hKc, hKa⟩ := every_branch_some.1 hK
      have ha : s.Knows alternative := fun z hz => h z (by simp [hz])
      have hle := (liftLets_keeps alternative s ha).1
      have ht : (alternative.liftLets true s).2.Knows test := fun z hz => hle z (h z (by simp [hz]))
      have hle' := (liftLets_keeps test _ ht).1
      obtain ⟨gs, olds, hgs, holds, hcount⟩ := iha _ rfl hKa ha
      obtain ⟨gs', olds', hgs', holds', hcount'⟩ := iht hKt ht
      obtain ⟨gs'', olds'', hgs'', holds'', hcount''⟩ :=
        ihc (s := (test.liftLets true (alternative.liftLets true s).2).2) hKc
        fun z hz => hle' z (hle z (h z (by simp [hz])))
      refine ⟨gs ++ gs' ++ gs'', olds ++ olds' ++ olds'', (hgs.append hgs').append hgs'',
        List.forall_mem_append.2 ⟨List.forall_mem_append.2 ⟨holds, holds'⟩, holds''⟩, fun L x => ?_⟩
      have h₁ := hcount L x
      have h₂ := hcount' L x
      have h₃ := hcount'' L x
      simp only [liftLets, tally_branch, Option.toList_some, List.flatMap_singleton, List.count_append] at h₁ h₂ h₃ ⊢
      omega
  | assign name value ih =>
    obtain ⟨-, hKv⟩ := every_assign.1 hK
    obtain ⟨gs, olds, hgs, holds, hcount⟩ := ih hKv fun z hz => h z (by simp [hz])
    refine ⟨gs, olds, hgs, holds, fun L x => ?_⟩
    have h₁ := hcount L x
    simp only [liftLets, tally_assign] at h₁ ⊢
    omega

/-! ## The whole of it -/

/-- the binders of the A-normal form: those of the expression, less some that were renamed, and the minted ones -/
theorem normalForm_movesBinders (e : Core) (s : Supply) :
    MovesBinders (e.internNames s.table).names e { s with table := e.internNames s.table } (e.normalForm s) := by
  have hs := knows_internNames e s
  obtain ⟨gs, hgs, hcount⟩ := nameParts_addsBinders e { s with table := e.internNames s.table }
  obtain ⟨hs', olds, hhs', holds, hcount'⟩ := liftLets_movesBinders (nameParts_apart hs hs) (nameParts_keeps e _ hs).2
  refine ⟨gs ++ hs', olds, hgs.append hhs', holds, fun L x => ?_⟩
  have h₁ := hcount L x
  have h₂ := hcount' L x
  rw [normalForm, List.count_append]
  omega

theorem mem_freeNames_normalForm (e : Core) (s : Supply) : x ∈ (e.normalForm s).1.freeNames ↔ x ∈ e.freeNames := by
  have hs := knows_internNames e s
  rw [normalForm, mem_freeNames_liftLets (nameParts_keeps e _ hs).2, mem_freeNames_nameParts hs]

/-- **Hygiene.** With the names `gs` minted by the call, the free names are kept, what is bound was bound or minted,
and a minted name is new to the table and to the expression and is bound once, by a binding. -/
theorem normalForm_hygienic (e : Core) (s : Supply) :
    ∃ gs, (e.internNames s.table).Mints gs (e.normalForm s).2.table ∧
      (∀ x, x ∈ (e.normalForm s).1.freeNames ↔ x ∈ e.freeNames) ∧
      (∀ x ∈ (e.normalForm s).1.boundNames, x ∈ e.boundNames ∨ x ∈ gs) ∧
      ∀ g ∈ gs, g ∉ s.table.names ∧ g ∉ e.allNames ∧
        (e.normalForm s).1.letNames.count g = 1 ∧ (e.normalForm s).1.boundNames.count g = 1 := by
  obtain ⟨gs, olds, hgs, holds, hcount⟩ := normalForm_movesBinders e s
  refine ⟨gs, hgs, fun x => mem_freeNames_normalForm e s, fun x hx => ?_, fun g hg => ?_⟩
  · have h := hcount binders x
    rw [boundNames_eq_tally, ← List.count_pos_iff] at hx
    by_cases hxg : x ∈ gs
    · exact Or.inr hxg
    · rw [List.count_eq_zero_of_not_mem hxg] at h
      rw [boundNames_eq_tally, ← List.count_pos_iff]
      exact Or.inl (by omega)
  · have hnew : g ∉ s.table.names ∧ g ∉ e.allNames := by
      rw [← not_or, ← mem_internAll]
      exact hgs.fresh g hg
    have hold : olds.count g = 0 := List.count_eq_zero_of_not_mem fun h => hgs.fresh g hg (holds g h)
    have hone : ∀ L, Counts L → ((e.normalForm s).1.tally L).count g = 1 := by
      intro L hL
      have hzero : (e.tally L).count g = 0 := List.count_eq_zero_of_not_mem fun h =>
        hnew.2 (mem_allNames_of_mem_tally hL h)
      have h := hcount L g
      rwa [hold, hzero, List.count_eq_one_of_mem hgs.nodup hg] at h
    refine ⟨hnew.1, hnew.2, ?_, ?_⟩
    · rw [letNames_eq_tally]
      exact hone _ nofun
    · rw [boundNames_eq_tally]
      exact hone _ fun _ _ _ h => h

end Core

end SchemeStack
