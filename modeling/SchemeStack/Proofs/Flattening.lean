/-
Flattening: what naming the parts of an expression and moving bindings out of bindings may make of it.

`Flattens keep R e t` tells that `t` is a flattened form of `e`. Its names may differ: `R` relates the names that are
free in `e` to those that stand for them in `t`.
- The value of a binding may have its own bindings moved in front, which then enclose the body as well; `R` forgets the
  names that these hide, so no name in the body may refer to one of them.
- The parts of an application, operator first, are atoms that stay where they are, or else are bound to names in
  front, in the order of the parts; atoms are read after all bindings (`FlattensParts`). If `keep` holds, an
  application may also keep its parts in place.
- The test of a conditional stays in place or is bound to a name in front.

`Renames S t u` tells that `u` is `t` with other bound names. Flattened forms are closed under it
(`Flattens.renames`), so bound names may be changed while bindings are moved, and a relation between names only
matters for the names that are free (`Flattens.restrict`).
-/
import SchemeStack.Core.NormalForm
import SchemeStack.Proofs.RenamedNodes

namespace SchemeStack

open SchemeStack.Core

/-- which names of one expression stand for which names of another -/
abbrev NameRel := String → String → Prop

namespace NameRel

/-- the relation where the names on the right are hidden -/
def without (R : NameRel) (hidden : List String) : NameRel := fun a b => R a b ∧ b ∉ hidden

/-- the relation in the scope of a binding on each side -/
def bind (R : NameRel) (x y : String) : NameRel := fun a b => a = x ∧ b = y ∨ a ≠ x ∧ b ≠ y ∧ R a b

/-- the relation in the scope of the same bindings on both sides -/
def bindSame (R : NameRel) (names : List String) : NameRel :=
  fun a b => a = b ∧ a ∈ names ∨ a ∉ names ∧ b ∉ names ∧ R a b

/-- names related by `R` and then by `S` are related by `T` -/
def CompLe (R S T : NameRel) : Prop := ∀ a b c, R a b → S b c → T a c

variable {R S T : NameRel}

theorem CompLe.bind (h : CompLe R S T) (x y z : String) : CompLe (R.bind x y) (S.bind y z) (T.bind x z) := by
  rintro a b c (⟨ha, hb⟩ | ⟨ha, hb, hab⟩) (⟨hb', hc⟩ | ⟨hb', hc, hbc⟩)
  · exact Or.inl ⟨ha, hc⟩
  · exact absurd hb hb'
  · exact absurd hb' hb
  · exact Or.inr ⟨ha, hc, h a b c hab hbc⟩

theorem CompLe.bindSame (h : CompLe R S T) (names : List String) :
    CompLe (R.bindSame names) (S.bindSame names) (T.bindSame names) := by
  rintro a b c (⟨rfl, ha⟩ | ⟨ha, hb, hab⟩) (⟨rfl, hb'⟩ | ⟨hb', hc, hbc⟩)
  · exact Or.inl ⟨rfl, ha⟩
  · exact absurd ha hb'
  · exact absurd hb' hb
  · exact Or.inr ⟨ha, hc, h a b c hab hbc⟩

end NameRel

abbrev boundBy (bindings : List (String × Core)) : List String := bindings.map Prod.fst

/-! ## Changing bound names -/

mutual

/-- the same expressions up to bound names; `S` relates the free names -/
inductive Renames : NameRel → Core → Core → Prop
  | var {S : NameRel} {a b : String} : S a b → Renames S (.var a) (.var b)
  | val {S : NameRel} (v : Value) : Renames S (.val v) (.val v)
  | quote {S : NameRel} (v : Value) : Renames S (.quote v) (.quote v)
  | letIn {S : NameRel} {x y : String} {v v' b b' : Core} :
    Renames S v v' → Renames (S.bind x y) b b' → Renames S (.letIn x v b) (.letIn y v' b')
  | lambda {S : NameRel} {ps : List String} {r : Option String} {b b' : Core} :
    Renames (S.bindSame (binders ps r)) b b' → Renames S (.lambda ps r b) (.lambda ps r b')
  | app {S : NameRel} {f f' : Core} {es es' : List Core} :
    Renames S f f' → RenamesAll S es es' → Renames S (.app f es) (.app f' es')
  | branchNone {S : NameRel} {t t' c c' : Core} :
    Renames S t t' → Renames S c c' → Renames S (.branch t c none) (.branch t' c' none)
  | branchSome {S : NameRel} {t t' c c' a a' : Core} :
    Renames S t t' → Renames S c c' → Renames S a a' → Renames S (.branch t c (some a)) (.branch t' c' (some a'))
  | assign {S : NameRel} {x y : String} {v v' : Core} : S x y → Renames S v v' → Renames S (.assign x v) (.assign y v')

inductive RenamesAll : NameRel → List Core → List Core → Prop
  | nil {S : NameRel} : RenamesAll S [] []
  | cons {S : NameRel} {e e' : Core} {es es' : List Core} :
    Renames S e e' → RenamesAll S es es' → RenamesAll S (e :: es) (e' :: es')

end

/-- the same bindings up to their names; the last relation is the one in the scope of all of them -/
inductive RenamesBindings : NameRel → List (String × Core) → List (String × Core) → NameRel → Prop
  | nil {S : NameRel} : RenamesBindings S [] [] S
  | cons {S S' : NameRel} {x y : String} {v v' : Core} {L L' : List (String × Core)} :
    Renames S v v' → RenamesBindings (S.bind x y) L L' S' → RenamesBindings S ((x, v) :: L) ((y, v') :: L') S'

namespace RenamesBindings

variable {S S' : NameRel} {L L' M N : List (String × Core)} {t t' u : Core}

theorem bindAll (h : RenamesBindings S L L' S') (ht : Renames S' t t') : Renames S (bindAll L t) (bindAll L' t') := by
  induction h with
  | nil => exact ht
  | cons hv _ ih => exact .letIn hv (ih ht)

/-- a name that the bindings do not hide is related as before them -/
theorem outer (h : RenamesBindings S L L' S') {a b : String} (hab : S' a b) (ha : a ∉ boundBy L) :
    b ∉ boundBy L' ∧ S a b := by
  induction h with
  | nil => exact ⟨List.not_mem_nil, hab⟩
  | cons _ _ ih =>
    simp only [boundBy, List.map_cons, List.mem_cons, not_or] at ha ⊢
    obtain ⟨hb, ⟨hax, -⟩ | ⟨-, hby, h⟩⟩ := ih hab ha.2
    · exact absurd hax ha.1
    · exact ⟨⟨hby, hb⟩, h⟩

theorem append_left (h : RenamesBindings S (L ++ M) N S') :
    ∃ L' M' T, N = L' ++ M' ∧ RenamesBindings S L L' T ∧ RenamesBindings T M M' S' := by
  induction L generalizing S N with
  | nil => exact ⟨[], N, S, rfl, .nil, h⟩
  | cons b L ih =>
    cases h with
    | cons hv h =>
      obtain ⟨L', M', T, rfl, hL, hM⟩ := ih h
      exact ⟨_ :: L', M', T, rfl, .cons hv hL, hM⟩

end RenamesBindings

namespace Renames

variable {S S' : NameRel} {t u : Core}

theorem of_bindAll {L : List (String × Core)} (h : Renames S (bindAll L t) u) :
    ∃ L' S' u', u = bindAll L' u' ∧ RenamesBindings S L L' S' ∧ Renames S' t u' := by
  induction L generalizing S u with
  | nil => exact ⟨[], S, u, rfl, .nil, h⟩
  | cons b L ih =>
    cases h with
    | letIn hv hb =>
      obtain ⟨L', S', u', rfl, hL, hu⟩ := ih hb
      exact ⟨_ :: L', S', u', rfl, .cons hv hL, hu⟩

theorem allSelf {es : List Core} (h : ∀ e ∈ es, Renames S e e) : RenamesAll S es es := by
  induction es with
  | nil => exact .nil
  | cons e es ih => exact .cons (h e List.mem_cons_self) (ih fun e' he' => h e' (List.mem_cons_of_mem e he'))

/-- an expression is itself if its free names stand for themselves -/
theorem self (h : ∀ x ∈ t.freeNames, S x x) : Renames S t t := by
  induction t generalizing S with
  | var name => exact .var (h name (by simp [freeNames]))
  | val v => exact .val v
  | quote v => exact .quote v
  | letIn name value body ihv ihb =>
    refine .letIn (ihv fun x hx => h x (by simp [freeNames, hx])) (ihb fun x hx => ?_)
    by_cases hxn : x = name
    · exact Or.inl ⟨hxn, hxn⟩
    · exact Or.inr ⟨hxn, hxn, h x (by simp [freeNames, hx, hxn])⟩
  | lambda params rest body ih =>
    refine .lambda (ih fun x hx => ?_)
    by_cases hxb : x ∈ binders params rest
    · exact Or.inl ⟨rfl, hxb⟩
    · exact Or.inr ⟨hxb, hxb, h x (by simp [freeNames, hx, hxb])⟩
  | app operator operands ihf ihas =>
    refine .app (ihf fun x hx => h x (by simp [freeNames, hx])) (allSelf fun e he => ihas e he fun x hx => h x ?_)
    simpa [freeNames] using Or.inl ⟨e, he, hx⟩
  | branch test consequent alternative iht ihc iha =>
    cases alternative with
    | none =>
      exact .branchNone (iht fun x hx => h x (by simp [freeNames, hx])) (ihc fun x hx => h x (by simp [freeNames, hx]))
    | some alternative =>
      exact .branchSome (iht fun x hx => h x (by simp [freeNames, hx])) (ihc fun x hx => h x (by simp [freeNames, hx]))
        (iha _ rfl fun x hx => h x (by simp [freeNames, hx]))
  | assign name value ih =>
    exact .assign (h name (by simp [freeNames])) (ih fun x hx => h x (by simp [freeNames, hx]))

theorem all_of_map {f : Core → Core} {es us : List Core} (h : RenamesAll S (es.map f) us)
    (hes : ∀ e ∈ es, ∀ u, Renames S (f e) u → Renames S' e u) : RenamesAll S' es us := by
  induction es generalizing us with
  | nil => cases h; exact .nil
  | cons e es ih =>
    cases h with
    | cons he h =>
      exact .cons (hes e List.mem_cons_self _ he) (ih h fun e' he' => hes e' (List.mem_cons_of_mem e he'))

/-- the relation only matters for the free names -/
theorem imp (h : Renames S t u) (hS : ∀ a b, a ∈ t.freeNames → S a b → S' a b) : Renames S' t u := by
  induction t generalizing S S' u with
  | var name =>
    cases h with
    | var h => exact .var (hS _ _ (by simp [freeNames]) h)
  | val v => cases h; exact .val v
  | quote v => cases h; exact .quote v
  | letIn name value body ihv ihb =>
    cases h with
    | letIn hv hb =>
      refine .letIn (ihv hv fun a b ha => hS a b (by simp [freeNames, ha])) (ihb hb ?_)
      rintro a b ha (h | ⟨han, hbn, h⟩)
      · exact Or.inl h
      · exact Or.inr ⟨han, hbn, hS a b (by simp [freeNames, ha, han]) h⟩
  | lambda params rest body ih =>
    cases h with
    | lambda hb =>
      refine .lambda (ih hb ?_)
      rintro a b ha (h | ⟨han, hbn, h⟩)
      · exact Or.inl h
      · exact Or.inr ⟨han, hbn, hS a b (by simp [freeNames, ha, han]) h⟩
  | app operator operands ihf ihas =>
    cases h with
    | app hf has =>
      refine .app (ihf hf fun a b ha => hS a b (by simp [freeNames, ha])) ?_
      rw [← List.map_id operands] at has
      refine all_of_map has fun e he u hu => ihas e he hu fun a b ha => hS a b ?_
      simpa [freeNames] using Or.inl ⟨e, he, ha⟩
  | branch test consequent alternative iht ihc iha =>
    cases h with
    | branchNone ht hc =>
      exact .branchNone (iht ht fun a b ha => hS a b (by simp [freeNames, ha]))
        (ihc hc fun a b ha => hS a b (by simp [freeNames, ha]))
    | branchSome ht hc ha =>
      exact .branchSome (iht ht fun a b ha => hS a b (by simp [freeNames, ha]))
        (ihc hc fun a b ha => hS a b (by simp [freeNames, ha]))
        (iha _ rfl ha fun a b ha => hS a b (by simp [freeNames, ha]))
  | assign name value ih =>
    cases h with
    | assign hn hv =>
      exact .assign (hS _ _ (by simp [freeNames]) hn) (ih hv fun a b ha => hS a b (by simp [freeNames, ha]))

/-- the relation `S'` after a name was changed, in the scope of a binder that is not the name -/
theorem bind_swapName {y g x x' c c' : String} (hxy : x ≠ y) (hxg : g ≠ x) (h : S'.bind x x' (swapName y g c) c')
    (hS : c ≠ x → S' (swapName y g c) c' → S c c') : S.bind x x' c c' := by
  have hswap : swapName y g c = x ↔ c = x := by
    unfold swapName
    split
    · rename_i hc
      exact ⟨fun h => absurd h hxg, fun h => absurd (h.symm.trans hc) hxy⟩
    · exact Iff.rfl
  rcases h with ⟨h, hc'⟩ | ⟨h, hc', hS'⟩
  · exact Or.inl ⟨hswap.1 h, hc'⟩
  · have hc : c ≠ x := fun hc => h (hswap.2 hc)
    exact Or.inr ⟨hc, hc', hS hc hS'⟩

/-- what is the same as an expression with a name changed is the same as the expression -/
theorem of_renameFree {y g : String} (h : Renames S' (t.renameFree y g) u) (hg : g ∉ t.allNames)
    (hS : ∀ c c', c ∈ t.freeNames → S' (swapName y g c) c' → S c c') : Renames S t u := by
  induction t generalizing S S' u with
  | var name =>
    cases h with
    | var h => exact .var (hS _ _ (by simp [freeNames]) h)
  | val v => cases h; exact .val v
  | quote v => cases h; exact .quote v
  | letIn name value body ihv ihb =>
    simp only [mem_allNames_letIn, not_or] at hg
    cases h with
    | letIn hv hb =>
      refine .letIn (ihv hv hg.2.1 fun c c' hc => hS c c' (by simp [freeNames, hc])) ?_
      by_cases hny : name = y
      · -- the name is hidden in the body, which was left alone
        rw [if_pos hny] at hb
        refine hb.imp ?_
        rintro c c' hc (h | ⟨hcn, hcn', h⟩)
        · exact Or.inl h
        · have hswap : swapName y g c = c := if_neg (hny ▸ hcn)
          exact Or.inr ⟨hcn, hcn', hS c c' (by simp [freeNames, hc, hcn]) (by rwa [hswap])⟩
      · rw [if_neg hny] at hb
        exact ihb hb hg.2.2 fun c c' hc h => bind_swapName hny hg.1 h fun hcn => hS c c' (by simp [freeNames, hc, hcn])
  | lambda params rest body ih =>
    simp only [mem_allNames_lambda, not_or] at hg
    cases h with
    | lambda hb =>
      refine .lambda ?_
      by_cases hny : y ∈ binders params rest
      · rw [if_pos (by simpa using hny)] at hb
        refine hb.imp ?_
        rintro c c' hc (h | ⟨hcn, hcn', h⟩)
        · exact Or.inl h
        · have hswap : swapName y g c = c := if_neg fun hcy : c = y => hcn (hcy ▸ hny)
          exact Or.inr ⟨hcn, hcn', hS c c' (by simp [freeNames, hc, hcn]) (by rwa [hswap])⟩
      · rw [if_neg (by simpa using hny)] at hb
        refine ih hb hg.2 ?_
        rintro c c' hc (⟨h, hmem⟩ | ⟨hcn, hcn', h⟩)
        · have hcy : c ≠ y := by
            rintro rfl
            rw [swapName, if_pos rfl] at hmem
            exact hg.1 hmem
          rw [swapName, if_neg hcy] at h hmem
          exact Or.inl ⟨h, hmem⟩
        · have hcb : c ∉ binders params rest := by
            intro hcb
            have hcy : c ≠ y := fun hcy => hny (hcy ▸ hcb)
            rw [swapName, if_neg hcy] at hcn
            exact hcn hcb
          exact Or.inr ⟨hcb, hcn', hS c c' (by simp [freeNames, hc, hcb]) h⟩
  | app operator operands ihf ihas =>
    simp only [mem_allNames_app, not_or, not_exists, not_and] at hg
    cases h with
    | app hf has =>
      refine .app (ihf hf hg.2 fun c c' hc => hS c c' (by simp [freeNames, hc])) ?_
      rw [renameFreeAll_eq_map] at has
      refine all_of_map has fun e he u hu => ihas e he hu (hg.1 e he) fun c c' hc => hS c c' ?_
      simpa [freeNames] using Or.inl ⟨e, he, hc⟩
  | branch test consequent alternative iht ihc iha =>
    cases alternative with
    | none =>
      simp only [mem_allNames_branch_none, not_or] at hg
      cases h with
      | branchNone ht hc =>
        exact .branchNone (iht ht hg.1 fun c c' hc => hS c c' (by simp [freeNames, hc]))
          (ihc hc hg.2 fun c c' hc => hS c c' (by simp [freeNames, hc]))
    | some alternative =>
      simp only [mem_allNames_branch_some, not_or] at hg
      cases h with
      | branchSome ht hc ha =>
        exact .branchSome (iht ht hg.1 fun c c' hc => hS c c' (by simp [freeNames, hc]))
          (ihc hc hg.2.1 fun c c' hc => hS c c' (by simp [freeNames, hc]))
          (iha _ rfl ha hg.2.2 fun c c' hc => hS c c' (by simp [freeNames, hc]))
  | assign name value ih =>
    simp only [mem_allNames_assign, not_or] at hg
    cases h with
    | assign hn hv =>
      exact .assign (hS _ _ (by simp [freeNames]) hn) (ih hv hg.2 fun c c' hc => hS c c' (by simp [freeNames, hc]))

end Renames

/-- bindings are themselves if the free names of what they are part of stand for themselves -/
theorem RenamesBindings.self {S : NameRel} {L : List (String × Core)} {t : Core}
    (h : ∀ x ∈ (Core.bindAll L t).freeNames, S x x) : ∃ S', RenamesBindings S L L S' ∧ ∀ x ∈ t.freeNames, S' x x := by
  induction L generalizing S with
  | nil => exact ⟨S, .nil, h⟩
  | cons b L ih =>
    have hfree : (Core.bindAll (b :: L) t).freeNames =
        b.2.freeNames ++ (Core.bindAll L t).freeNames.filter (· != b.1) := rfl
    have hinner : ∀ x ∈ (Core.bindAll L t).freeNames, S.bind b.1 b.1 x x := by
      intro x hx
      by_cases hxb : x = b.1
      · exact Or.inl ⟨hxb, hxb⟩
      · exact Or.inr ⟨hxb, hxb, h x (by simp [hfree, hx, hxb])⟩
    obtain ⟨S', hL, ht⟩ := ih hinner
    exact ⟨S', .cons (.self fun x hx => h x (by simp [hfree, hx])) hL, ht⟩

/-! ## Flattened forms -/

mutual

/-- the second expression is a flattened form of the first -/
inductive Flattens (keep : Prop) : NameRel → Core → Core → Prop
  | var {R : NameRel} {a b : String} : R a b → Flattens keep R (.var a) (.var b)
  | val {R : NameRel} (v : Value) : Flattens keep R (.val v) (.val v)
  | quote {R : NameRel} (v : Value) : Flattens keep R (.quote v) (.quote v)
  | letIn {R : NameRel} {x y : String} {v t b k : Core} {L : List (String × Core)} :
    Flattens keep R v (bindAll L t) → Flattens keep ((R.without (boundBy L)).bind x y) b k →
    Flattens keep R (.letIn x v b) (bindAll L (.letIn y t k))
  | lambda {R : NameRel} {ps : List String} {r : Option String} {b b' : Core} :
    Flattens keep (R.bindSame (binders ps r)) b b' → Flattens keep R (.lambda ps r b) (.lambda ps r b')
  | appKept {R : NameRel} {f f' : Core} {es es' : List Core} :
    keep → FlattensAll keep R (f :: es) (f' :: es') → Flattens keep R (.app f es) (.app f' es')
  | app {R : NameRel} {f a : Core} {es as : List Core} {B : List (String × Core)} :
    FlattensParts keep R (f :: es) B (a :: as) → Flattens keep R (.app f es) (bindAll B (.app a as))
  | branchKept {R : NameRel} {t t' c c' : Core} {a a' : Option Core} :
    Flattens keep R t t' → FlattensArms keep R c a c' a' → Flattens keep R (.branch t c a) (.branch t' c' a')
  | branch {R : NameRel} {g : String} {t t' c c' : Core} {a a' : Option Core} {L : List (String × Core)} :
    Flattens keep R t (bindAll L t') → FlattensArms keep (R.without (g :: boundBy L)) c a c' a' →
    Flattens keep R (.branch t c a) (bindAll L (.letIn g t' (.branch (.var g) c' a')))
  | assign {R : NameRel} {x y : String} {v v' : Core} :
    R x y → Flattens keep R v v' → Flattens keep R (.assign x v) (.assign y v')

/-- so are the arms of a conditional -/
inductive FlattensArms (keep : Prop) : NameRel → Core → Option Core → Core → Option Core → Prop
  | none {R : NameRel} {c c' : Core} : Flattens keep R c c' → FlattensArms keep R c none c' none
  | some {R : NameRel} {c c' a a' : Core} :
    Flattens keep R c c' → Flattens keep R a a' → FlattensArms keep R c (some a) c' (some a')

/-- so are the expressions of a list, each by itself -/
inductive FlattensAll (keep : Prop) : NameRel → List Core → List Core → Prop
  | nil {R : NameRel} : FlattensAll keep R [] []
  | cons {R : NameRel} {e e' : Core} {es es' : List Core} :
    Flattens keep R e e' → FlattensAll keep R es es' → FlattensAll keep R (e :: es) (e' :: es')

/-- the parts of an application as atoms, those that were none bound to names in front -/
inductive FlattensParts (keep : Prop) : NameRel → List Core → List (String × Core) → List Core → Prop
  | nil {R : NameRel} : FlattensParts keep R [] [] []
  | atom {R : NameRel} {e a : Core} {es as : List Core} {B : List (String × Core)} :
    e.isAtomic = true → Flattens keep (R.without (boundBy B)) e a → FlattensParts keep R es B as →
    FlattensParts keep R (e :: es) B (a :: as)
  | named {R : NameRel} {g : String} {e t : Core} {es as : List Core} {L B : List (String × Core)} :
    e.isAtomic = false → Flattens keep R e (bindAll L t) → g ∉ boundBy B →
    FlattensParts keep (R.without (g :: boundBy L)) es B as →
    FlattensParts keep R (e :: es) (L ++ (g, t) :: B) (.var g :: as)

end

variable {keep : Prop} {R R' S : NameRel} {e t u : Core}

theorem RenamesBindings.compLe_without {S' : NameRel} {L L' : List (String × Core)} (h : RenamesBindings S L L' S')
    (hR : R.CompLe S R') : (R.without (boundBy L)).CompLe S' (R'.without (boundBy L')) := by
  rintro a b c ⟨hab, hb⟩ hbc
  obtain ⟨hc, hbc⟩ := h.outer hbc hb
  exact ⟨hR a b c hab hbc, hc⟩

/-- the same, with one more binding behind -/
theorem RenamesBindings.compLe_without_cons {S' : NameRel} {L L' : List (String × Core)} (h : RenamesBindings S L L' S')
    (hR : R.CompLe S R') (g g' : String) :
    (R.without (g :: boundBy L)).CompLe (S'.bind g g') (R'.without (g' :: boundBy L')) := by
  rintro a b c ⟨hab, hb⟩ hbc
  obtain ⟨hbg, hb⟩ := not_or.1 (mt List.mem_cons.2 hb)
  obtain ⟨h', -⟩ | ⟨-, hcg, hbc⟩ := hbc
  · exact absurd h' hbg
  · obtain ⟨hR, hc⟩ := h.compLe_without hR a b c ⟨hab, hb⟩ hbc
    exact ⟨hR, by simp only [List.mem_cons, not_or]; exact ⟨hcg, hc⟩⟩

/-- the flattened forms of an expression may have other bound names -/
def ClosedUnderRenames (keep : Prop) (e : Core) : Prop :=
  ∀ ⦃R S R' : NameRel⦄ ⦃t u : Core⦄, Flattens keep R e t → Renames S t u → R.CompLe S R' → Flattens keep R' e u

theorem FlattensAll.renames {es ts us : List Core} (h : FlattensAll keep R es ts) (hS : RenamesAll S ts us)
    (hR : R.CompLe S R')
    (hes : ∀ e ∈ es, ClosedUnderRenames keep e) : FlattensAll keep R' es us := by
  induction es generalizing ts us with
  | nil => cases h; cases hS; exact .nil
  | cons e es ih =>
    cases h with
    | cons he h =>
      cases hS with
      | cons hSe hS =>
        exact .cons (hes e List.mem_cons_self he hSe hR) (ih h hS fun e' he' => hes e' (List.mem_cons_of_mem e he'))

theorem FlattensParts.renames {S' : NameRel} {es as us : List Core} {B B' : List (String × Core)}
    (h : FlattensParts keep R es B as) (hB : RenamesBindings S B B' S') (hS : RenamesAll S' as us) (hR : R.CompLe S R')
    (hes : ∀ e ∈ es, ClosedUnderRenames keep e) : FlattensParts keep R' es B' us := by
  induction es generalizing R R' S B B' as us with
  | nil => cases h; cases hB; cases hS; exact .nil
  | cons e es ih =>
    have hes' : ∀ e' ∈ es, ClosedUnderRenames keep e' := fun e' he' => hes e' (List.mem_cons_of_mem e he')
    cases h with
    | atom hatomic he h =>
      cases hS with
      | cons hSe hS => exact .atom hatomic (hes e List.mem_cons_self he hSe (hB.compLe_without hR)) (ih h hB hS hR hes')
    | named hatomic he hg h =>
      obtain ⟨L', M', T, rfl, hL, hM⟩ := hB.append_left
      cases hM with
      | cons ht hB =>
        cases hS with
        | cons hSe hS =>
          cases hSe with
          | var hgc =>
            -- the name of the part is not hidden, so it is changed to the name it is bound to
            obtain ⟨hc, ⟨-, rfl⟩ | ⟨hne, -⟩⟩ := hB.outer hgc hg
            · exact .named hatomic (hes e List.mem_cons_self he (hL.bindAll ht) hR) hc
                (ih h hB hS (hL.compLe_without_cons hR _ _) hes')
            · exact absurd rfl hne

theorem FlattensArms.renames {c t' : Core} {a a' : Option Core} (h : FlattensArms keep R c a t' a')
    (hS : Renames S (.branch t t' a') u) (hR : R.CompLe S R') (hc : ClosedUnderRenames keep c)
    (ha : ∀ e ∈ a, ClosedUnderRenames keep e) :
    ∃ t₁ c₁ a₁, u = .branch t₁ c₁ a₁ ∧ Renames S t t₁ ∧ FlattensArms keep R' c a c₁ a₁ := by
  cases h with
  | none h =>
    cases hS with
    | branchNone hSt hSc => exact ⟨_, _, _, rfl, hSt, .none (hc h hSc hR)⟩
  | some h h' =>
    cases hS with
    | branchSome hSt hSc hSa => exact ⟨_, _, _, rfl, hSt, .some (hc h hSc hR) (ha _ rfl h' hSa hR)⟩

/-- flattened forms with other bound names are flattened forms -/
theorem Flattens.renames (e : Core) : ClosedUnderRenames keep e := by
  intro R S R' t u h hS hR
  induction e generalizing R S R' t u with
  | var name =>
    cases h with
    | var h =>
      cases hS with
      | var h' => exact .var (hR _ _ _ h h')
  | val v => cases h; cases hS; exact .val v
  | quote v => cases h; cases hS; exact .quote v
  | letIn name value body ihv ihb =>
    cases h with
    | letIn hv hb =>
      obtain ⟨L', S', u', rfl, hL, hu⟩ := hS.of_bindAll
      cases hu with
      | letIn ht hk => exact .letIn (ihv hv (hL.bindAll ht) hR) (ihb hb hk ((hL.compLe_without hR).bind _ _ _))
  | lambda params rest body ih =>
    cases h with
    | lambda hb =>
      cases hS with
      | lambda hSb => exact .lambda (ih hb hSb (hR.bindSame _))
  | app operator operands ihf ihas =>
    have hall : ∀ e ∈ operator :: operands, ClosedUnderRenames keep e := by
      intro e he
      rcases List.mem_cons.1 he with rfl | he
      · exact ihf
      · exact ihas e he
    cases h with
    | appKept hkeep h =>
      cases hS with
      | app hSf hSas => exact .appKept hkeep (h.renames (.cons hSf hSas) hR hall)
    | app h =>
      obtain ⟨B', S', u', rfl, hB, hu⟩ := hS.of_bindAll
      cases hu with
      | app hSf hSas => exact .app (h.renames hB (.cons hSf hSas) hR hall)
  | branch test consequent alternative iht ihc iha =>
    cases h with
    | branchKept ht h =>
      obtain ⟨t₁, c₁, a₁, rfl, hSt, h⟩ := h.renames hS hR ihc iha
      exact .branchKept (iht ht hSt hR) h
    | branch ht h =>
      obtain ⟨L', S', u', rfl, hL, hu⟩ := hS.of_bindAll
      cases hu with
      | letIn hSt hk =>
        obtain ⟨t₁, c₁, a₁, rfl, hvar, h⟩ := h.renames hk (hL.compLe_without_cons hR _ _) ihc iha
        cases hvar with
        | var hg =>
          obtain ⟨-, rfl⟩ | ⟨hne, -⟩ := hg
          · exact .branch (iht ht (hL.bindAll hSt) hR) h
          · exact absurd rfl hne
  | assign name value ih =>
    cases h with
    | assign hx hv =>
      cases hS with
      | assign hx' hSv => exact .assign (hR _ _ _ hx hx') (ih hv hSv hR)

/-- the relation only matters for the names that are free in the flattened form -/
theorem Flattens.restrict (h : Flattens keep R e t) (hR : ∀ a b, b ∈ t.freeNames → R a b → R' a b) :
    Flattens keep R' e t := by
  have hS : Renames (fun b c => b = c ∧ b ∈ t.freeNames) t t := .self fun x hx => ⟨rfl, hx⟩
  refine Flattens.renames e h hS ?_
  rintro a b c hab ⟨rfl, hb⟩
  exact hR a b hb hab

/-- the same for the parts of an application -/
theorem FlattensParts.restrict {es as : List Core} {B : List (String × Core)} (h : FlattensParts keep R es B as)
    (hR : ∀ a b, b ∈ (bindAll B (.app (.val .nil) as)).freeNames → R a b → R' a b) : FlattensParts keep R' es B as := by
  obtain ⟨S', hB, hS'⟩ := RenamesBindings.self (S := fun b c => b = c ∧ b ∈ (bindAll B (.app (.val .nil) as)).freeNames)
    fun x hx => ⟨rfl, hx⟩
  have has : RenamesAll S' as as := by
    refine Renames.allSelf fun a ha => .self fun x hx => hS' x ?_
    simpa [freeNames] using ⟨a, ha, hx⟩
  refine h.renames hB has ?_ fun e _ => Flattens.renames e
  rintro a b c hab ⟨rfl, hb⟩
  exact hR a b hb hab

/-- the same for the arms of a conditional -/
theorem FlattensArms.restrict {c c' : Core} {a a' : Option Core} (h : FlattensArms keep R c a c' a')
    (hR : ∀ x y, y ∈ (Core.branch t c' a').freeNames → R x y → R' x y) : FlattensArms keep R' c a c' a' := by
  cases h with
  | none h => exact .none (h.restrict fun x y hy => hR x y (by simp [freeNames, hy]))
  | some h h' =>
    exact .some (h.restrict fun x y hy => hR x y (by simp [freeNames, hy])) (h'.restrict fun x y hy => hR x y
      (by simp [freeNames, hy]))

theorem Flattens.atom (ha : e.isAtomic = true) (h : ∀ x ∈ e.freeNames, R x x) : Flattens keep R e e := by
  cases e with
  | var x => exact .var (h x (by simp [freeNames]))
  | val v => exact .val v
  | quote v => exact .quote v
  | _ => cases ha

theorem FlattensAll.self {es : List Core} (h : ∀ e ∈ es, Flattens keep R e e) : FlattensAll keep R es es := by
  induction es with
  | nil => exact .nil
  | cons e es ih => exact .cons (h e List.mem_cons_self) (ih fun e' he' => h e' (List.mem_cons_of_mem e he'))

theorem FlattensParts.atoms {as : List Core} (ha : ∀ a ∈ as, a.isAtomic = true) (h : ∀ a ∈ as, Flattens keep R a a) :
    FlattensParts keep R as [] as := by
  induction as with
  | nil => exact .nil
  | cons a as ih =>
    have hatom : Flattens keep (R.without (boundBy [])) a a :=
      (h a List.mem_cons_self).restrict fun _ _ _ hab => ⟨hab, List.not_mem_nil⟩
    exact .atom (ha a List.mem_cons_self) hatom
      (ih (fun a' ha' => ha a' (List.mem_cons_of_mem a ha')) fun a' ha' => h a' (List.mem_cons_of_mem a ha'))

/-- the operator and the operands of an application are atoms -/
def AtomicCall : Core → Prop
  | .app f es => ∀ e ∈ f :: es, e.isAtomic = true
  | _ => True

theorem keep_child {e c : Core} (h : keep ∨ e.Every AtomicCall) (hc : c ∈ e.children) : keep ∨ c.Every AtomicCall :=
  h.imp_right fun h => h.child hc

/-- an expression is its own flattened form if applications may keep their parts, or have atoms only -/
theorem Flattens.self (hkeep : keep ∨ e.Every AtomicCall) (h : ∀ x ∈ e.freeNames, R x x) : Flattens keep R e e := by
  induction e generalizing R with
  | var name => exact .var (h name (by simp [freeNames]))
  | val v => exact .val v
  | quote v => exact .quote v
  | letIn name value body ihv ihb =>
    have hv : Flattens keep R value (bindAll [] value) :=
      ihv (keep_child hkeep (by simp [children])) fun x hx => h x (by simp [freeNames, hx])
    refine .letIn hv (ihb (keep_child hkeep (by simp [children])) fun x hx => ?_)
    by_cases hxn : x = name
    · exact Or.inl ⟨hxn, hxn⟩
    · exact Or.inr ⟨hxn, hxn, h x (by simp [freeNames, hx, hxn]), List.not_mem_nil⟩
  | lambda params rest body ih =>
    refine .lambda (ih (keep_child hkeep (by simp [children])) fun x hx => ?_)
    by_cases hxb : x ∈ binders params rest
    · exact Or.inl ⟨rfl, hxb⟩
    · exact Or.inr ⟨hxb, hxb, h x (by simp [freeNames, hx, hxb])⟩
  | app operator operands ihf ihas =>
    have hparts : ∀ p ∈ operator :: operands, Flattens keep R p p := by
      refine List.forall_mem_cons.2 ⟨ihf (keep_child hkeep (by simp [children])) fun x hx =>
        h x (by simp [freeNames, hx]), fun p hp => ?_⟩
      refine ihas p hp (keep_child hkeep (by simp [children, hp])) fun x hx => h x ?_
      simpa [freeNames] using Or.inl ⟨p, hp, hx⟩
    rcases hkeep with hkeep | hatoms
    · exact .appKept hkeep (.self hparts)
    · have happ : Flattens keep R (.app operator operands) (bindAll [] (.app operator operands)) :=
        .app (.atoms hatoms.root hparts)
      exact happ
  | branch test consequent alternative iht ihc iha =>
    cases alternative with
    | none =>
      have ht := iht (keep_child hkeep (by simp [children])) fun x hx => h x (by simp [freeNames, hx])
      have hc := ihc (keep_child hkeep (by simp [children])) fun x hx => h x (by simp [freeNames, hx])
      exact .branchKept ht (.none hc)
    | some alternative =>
      have ht := iht (keep_child hkeep (by simp [children])) fun x hx => h x (by simp [freeNames, hx])
      have hc := ihc (keep_child hkeep (by simp [children])) fun x hx => h x (by simp [freeNames, hx])
      have ha := iha _ rfl (keep_child hkeep (by simp [children])) fun x hx => h x (by simp [freeNames, hx])
      exact .branchKept ht (.some hc ha)
  | assign name value ih =>
    exact .assign (h name (by simp [freeNames]))
      (ih (keep_child hkeep (by simp [children])) fun x hx => h x (by simp [freeNames, hx]))

end SchemeStack
