/-
The A-normal form of an expression is a flattened form of it.

Moving the bindings at the top of a value outside gives them fresh names where they would capture a free name of the
body (`bindLifted_spec`): the value is the same up to bound names, and none of the bindings that were moved hides a
free name of the body, the name bound there excepted. With that, moving bindings after naming parts yields a flattened
form, and no application keeps a part in place that is not atomic (`normalForm_flattens`).
-/
import SchemeStack.Proofs.Flattening
import SchemeStack.Proofs.NameSupply

namespace SchemeStack.Core

open Supply

variable {keep : Prop} {R : NameRel} {s : Supply}

/-! ## Free names behind bindings -/

theorem freeNames_bindAll_cons (b : String × Core) (B : List (String × Core)) (k : Core) :
    (bindAll (b :: B) k).freeNames = b.2.freeNames ++ (bindAll B k).freeNames.filter (· != b.1) := rfl

theorem bindAll_append (A B : List (String × Core)) (k : Core) : bindAll (A ++ B) k = bindAll A (bindAll B k) :=
  List.foldr_append

theorem mem_freeNames_bindAll {x : String} {B : List (String × Core)} {k : Core} (hx : x ∈ k.freeNames)
    (hB : x ∉ boundBy B) : x ∈ (bindAll B k).freeNames := by
  induction B with
  | nil => exact hx
  | cons b B ih =>
    simp only [boundBy, List.map_cons, List.mem_cons, not_or] at hB
    simp [freeNames_bindAll_cons, ih hB.2, hB.1]

theorem freeNames_bindAll_mono {B : List (String × Core)} {k k' : Core} (h : ∀ x ∈ k.freeNames, x ∈ k'.freeNames) :
    ∀ x ∈ (bindAll B k).freeNames, x ∈ (bindAll B k').freeNames := by
  induction B with
  | nil => exact h
  | cons b B ih =>
    intro x hx
    simp only [freeNames_bindAll_cons, List.mem_append, List.mem_filter] at hx ⊢
    exact hx.imp_right fun hx => ⟨ih x hx.1, hx.2⟩

/-! ## Moving the bindings of one value -/

/-- **Moving the bindings of a value.** They end up around the binding of the value; the value is the same up to bound
names, and none of the moved bindings hides a free name of the body, except the name that is bound there anyway. -/
theorem bindLifted_spec (name : String) {body value : Core} (hv : s.Knows value) (hb : s.Knows body) :
    ∃ L t s', bindLifted true name body value s = (bindAll L (letIn name t body), s') ∧ s.Le s' ∧
      s'.Knows (bindAll L t) ∧ Renames (· = ·) value (bindAll L t) ∧
      ∀ y ∈ boundBy L, y ∈ body.freeNames → y = name := by
  induction value, s using bindLifted.induct true name body with
  | case1 inner w b s hcapture g ih =>
    have hle : s.Le g.2 := s.le_mint _
    have hg : g.1 ∉ s.table.names := s.mint_not_mem _
    have hknown : g.2.Knows (renameFree inner g.1 b) := by
      intro x hx
      rcases mem_allNames_renameFree hx with rfl | hx
      · exact s.mint_mem _
      · exact hle x (hv x (by simp [hx]))
    obtain ⟨L, t, s', heq, hle', hknown', hrenames, hhidden⟩ := ih hknown (hb.le hle)
    have hgb : g.1 ∉ b.allNames := fun h => hg (hv _ (by simp [h]))
    refine ⟨(g.1, w) :: L, t, s', ?_, hle.trans hle', ?_, ?_, ?_⟩
    · rw [bindLifted, if_pos hcapture]
      dsimp only
      rw [heq]
      rfl
    · intro x hx
      rcases mem_allNames_letIn.1 hx with rfl | hx | hx
      · exact hle' _ (s.mint_mem _)
      · exact hle' _ (hle _ (hv x (by simp [hx])))
      · exact hknown' x hx
    · refine .letIn (.self fun _ _ => rfl) (hrenames.of_renameFree hgb ?_)
      rintro c c' hc rfl
      unfold swapName
      split
      · rename_i hci
        exact Or.inl ⟨hci, rfl⟩
      · rename_i hci
        exact Or.inr ⟨hci, fun h => hgb (h ▸ mem_allNames_of_mem_freeNames hc), rfl⟩
    · intro y hy hfree
      rcases List.mem_cons.1 hy with rfl | hy
      · exact absurd (hb _ (mem_allNames_of_mem_freeNames hfree)) hg
      · exact hhidden y hy hfree
  | case2 inner w b s hcapture ih =>
    obtain ⟨L, t, s', heq, hle, hknown, hrenames, hhidden⟩ := ih (fun x hx => hv x (by simp [hx])) hb
    refine ⟨(inner, w) :: L, t, s', ?_, hle, ?_, ?_, ?_⟩
    · rw [bindLifted, if_neg hcapture]
      dsimp only
      rw [heq]
      rfl
    · intro x hx
      rcases mem_allNames_letIn.1 hx with rfl | hx | hx
      · exact hle _ (hv _ (by simp))
      · exact hle _ (hv x (by simp [hx]))
      · exact hknown x hx
    · refine .letIn (.self fun _ _ => rfl) (hrenames.imp ?_)
      rintro c _ - rfl
      by_cases hci : c = inner
      · exact Or.inl ⟨hci, hci⟩
      · exact Or.inr ⟨hci, hci, rfl⟩
    · intro y hy hfree
      rcases List.mem_cons.1 hy with rfl | hy
      · simpa [hfree] using hcapture
      · exact hhidden y hy hfree
  | case3 value s hlet =>
    refine ⟨[], value, s, ?_, .refl s, hv, .self fun _ _ => rfl, nofun⟩
    rw [bindLifted]
    · rfl
    · exact hlet

theorem bindLifted_keeps {name : String} {body value : Core} (hn : name ∈ s.table.names) (hv : s.Knows value)
    (hb : s.Knows body) : Keeps s (bindLifted true name body value s) := by
  obtain ⟨L, t, s', heq, hle, hknown, -, -⟩ := bindLifted_spec name hv hb
  rw [heq]
  refine ⟨hle, fun x hx => ?_⟩
  rcases mem_allNames_bindAll.1 hx with hL | hx
  · exact hknown x (mem_allNames_bindAll.2 (Or.inl hL))
  · rcases mem_allNames_letIn.1 hx with rfl | hx | hx
    · exact hle _ hn
    · exact hknown x (mem_allNames_bindAll.2 (Or.inr hx))
    · exact hle x (hb x hx)

/-! ## Moving bindings everywhere -/

theorem liftLetsAll_keeps {es : List Core} (hs : ∀ e ∈ es, s.Knows e)
    (hes : ∀ e ∈ es, ∀ s : Supply, s.Knows e → Keeps s (e.liftLets true s)) :
    s.Le (liftLetsAll true es s).2 ∧ ∀ e ∈ (liftLetsAll true es s).1, (liftLetsAll true es s).2.Knows e := by
  induction es generalizing s with
  | nil => exact ⟨.refl s, nofun⟩
  | cons e es ih =>
    obtain ⟨hle, he⟩ := hes e List.mem_cons_self s (hs e List.mem_cons_self)
    obtain ⟨hle', hes'⟩ := ih (fun e' he' => (hs e' (List.mem_cons_of_mem e he')).le hle)
      fun e' he' => hes e' (List.mem_cons_of_mem e he')
    exact ⟨hle.trans hle', List.forall_mem_cons.2 ⟨he.le hle', hes'⟩⟩

/-- moving bindings only adds names to the supply, which knows the result -/
theorem liftLets_keeps (e : Core) (s : Supply) (h : s.Knows e) : Keeps s (e.liftLets true s) := by
  induction e generalizing s with
  | var name => exact ⟨.refl s, h⟩
  | val v => exact ⟨.refl s, h⟩
  | quote v => exact ⟨.refl s, h⟩
  | letIn name value body ihv ihb =>
    obtain ⟨hle, hv⟩ := ihv s fun x hx => h x (by simp [hx])
    obtain ⟨hle', hb⟩ := ihb (value.liftLets true s).2 fun x hx => hle x (h x (by simp [hx]))
    obtain ⟨hle'', hr⟩ := bindLifted_keeps (hle' _ (hle _ (h name (by simp)))) (hv.le hle') hb
    exact ⟨(hle.trans hle').trans hle'', hr⟩
  | lambda params rest body ih =>
    obtain ⟨hle, hb⟩ := ih s fun x hx => h x (by simp [hx])
    refine ⟨hle, fun x hx => ?_⟩
    rcases mem_allNames_lambda.1 hx with hx | hx
    · exact hle x (h x (by simp [hx]))
    · exact hb x hx
  | app operator operands ihf ihas =>
    obtain ⟨hle, hf⟩ := ihf s fun x hx => h x (by simp [hx])
    obtain ⟨hle', has⟩ :=
      liftLetsAll_keeps (fun e he x hx => hle x (h x (mem_allNames_app.2 (Or.inl ⟨e, he, hx⟩)))) ihas
    refine ⟨hle.trans hle', fun x hx => ?_⟩
    rcases mem_allNames_app.1 hx with ⟨e, he, hx⟩ | hx
    · exact has e he x hx
    · exact hf.le hle' x hx
  | branch test consequent alternative iht ihc iha =>
    cases alternative with
    | none =>
      obtain ⟨hle, ht⟩ := iht s fun x hx => h x (by simp [hx])
      obtain ⟨hle', hc⟩ := ihc (test.liftLets true s).2 fun x hx => hle x (h x (by simp [hx]))
      refine ⟨hle.trans hle', fun x hx => ?_⟩
      rcases mem_allNames_branch_none.1 hx with hx | hx
      · exact ht.le hle' x hx
      · exact hc x hx
    | some alternative =>
      obtain ⟨hle, ha⟩ := iha _ rfl s fun x hx => h x (by simp [hx])
      obtain ⟨hle', ht⟩ := iht (alternative.liftLets true s).2 fun x hx => hle x (h x (by simp [hx]))
      obtain ⟨hle'', hc⟩ := ihc (test.liftLets true (alternative.liftLets true s).2).2 fun x hx =>
        hle' x (hle x (h x (by simp [hx])))
      refine ⟨(hle.trans hle').trans hle'', fun x hx => ?_⟩
      rcases mem_allNames_branch_some.1 hx with hx | hx | hx
      · exact ht.le hle'' x hx
      · exact hc x hx
      · exact ha.le (hle'.trans hle'') x hx
  | assign name value ih =>
    obtain ⟨hle, hv⟩ := ih s fun x hx => h x (by simp [hx])
    refine ⟨hle, fun x hx => ?_⟩
    rcases mem_allNames_assign.1 hx with rfl | hx
    · exact hle _ (h _ (by simp))
    · exact hv x hx

theorem liftLets_atom {a : Core} (h : a.isAtomic = true) (s : Supply) : a.liftLets true s = (a, s) := by
  cases a with
  | var name => rfl
  | val v => rfl
  | quote v => rfl
  | _ => cases h

theorem liftLetsAll_atoms {as : List Core} (h : ∀ a ∈ as, a.isAtomic = true) (s : Supply) :
    liftLetsAll true as s = (as, s) := by
  induction as with
  | nil => rfl
  | cons a as ih =>
    rw [liftLetsAll]
    simp only [liftLets_atom (h a List.mem_cons_self), ih fun e he => h e (List.mem_cons_of_mem a he)]

/-! ## Naming parts, then moving bindings -/

theorem NamesParts.atomic {s' : Supply} {es as : List Core} {B : List (String × Core)} (h : NamesParts s es as B s') :
    ∀ a ∈ as, a.isAtomic = true := by
  induction h with
  | nil s => exact nofun
  | atom hatomic _ ih => exact List.forall_mem_cons.2 ⟨hatomic, ih⟩
  | named event _ _ ih => exact List.forall_mem_cons.2 ⟨rfl, ih⟩

/-- the names that parts are bound to were not in the table -/
theorem NamesParts.fresh {s' : Supply} {es as : List Core} {B : List (String × Core)} (h : NamesParts s es as B s')
    (hs : ∀ e ∈ es, s.Knows e) : ∀ y ∈ boundBy B, y ∉ s.table.names := by
  induction h with
  | nil s => exact nofun
  | atom _ _ ih => exact ih fun e he => hs e (List.mem_cons_of_mem _ he)
  | @named s s' e es as B event _ _ ih =>
    have hle : s.Le (e.nameParts (s.mint event).2).2 :=
      (s.le_mint event).trans (nameParts_keeps e _ ((hs e List.mem_cons_self).le (s.le_mint event))).1
    refine List.forall_mem_cons.2 ⟨s.mint_not_mem event, fun y hy hmem => ?_⟩
    exact ih (fun e' he' => (hs e' (List.mem_cons_of_mem _ he')).le hle) y hy (hle y hmem)

/-- the A-normal form of the expression is a flattened form of it -/
def NormalizesTo (keep : Prop) (e : Core) : Prop :=
  ∀ ⦃R : NameRel⦄ ⦃s s' : Supply⦄, s.Knows e → s'.Knows (e.nameParts s).1 → (∀ x ∈ e.freeNames, R x x) →
    Flattens keep R e ((e.nameParts s).1.liftLets true s').1

theorem lifted_flattens (name : String) {e body value : Core} (h : Flattens keep R e value) (hv : s.Knows value)
    (hb : s.Knows body) :
    ∃ L t s', bindLifted true name body value s = (bindAll L (letIn name t body), s') ∧
      Flattens keep R e (bindAll L t) ∧ ∀ y ∈ boundBy L, y ∈ body.freeNames → y = name := by
  obtain ⟨L, t, s', heq, -, -, hrenames, hhidden⟩ := bindLifted_spec name hv hb
  refine ⟨L, t, s', heq, Flattens.renames e h hrenames ?_, hhidden⟩
  rintro a b _ hab rfl
  exact hab

theorem NamesParts.flattens {s' s₂ : Supply} {es as : List Core} {B : List (String × Core)} {k : Core}
    (h : NamesParts s es as B s') (hs : ∀ e ∈ es, s.Knows e) (hes : ∀ e ∈ es, NormalizesTo keep e)
    (hk : ∀ s : Supply, k.liftLets true s = (k, s)) (has : ∀ a ∈ as, ∀ x ∈ a.freeNames, x ∈ k.freeNames)
    (hs₂ : s₂.Knows (bindAll B k)) (hR : ∀ e ∈ es, ∀ x ∈ e.freeNames, R x x) :
    ∃ B', ((bindAll B k).liftLets true s₂).1 = bindAll B' k ∧ FlattensParts keep R es B' as ∧
      ∀ y ∈ boundBy B', y ∈ k.freeNames → y ∈ boundBy B := by
  induction h generalizing R s₂ with
  | nil s => exact ⟨[], by rw [show bindAll [] k = k from rfl, hk], .nil, nofun⟩
  | @atom s s' e es as B hatomic hparts ih =>
    obtain ⟨B', heq, hflat, hbound⟩ := ih (fun e he => hs e (List.mem_cons_of_mem _ he))
      (fun e he => hes e (List.mem_cons_of_mem _ he)) (fun a ha => has a (List.mem_cons_of_mem _ ha)) hs₂
      fun e he => hR e (List.mem_cons_of_mem _ he)
    -- a name of the atom is known, and those of the bindings were not
    have hvisible : ∀ x ∈ e.freeNames, x ∉ boundBy B' := fun x hx hx' =>
      hparts.fresh (fun e he => hs e (List.mem_cons_of_mem _ he)) x (hbound x hx' (has e List.mem_cons_self x hx))
        (hs e List.mem_cons_self x (mem_allNames_of_mem_freeNames hx))
    exact ⟨B', heq, .atom hatomic (.atom hatomic fun x hx => ⟨hR e List.mem_cons_self x hx, hvisible x hx⟩) hflat,
      hbound⟩
  | @named s s' e es as B event hatomic hparts ih =>
    let g := s.mint event
    let v := e.nameParts g.2
    let V := v.1.liftLets true s₂
    let K := (bindAll B k).liftLets true V.2
    have hle : s.Le v.2 :=
      (s.le_mint event).trans (nameParts_keeps e _ ((hs e List.mem_cons_self).le (s.le_mint event))).1
    have hgv : g.1 ∈ v.2.table.names :=
      (nameParts_keeps e _ ((hs e List.mem_cons_self).le (s.le_mint event))).1 _ (s.mint_mem event)
    have hs' : ∀ e' ∈ es, v.2.Knows e' := fun e' he' => (hs e' (List.mem_cons_of_mem _ he')).le hle
    obtain ⟨hleV, hV⟩ : Keeps s₂ V := liftLets_keeps v.1 s₂ fun x hx =>
      hs₂ x (mem_allNames_letIn.2 (Or.inr (Or.inl hx)))
    have hB : V.2.Knows (bindAll B k) := fun x hx => hleV x (hs₂ x (mem_allNames_letIn.2 (Or.inr (Or.inr hx))))
    obtain ⟨hleK, hK⟩ : Keeps V.2 K := liftLets_keeps _ _ hB
    -- the parts behind, where the new name stands for nothing
    have hRg : ∀ e' ∈ es, ∀ x ∈ e'.freeNames, R.without [g.1] x x := by
      intro e' he' x hx
      refine ⟨hR e' (List.mem_cons_of_mem _ he') x hx, fun hxg => s.mint_not_mem event ?_⟩
      rw [← List.mem_singleton.1 hxg]
      exact hs e' (List.mem_cons_of_mem _ he') x (mem_allNames_of_mem_freeNames hx)
    obtain ⟨B', heq, hflat, hbound⟩ := ih hs' (fun e' he' => hes e' (List.mem_cons_of_mem _ he'))
      (fun a ha => has a (List.mem_cons_of_mem _ ha)) hB hRg
    have hKeq : K.1 = bindAll B' k := heq
    -- the part itself
    have he : Flattens keep R e V.1 := hes e List.mem_cons_self ((hs e List.mem_cons_self).le (s.le_mint event))
      (fun x hx => hs₂ x (mem_allNames_letIn.2 (Or.inr (Or.inl hx)))) (hR e List.mem_cons_self)
    obtain ⟨L, t, s₃, hlifted, hflat', hhidden⟩ := lifted_flattens g.1 he (hV.le hleK) hK
    rw [hKeq] at hlifted hhidden
    have hgk : g.1 ∈ k.freeNames := has _ List.mem_cons_self g.1 (List.mem_singleton.2 rfl)
    have hgB : g.1 ∉ boundBy B' := fun h => hparts.fresh hs' _ (hbound _ h hgk) hgv
    refine ⟨L ++ (g.1, t) :: B', ?_, .named hatomic hflat' hgB (hflat.restrict ?_), ?_⟩
    · rw [bindAll_append]
      have hlet : ((bindAll ((g.1, v.1) :: B) k).liftLets true s₂) = bindLifted true g.1 K.1 V.1 K.2 := rfl
      rw [hlet, hKeq, hlifted]
      rfl
    · rintro a b hb ⟨hab, hbg⟩
      have hbk : b ∈ (bindAll B' k).freeNames := by
        refine freeNames_bindAll_mono (fun x hx => ?_) b hb
        obtain ⟨a, ha, hx⟩ : ∃ a ∈ as, x ∈ a.freeNames := by simpa [freeNames] using hx
        exact has a (List.mem_cons_of_mem _ ha) x hx
      refine ⟨hab, fun h => ?_⟩
      rcases List.mem_cons.1 h with rfl | h
      · exact hbg List.mem_cons_self
      · exact hbg (List.mem_singleton.2 (hhidden b h hbk))
    · intro y hy hyk
      simp only [boundBy, List.map_append, List.map_cons, List.mem_append, List.mem_cons] at hy ⊢
      by_cases hyB : y ∈ boundBy B'
      · exact Or.inr (hbound y hyB hyk)
      · rcases hy with hy | hy | hy
        · exact Or.inl (hhidden y hy (mem_freeNames_bindAll hyk hyB))
        · exact Or.inl hy
        · exact absurd hy hyB

/-- the arms of a conditional with a test that is an atom -/
theorem nameArms_flattens {a c : Core} {alternative : Option Core} {s' : Supply} (ha : a.isAtomic = true)
    (hc : s.Knows c) (halt : ∀ e ∈ alternative, s.Knows e) (hs' : s'.Knows (nameArms a c alternative s).1)
    (ihc : NormalizesTo keep c) (iha : ∀ e ∈ alternative, NormalizesTo keep e)
    (hRc : ∀ x ∈ c.freeNames, R x x) (hRa : ∀ e ∈ alternative, ∀ x ∈ e.freeNames, R x x) :
    ∃ c' alternative', ((nameArms a c alternative s).1.liftLets true s').1 = branch a c' alternative' ∧
      FlattensArms keep R c alternative c' alternative' := by
  cases alternative with
  | none =>
    have hc' : s'.Knows (c.nameParts s).1 := fun x hx => hs' x (mem_allNames_branch_none.2 (Or.inr hx))
    refine ⟨_, none, ?_, .none (ihc hc hc' hRc)⟩
    simp only [nameArms, liftLets, liftLets_atom ha]
  | some e =>
    let c' := c.nameParts s
    let e' := e.nameParts c'.2
    have hknown : s'.Knows (branch a c'.1 (some e'.1)) := hs'
    have hle : s.Le c'.2 := (nameParts_keeps c s hc).1
    have he' : s'.Knows e'.1 := fun x hx => hknown x (mem_allNames_branch_some.2 (Or.inr (Or.inr hx)))
    have hle' : s'.Le (e'.1.liftLets true s').2 := (liftLets_keeps e'.1 s' he').1
    have hc' : (e'.1.liftLets true s').2.Knows c'.1 := fun x hx =>
      hle' x (hknown x (mem_allNames_branch_some.2 (Or.inr (Or.inl hx))))
    refine ⟨_, some _, ?_, .some (ihc hc hc' hRc) (iha e rfl ((halt e rfl).le hle) he' (hRa e rfl))⟩
    simp only [nameArms, liftLets, liftLets_atom ha]
    rfl

/-- naming parts and moving bindings yields a flattened form -/
theorem normalizesTo (e : Core) : NormalizesTo keep e := by
  intro R s s' hs hs' hR
  induction e generalizing R s s' with
  | var name => exact .var (hR name (by simp [freeNames]))
  | val v => exact .val v
  | quote v => exact .quote v
  | letIn name value body ihv ihb =>
    let v := value.nameParts s
    let b := body.nameParts v.2
    let V := v.1.liftLets true s'
    let B := b.1.liftLets true V.2
    obtain ⟨hle, -⟩ : Keeps s v := nameParts_keeps value s fun x hx => hs x (by simp [hx])
    have hv : s'.Knows v.1 := fun x hx => hs' x (mem_allNames_letIn.2 (Or.inr (Or.inl hx)))
    obtain ⟨hleV, hV⟩ : Keeps s' V := liftLets_keeps v.1 s' hv
    have hb : V.2.Knows b.1 := fun x hx => hleV x (hs' x (mem_allNames_letIn.2 (Or.inr (Or.inr hx))))
    obtain ⟨hleB, hB⟩ : Keeps V.2 B := liftLets_keeps b.1 V.2 hb
    have hflat : Flattens keep R value V.1 := ihv (fun x hx => hs x (by simp [hx])) hv fun x hx =>
      hR x (by simp [freeNames, hx])
    have hflat' : Flattens keep (R.bind name name) body B.1 := by
      refine ihb (fun x hx => hle x (hs x (by simp [hx]))) hb fun x hx => ?_
      by_cases hxn : x = name
      · exact Or.inl ⟨hxn, hxn⟩
      · exact Or.inr ⟨hxn, hxn, hR x (by simp [freeNames, hx, hxn])⟩
    obtain ⟨L, t, s₃, hlifted, hvalue, hhidden⟩ := lifted_flattens name hflat (hV.le hleB) hB
    have heq : (((letIn name value body).nameParts s).1.liftLets true s').1 = bindAll L (letIn name t B.1) :=
      congrArg Prod.fst hlifted
    rw [heq]
    refine .letIn hvalue (hflat'.restrict ?_)
    rintro a c hc (h | ⟨han, hcn, hac⟩)
    · exact Or.inl h
    · exact Or.inr ⟨han, hcn, hac, fun hcL => hcn (hhidden c hcL hc)⟩
  | lambda params rest body ih =>
    refine .lambda
      (ih (fun x hx => hs x (by simp [hx])) (fun x hx => hs' x (mem_allNames_lambda.2 (Or.inr hx))) fun x hx => ?_)
    by_cases hxb : x ∈ binders params rest
    · exact Or.inl ⟨rfl, hxb⟩
    · exact Or.inr ⟨hxb, hxb, hR x (by simp [freeNames, hx, hxb])⟩
  | app operator operands ihf ihas =>
    obtain ⟨a, as, B, s₁, heq, hparts⟩ := nameParts_app operator operands s
    rw [heq] at hs' ⊢
    have hatomic := hparts.atomic
    have hk : ∀ s : Supply, (app a as).liftLets true s = (app a as, s) := by
      intro s
      rw [liftLets]
      simp only [liftLets_atom (hatomic a List.mem_cons_self),
        liftLetsAll_atoms fun e he => hatomic e (List.mem_cons_of_mem a he)]
    have hknown : ∀ e ∈ operator :: operands, s.Knows e := List.forall_mem_cons.2
      ⟨fun x hx => hs x (by simp [hx]), fun e he x hx => hs x (mem_allNames_app.2 (Or.inl ⟨e, he, hx⟩))⟩
    have hall : ∀ e ∈ operator :: operands, NormalizesTo keep e := List.forall_mem_cons.2 ⟨ihf, ihas⟩
    have hfree : ∀ e ∈ a :: as, ∀ x ∈ e.freeNames, x ∈ (app a as).freeNames := by
      refine List.forall_mem_cons.2 ⟨fun x hx => by simp [freeNames, hx], fun e he x hx => ?_⟩
      simpa [freeNames] using Or.inl ⟨e, he, hx⟩
    have hself : ∀ e ∈ operator :: operands, ∀ x ∈ e.freeNames, R x x := by
      refine List.forall_mem_cons.2 ⟨fun x hx => hR x (by simp [freeNames, hx]), fun e he x hx => hR x ?_⟩
      simpa [freeNames] using Or.inl ⟨e, he, hx⟩
    obtain ⟨B', heq', hflat, -⟩ := hparts.flattens hknown hall hk hfree hs' hself
    rw [heq']
    exact .app hflat
  | branch test consequent alternative iht ihc iha =>
    have ht : s.Knows test := fun x hx => hs x (by cases alternative <;> simp [hx])
    have hc : s.Knows consequent := fun x hx => hs x (by cases alternative <;> simp [hx])
    have ha : ∀ e ∈ alternative, s.Knows e := by
      rintro e rfl x hx
      exact hs x (by simp [hx])
    have hRt : ∀ x ∈ test.freeNames, R x x := fun x hx => hR x (by cases alternative <;> simp [freeNames, hx])
    have hRc : ∀ x ∈ consequent.freeNames, R x x := fun x hx => hR x (by cases alternative <;> simp [freeNames, hx])
    have hRa : ∀ e ∈ alternative, ∀ x ∈ e.freeNames, R x x := by
      rintro e rfl x hx
      exact hR x (by simp [freeNames, hx])
    cases hatomic : test.isAtomic with
    | true =>
      rw [nameParts_branch_atomic hatomic] at hs' ⊢
      obtain ⟨c', a', heq, harms⟩ := nameArms_flattens hatomic hc ha hs' ihc iha hRc hRa
      rw [heq]
      exact .branchKept (.atom hatomic hRt) harms
    | false =>
      rw [nameParts_branch_named hatomic] at hs' ⊢
      let g := s.mint (.named .test)
      let t := test.nameParts g.2
      let r := nameArms (var g.1) consequent alternative t.2
      let V := t.1.liftLets true s'
      let K := r.1.liftLets true V.2
      have hle : s.Le t.2 := (s.le_mint _).trans (nameParts_keeps test _ (ht.le (s.le_mint _))).1
      have ht' : s'.Knows t.1 := fun x hx => hs' x (mem_allNames_letIn.2 (Or.inr (Or.inl hx)))
      obtain ⟨hleV, hV⟩ : Keeps s' V := liftLets_keeps t.1 s' ht'
      have hr : V.2.Knows r.1 := fun x hx => hleV x (hs' x (mem_allNames_letIn.2 (Or.inr (Or.inr hx))))
      obtain ⟨hleK, hK⟩ : Keeps V.2 K := liftLets_keeps r.1 V.2 hr
      -- the arms, where the new name stands for nothing
      have hnew : ∀ x ∈ s.table.names, x ∉ [g.1] := by
        rintro x hx hxg
        rw [List.mem_singleton.1 hxg] at hx
        exact s.mint_not_mem _ hx
      obtain ⟨c', a', heq, harms⟩ :=
        nameArms_flattens (R := R.without [g.1]) rfl (hc.le hle) (fun e he => (ha e he).le hle) hr
        ihc iha (fun x hx => ⟨hRc x hx, hnew x (hc x (mem_allNames_of_mem_freeNames hx))⟩)
        fun e he x hx => ⟨hRa e he x hx, hnew x (ha e he x (mem_allNames_of_mem_freeNames hx))⟩
      have hKeq : K.1 = branch (var g.1) c' a' := heq
      have hflat : Flattens keep R test V.1 := iht (ht.le (s.le_mint _)) ht' hRt
      obtain ⟨L, t₀, s₃, hlifted, htest, hhidden⟩ := lifted_flattens g.1 hflat (hV.le hleK) hK
      rw [hKeq] at hlifted hhidden
      have hlet : ((letIn g.1 t.1 r.1).liftLets true s').1 = (bindLifted true g.1 K.1 V.1 K.2).1 := rfl
      rw [hlet, hKeq, hlifted]
      refine .branch htest (harms.restrict (t := var g.1) ?_)
      rintro x y hy ⟨hxy, hyg⟩
      refine ⟨hxy, fun h => ?_⟩
      rcases List.mem_cons.1 h with rfl | h
      · exact hyg List.mem_cons_self
      · exact hyg (List.mem_singleton.2 (hhidden y h hy))
  | assign name value ih =>
    exact .assign (hR name (by simp [freeNames])) (ih (fun x hx => hs x (by simp [hx]))
      (fun x hx => hs' x (mem_allNames_assign.2 (Or.inr hx))) fun x hx => hR x (by simp [freeNames, hx]))

/-- **The A-normal form is a flattened form.** No application keeps a part that is not atomic, so this holds for any
`keep`. -/
theorem normalForm_flattens (e : Core) (s : Supply) : Flattens keep (· = ·) e (e.normalForm s).1 := by
  have hs := knows_internNames e s
  exact normalizesTo e hs (nameParts_keeps e _ hs).2 fun _ _ => rfl

end SchemeStack.Core
