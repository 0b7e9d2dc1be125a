/-
Which faults a compilation can end with.

`compilation_faults`: a text that has no program was not read, or has a form that analysis rejects, and the failure is
the diagnostic of that stage. A text that ends inside a token, a token other than the one expected, and faults of code
generation never occur, lowering never fails, and the only breakdown is that of a numeral with too many digits: the
analysis takes no list apart that it has not looked at.

The parts:
- scanning yields tokens that can be read, with integers that 64 bits hold, and faults of spelling
  (`Cursor.feed_documented`);
- a fault of reading is an offence of the text, or a numeral of it that is too long (`readText_kind`);
- analysis yields what has a core form, or rejects a form (`Expr.ofDatum_settles`);
- the stages after it have no fault (`Run.exists_normals`).
-/
import SchemeStack.Pipeline
import SchemeStack.Proofs.AnalysisSoundness
import SchemeStack.Proofs.FaultPlaces

namespace SchemeStack

open SchemeStack.Text

/-- the kinds of fault that scanning and reading a text report -/
def DiagnosticKind.isReading : DiagnosticKind → Bool
  | .lexInvalid => true
  | .lexUnbalanced => true
  | .parseEnd => true
  | .parseUnbalanced => true
  | _ => false

/-! ## Reading -/

/-- a numeral has more digits than are converted -/
def Diagnostic.TellsLength (fault : Diagnostic) : Prop :=
  ∃ count, maxDigits < count ∧ fault = .broken (.numeralLength count)

/-- a token that can be read, whose integer 64 bits hold; or a fault of spelling -/
def Event.Documented : Event → Prop
  | .ok t => t.lexeme ≠ .endOfInput ∧ ∀ n mark, t.lexeme = .integer n → Datum.integer? n mark = .ok (.int n mark)
  | .error fault => fault.kind = .lexUnbalanced ∨ fault.kind = .lexInvalid ∨ fault.TellsLength

/-- the end of the text, or a character that starts no token -/
def Ending.Documented : Ending → Prop
  | .finished _ => True
  | .stuck fault => fault.kind = .lexInvalid

theorem Misspells.documented {run rest : List Char} {cause : Cause} (h : Misspells run rest cause) (pos : Source.Pos) :
    Event.Documented (.error (.ofToken cause pos)) := by
  cases h with
  | openString _ => exact Or.inl rfl
  | tooLong _ _ _ hlong => exact Or.inr (Or.inr ⟨_, hlong, rfl⟩)
  | tooLarge _ _ _ _ => exact Or.inr (Or.inl rfl)

theorem Spells.integer_fits {run : List Char} {n : Int} (h : Spells run (.integer n)) (mark : Source.Mark) :
    Datum.integer? n mark = .ok (.int n mark) := by
  cases h with
  | @integer digits n _ _ _ hrange _ =>
    have hbound : Datum.maxInteger = ((Nat.pow 2 63 - 1 : Nat) : Int) := by decide
    have hmax : (n : Int) ≤ Datum.maxInteger := by
      rw [hbound]
      exact Int.ofNat_le.2 hrange
    have hmin : Datum.minInteger ≤ n := Int.le_trans (by decide : Datum.minInteger ≤ 0) (Int.natCast_nonneg n)
    rw [Datum.integer?, if_pos ⟨hmin, hmax⟩]

theorem Cursor.feed_documented (c : Cursor) :
    (∀ event ∈ c.feed.events, event.Documented) ∧ c.feed.ending.Documented := by
  induction c using Cursor.scanInduct with
  | lexeme c lexeme run rest hmunch ih =>
    obtain ⟨hspells, -⟩ := munch_spells hmunch
    have htoken : Event.Documented (.ok ⟨lexeme, c.skipTrivia.pos⟩) := by
      refine ⟨hspells.ne_endOfInput, fun n mark hn => ?_⟩
      cases hn
      exact hspells.integer_fits mark
    rw [feed_lexeme hmunch]
    exact ⟨List.forall_mem_cons.2 ⟨htoken, ih.1⟩, ih.2⟩
  | fault c cause run rest hmunch ih =>
    rw [feed_fault hmunch]
    exact ⟨List.forall_mem_cons.2 ⟨(munch_misspells hmunch).1.documented _, ih.1⟩, ih.2⟩
  | stuck c ch hmunch =>
    rw [feed_stuck hmunch]
    exact ⟨by simp, rfl⟩
  | finished c hmunch =>
    rw [feed_finished hmunch]
    exact ⟨by simp, trivial⟩

theorem Offence.kind_isReading {text : String} {ts : List Token} {before after : List Char}
    {kind : DiagnosticKind} {c : Char} (h : Offence text ts before kind c after) : kind.isReading = true := by
  cases h <;> rfl

theorem readText_kind {text : String} {fault : Diagnostic} (h : readText text = .error fault) :
    fault.kind.isReading = true ∨ Overlong text fault := by
  rcases readText_points h with ⟨found, ⟨ts, before, c, after, cause, -, rfl, hoffence⟩, rfl⟩ | hlong
  · rw [Diagnostic.kind_withSource]
    exact Or.inl hoffence.kind_isReading
  · exact Or.inr hlong

/-! ## The stages after reading -/

theorem Traced.outcome_mapM {ν ε α β : Type} (f : α → Traced ν ε β) (as : List α) :
    (as.mapM f).outcome = as.mapM fun a => (f a).outcome := by
  have hloop : ∀ acc, (List.mapM.loop f as acc).outcome = List.mapM.loop (fun a => (f a).outcome) as acc := by
    induction as with
    | nil => intro acc; rfl
    | cons a as ih => intro acc; simp only [List.mapM.loop, outcome_bind, ih]
  exact hloop []

theorem mapM_mapError {ε ε' α β : Type} (g : ε → ε') (f : α → Except ε β) (as : List α) :
    (as.mapM fun a => (f a).mapError g) = (as.mapM f).mapError g := by
  induction as with
  | nil => rfl
  | cons a as ih =>
    rw [List.mapM_cons, List.mapM_cons, ih]
    cases f a with
    | error e => rfl
    | ok b => cases as.mapM f <;> rfl

theorem exists_mapM_ok {ε α β : Type} {f : α → Except ε β} {as : List α} (h : ∀ a ∈ as, ∃ b, f a = .ok b) :
    ∃ bs, as.mapM f = .ok bs := by
  induction as with
  | nil => exact ⟨[], rfl⟩
  | cons a as ih =>
    obtain ⟨⟨b, hb⟩, has⟩ := List.forall_mem_cons.1 h
    obtain ⟨bs, hbs⟩ := ih has
    exact ⟨b :: bs, by rw [List.mapM_cons, hb, hbs]; rfl⟩

/-- the analyses of several forms: their expressions, or the first fault -/
theorem mapM_settles {β : Type} {P : β → Prop} {f : Datum → Except Diagnostic β} (h : ∀ d, Settles P (f d))
    (ds : List Datum) :
    Settles (fun es => ∀ e ∈ es, P e) (ds.mapM f) := by
  induction ds with
  | nil => exact .ok (by simp)
  | cons d ds ih =>
    rw [List.mapM_cons]
    exact Settles.bind (h d) fun e he => Settles.bind ih fun es hes => .ok (List.forall_mem_cons.2 ⟨he, hes⟩)

namespace Run

theorem outcome_data (text : String) : (data text).outcome = (readText text).mapError .diagnostic := by
  simp only [data, ofReading, noteAll, Traced.outcome_bind, Traced.outcome_ofExcept, Traced.outcome_pure]
  cases readText text <;> rfl

theorem outcome_expr (text : String) (d : Datum) :
    (expr text d).outcome = (Expr.ofDatum d).mapError fun fault => .diagnostic (fault.withSource text) := by
  simp only [expr, Expr.ofDatum, Traced.relabel, Traced.outcome_bind, Traced.outcome_note, Traced.outcome_pure]
  cases (Analysis.expr d).outcome <;> rfl

theorem outcome_core (e : Expr) : (core e).outcome = e.lower.mapError .lowering := by
  simp only [core, Traced.outcome_bind, Traced.outcome_ofExcept, Traced.outcome_note, Traced.outcome_pure]
  cases e.lower <;> rfl

/-- the core expressions of a text: reading, analysis and lowering, each on all forms before the next begins -/
theorem outcome_cores (text : String) :
    (cores text).outcome = (do
      let ds ← (readText text).mapError Failure.diagnostic
      let es ← (ds.mapM Expr.ofDatum).mapError fun fault => Failure.diagnostic (fault.withSource text)
      (es.mapM Expr.lower).mapError Failure.lowering) := by
  simp only [cores, exprs, Traced.outcome_bind, Traced.outcome_mapM, outcome_data, outcome_expr, outcome_core,
    mapM_mapError, bind_assoc]

/-- A-normal form and the removal of dead bindings never fail -/
theorem exists_normals (optimize : Bool) (table : SymbolTable) (cs : List Core) :
    ∃ r, (normals optimize table cs).outcome = .ok r := by
  induction cs generalizing table with
  | nil => exact ⟨_, rfl⟩
  | cons c cs ih =>
    obtain ⟨⟨e, table'⟩, hnormal⟩ : ∃ r, (normal optimize table c).outcome = .ok r := by
      cases optimize <;> exact ⟨_, rfl⟩
    obtain ⟨⟨es, table''⟩, hnormals⟩ := ih table'
    exact ⟨(e :: es, table''), by simp only [normals, Traced.outcome_bind, hnormal, hnormals, ok_bind,
      Traced.outcome_pure]⟩

end Run

section Compilation

variable (optimize : Bool) {text : String} {ds : List Datum} {fault : Diagnostic}

theorem compileText_eq_error {failure : Failure} (h : (Run.cores text).outcome = .error failure) :
    compileText optimize text = .error failure := by
  simp only [compileText, Run.program, Run.normalized, Traced.outcome_bind, h]
  rfl

/-- a text that is not read -/
theorem compileText_of_unread (hread : readText text = .error fault) :
    compileText optimize text = .error (.diagnostic fault) := by
  apply compileText_eq_error
  rw [Run.outcome_cores, hread]
  rfl

/-- a text with a form that is rejected -/
theorem compileText_of_rejected (hread : readText text = .ok ds) (hes : ds.mapM Expr.ofDatum = .error fault) :
    compileText optimize text = .error (.diagnostic (fault.withSource text)) := by
  apply compileText_eq_error
  simp only [Run.outcome_cores, hread, Except.mapError, ok_bind, hes]
  rfl

/-- a text whose forms all have expressions, and these have core forms -/
theorem exists_compileText {es : List Expr} (hread : readText text = .ok ds) (hes : ds.mapM Expr.ofDatum = .ok es)
    (hlower : ∀ e ∈ es, ∃ c, e.lower = .ok c) : ∃ p, compileText optimize text = .ok p := by
  obtain ⟨cs, hcs⟩ := exists_mapM_ok hlower
  have hcores : (Run.cores text).outcome = .ok cs := by
    simp only [Run.outcome_cores, hread, Except.mapError, ok_bind, hes, hcs]
  obtain ⟨r, hr⟩ := Run.exists_normals optimize .empty cs
  refine ⟨Program.ofCore r.1 r.2, ?_⟩
  simp only [compileText, Run.program, Run.normalized, Traced.outcome_bind, hcores, hr, ok_bind, Traced.outcome_note,
    Traced.outcome_pure]

end Compilation

/-- **Only faults of reading and of analysis end a compilation.** - A text is not read, or has a form that is
rejected, or has a program. If it is not read, the fault is one of reading, or the text has a numeral with more digits
than are converted. - Every token of a text can be read, and 64 bits hold its integer. - A datum, proper or not, is
rejected by analysis, or has an expression, with no empty body, no quotation of a pair and no literal list, and that
has a core form. -/
theorem compilation_faults :
    (∀ optimize text,
      (∃ fault, readText text = .error fault ∧ (fault.kind.isReading = true ∨ Overlong text fault) ∧
        compileText optimize text = .error (.diagnostic fault)) ∨
      (∃ ds fault, readText text = .ok ds ∧ ds.mapM Expr.ofDatum = .error fault ∧ fault.kind.isAnalysis = true ∧
        compileText optimize text = .error (.diagnostic (fault.withSource text))) ∨
      ∃ ds es p, readText text = .ok ds ∧ ds.mapM Expr.ofDatum = .ok es ∧ compileText optimize text = .ok p) ∧
    (∀ text, ∀ event ∈ (Feed.ofText text).events, event.Documented) ∧
    ∀ d, (∃ fault, Expr.ofDatum d = .error fault ∧ fault.kind.isAnalysis = true) ∨
      ∃ e c, Expr.ofDatum d = .ok e ∧ e.Analyzed ∧ e.lower = .ok c := by
  refine ⟨fun optimize text => ?_, fun text => (Cursor.ofText text).feed_documented.1, fun d => ?_⟩
  · cases hread : readText text with
    | error fault => exact Or.inl ⟨fault, rfl, readText_kind hread, compileText_of_unread optimize hread⟩
    | ok ds =>
      refine Or.inr ?_
      rcases settles_iff.1 (mapM_settles Expr.ofDatum_settles ds) with ⟨es, hes, hall⟩ | ⟨fault, hfault, hkind⟩
      · obtain ⟨p, hp⟩ := exists_compileText optimize hread hes fun e he => (hall e he).2
        exact Or.inr ⟨ds, es, p, rfl, hes, hp⟩
      · exact Or.inl ⟨ds, fault, rfl, hfault, hkind, compileText_of_rejected optimize hread hfault⟩
  · rcases settles_iff.1 (Expr.ofDatum_settles d) with ⟨e, he, hanalyzed, c, hc⟩ | hrejected
    · exact Or.inr ⟨e, c, he, hanalyzed, hc⟩
    · exact Or.inl hrejected

end SchemeStack
