/-
A text may be entered at once or in two parts.

`enter_join`: if a session takes two texts one after the other, then it takes the text with a line feed between them,
shows the same lines, and knows the same names afterwards. It may show any stage, with or without the removal of dead
bindings, and have any names at the start.

The parts:
- the text is read as the data of the first and those of the second, further down (`readText_join`);
- a form gives the same lines and the same table wherever it stands and whatever text it is in
  (`enterForm_transfers`), for its place and its text show in faults only;
- `Enters` is how a session takes forms one after the other, without a fault, with what each form does as its step.
  The forms of two entries are those of one (`Enters.append`).
-/
import SchemeStack.Proofs.PipelineFaults
import SchemeStack.Proofs.TextJoining
import SchemeStack.Session

namespace SchemeStack

open SchemeStack.Source

/-! ## One form -/

section Stages

variable (f : Mark → Mark) (text text' : String)

theorem Transfers.mapError {ε ε' α β : Type} {g : α → β} {x : Except ε α} {y : Except ε β} (h : Transfers g x y)
    (onFault onFault' : ε → ε') : Transfers g (x.mapError onFault) (y.mapError onFault') := by
  cases x with
  | error fault => exact .error _
  | ok a =>
    rw [h a rfl]
    exact .ok a

theorem Run.expr_transfers (d : Datum) :
    Transfers (Expr.mapMarks f) (Run.expr text d).outcome (Run.expr text' (d.mapMarks f)).outcome := by
  rw [outcome_expr, outcome_expr]
  exact Transfers.mapError (fun e he => Expr.ofDatum_mapMarks f he) _ _

theorem Run.core_transfers (e : Expr) : Transfers id (Run.core e).outcome (Run.core (e.mapMarks f)).outcome := by
  rw [outcome_core, outcome_core]
  exact Transfers.mapError (Expr.lower_transfers f e) _ _

/-- a form does the same wherever it stands, and whatever text it is in -/
theorem Session.enterForm_transfers (s : Session) (d : Datum) :
    Transfers id (s.enterForm text d).outcome (s.enterForm text' (d.mapMarks f)).outcome := by
  unfold enterForm
  split
  · rw [Datum.print_mapMarks]
    exact .ok _
  · rw [Traced.outcome_bind, Traced.outcome_bind]
    refine .bind (Run.expr_transfers f text text' d) fun e => ?_
    split
    · rw [Expr.print_mapMarks]
      exact .ok _
    · rw [Traced.outcome_bind, Traced.outcome_bind]
      exact .bind (Run.core_transfers f e) fun c => .refl _

end Stages

/-! ## The forms of an entry -/

namespace Session

variable {text : String} {s after : Session} {ds : List Datum} {lines : List String}

/-- the session takes the forms one after the other, shows the lines, and is `after` then -/
inductive Enters (text : String) : Session → List Datum → List String → Session → Prop
  | nil (s : Session) : Enters text s [] [] s
  | cons {s after : Session} {d : Datum} {ds : List Datum} {shown rest : List String} {table : SymbolTable} :
    (s.enterForm text d).outcome = .ok (shown, table) → Enters text { s with table } ds rest after →
    Enters text s (d :: ds) (shown ++ rest) after

theorem Enters.append {s' : Session} {ds' : List Datum} {lines' : List String} (h : Enters text s ds lines s')
    (h' : Enters text s' ds' lines' after) : Enters text s (ds ++ ds') (lines ++ lines') after := by
  induction h with
  | nil s => exact h'
  | cons hform _ ih =>
    rw [List.append_assoc]
    exact .cons hform (ih h')

/-- the forms may stand elsewhere, in another text -/
theorem Enters.mapMarks (f : Mark → Mark) (text' : String) (h : Enters text s ds lines after) :
    Enters text' s (ds.map (Datum.mapMarks f)) lines after := by
  induction h with
  | nil s => exact .nil s
  | cons hform _ ih => exact .cons (enterForm_transfers f text text' _ _ _ hform) ih

theorem Enters.inText (text' : String) (h : Enters text s ds lines after) : Enters text' s ds lines after := by
  have hsame : ds.map (Datum.mapMarks id) = ds := by
    rw [funext Datum.mapMarks_id, List.map_id']
  rw [← hsame]
  exact h.mapMarks id text'

theorem enters_of_enterForms (h : (enterForms text s ds).1.outcome = .ok lines) :
    Enters text s ds lines (enterForms text s ds).2 := by
  induction ds generalizing s lines with
  | nil =>
    cases h
    exact .nil s
  | cons d ds ih =>
    unfold enterForms at h ⊢
    cases hform : (s.enterForm text d).outcome with
    | error failure => simp [hform] at h
    | ok r =>
      obtain ⟨shown, table⟩ := r
      simp only [hform] at h ⊢
      obtain ⟨rest, hrest, rfl⟩ := except_map_eq_ok.1 h
      exact .cons hform (ih hrest)

theorem enterForms_of_enters (h : Enters text s ds lines after) :
    (enterForms text s ds).1.outcome = .ok lines ∧ (enterForms text s ds).2 = after := by
  induction h with
  | nil s => exact ⟨rfl, rfl⟩
  | cons hform _ ih =>
    unfold enterForms
    simp only [hform]
    exact ⟨by rw [ih.1]; rfl, ih.2⟩

/-- an entry that succeeds: its text is read, and its forms are taken -/
theorem enter_eq_ok_iff : (s.enter text).1.outcome = .ok lines ∧ (s.enter text).2 = after ↔
    ∃ ds, readText text = .ok ds ∧ Enters text s ds lines after := by
  unfold enter
  dsimp only
  rw [Run.outcome_data]
  cases readText text with
  | error fault => simp [Except.mapError]
  | ok ds =>
    constructor
    · rintro ⟨hlines, rfl⟩
      exact ⟨ds, rfl, enters_of_enterForms hlines⟩
    · rintro ⟨_, ⟨⟩, h⟩
      exact enterForms_of_enters h

end Session

/-- **Entries may be joined.** Two texts that are read make a text that is read, with a line feed between them, as the
data of both, those of the second moved down behind the first. If a session takes the two texts one after the other,
it takes that text, shows the lines of both, and is the same session then: with the same names, the same fresh names
used up -/
theorem Session.enter_join (s : Session) (first second : String) :
    (∀ ds ds', readText first = .ok ds → readText second = .ok ds' →
      readText (first ++ "\n" ++ second) = .ok (ds ++ ds'.map (Datum.moveDown (first.toList.count '\n' + 1)))) ∧
    ∀ lines lines', (s.enter first).1.outcome = .ok lines → ((s.enter first).2.enter second).1.outcome = .ok lines' →
      (s.enter (first ++ "\n" ++ second)).1.outcome = .ok (lines ++ lines') ∧
      (s.enter (first ++ "\n" ++ second)).2 = ((s.enter first).2.enter second).2 := by
  refine ⟨fun ds ds' => readText_join, fun lines lines' hlines hlines' => ?_⟩
  obtain ⟨ds, hread, henters⟩ := enter_eq_ok_iff.1 ⟨hlines, rfl⟩
  obtain ⟨ds', hread', henters'⟩ := enter_eq_ok_iff.1 ⟨hlines', rfl⟩
  exact enter_eq_ok_iff.2 ⟨_, readText_join hread hread', (henters.inText _).append (henters'.mapMarks _ _)⟩

/-- the first entry uses up a fresh name and ends in a comment with an open parenthesis; the second has two lines -/
theorem Session.entry_behind_comment :
    let s := start .normalForms true
    let first := "(f (g)) ; ("
    let second := "(h\n(k))"
    let read := [Datum.pair (.sym "f" ⟨some 0, some 1⟩)
      (.pair (.pair (.sym "g" ⟨some 0, some 4⟩) .nil ⟨some 0, some 3⟩) .nil .unknown) ⟨some 0, some 0⟩]
    ((s.enter first).1.outcome = .ok ["(let (($g0 (g)))\n    (f $g0))"] ∧
      ((s.enter first).2.enter second).1.outcome = .ok ["(let (($g1 (k)))\n    (h $g1))"] ∧
      (s.enter (first ++ "\n" ++ second)).1.outcome =
        .ok (["(let (($g0 (g)))\n    (f $g0))"] ++ ["(let (($g1 (k)))\n    (h $g1))"])) ∧
    (readText first = .ok read ∧
      readText second = .ok [.pair (.sym "h" ⟨some 0, some 1⟩)
        (.pair (.pair (.sym "k" ⟨some 1, some 1⟩) .nil ⟨some 1, some 0⟩) .nil .unknown) ⟨some 0, some 0⟩] ∧
      readText (first ++ "\n" ++ second) = .ok (read ++ [.pair (.sym "h" ⟨some 1, some 1⟩)
        (.pair (.pair (.sym "k" ⟨some 2, some 1⟩) .nil ⟨some 2, some 0⟩) .nil .unknown) ⟨some 1, some 0⟩])) := by
  intro s first second read
  obtain ⟨hjoinRead, hjoin⟩ := enter_join s first second
  have hfirst : (s.enter first).1.outcome = .ok ["(let (($g0 (g)))\n    (f $g0))"] := by decide +kernel
  have hsecond : ((s.enter first).2.enter second).1.outcome =
    .ok ["(let (($g1 (k)))\n    (h $g1))"] := by decide +kernel
  have hread : readText first = .ok read := by decide +kernel
  have hread' : readText second = .ok [.pair (.sym "h" ⟨some 0, some 1⟩)
      (.pair (.pair (.sym "k" ⟨some 1, some 1⟩) .nil ⟨some 1, some 0⟩) .nil .unknown) ⟨some 0, some 0⟩] := by
    decide +kernel
  have hlines : first.toList.count '\n' = 0 := by decide +kernel
  have hboth := hjoinRead _ _ hread hread'
  rw [hlines] at hboth
  exact ⟨⟨hfirst, hsecond, (hjoin _ _ hfirst hsecond).1⟩, hread, hread', hboth⟩

end SchemeStack
