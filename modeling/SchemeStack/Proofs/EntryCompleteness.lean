/-
A text is complete when the reader says so.

Whether an entry is complete is decided by a count over its tokens, and the reader decides what it is by a stack. The
count is the number of lists on the stack (`Reader.openLists`): a step of the reader changes both alike, whatever
sigils and dots stand between (`Reader.step_openLists`), and a form that is finished leaves none open.

`isComplete_agrees`: a text that is read is complete; a text in which a list or a string stays open is not. The three
cases are one run lemma (`Reader.isCompleteFrom_readForms`), by induction on the events. It needs to know which faults
come from the scanner: of these only a string that is not closed makes a text wait (`Cursor.feed_documented`).
-/
import SchemeStack.Proofs.PipelineFaults
import SchemeStack.Session

namespace SchemeStack

/-! ## The count and the stack -/

/-- what a token adds to the number of open lists -/
def Lexeme.nesting : Lexeme → Int
  | .leftParen => 1
  | .rightParen => -1
  | _ => 0

theorem isCompleteFrom_token {ending : Ending} {t : Token} {events : List Event} {depth : Int} :
    isCompleteFrom ending (.ok t :: events) depth = isCompleteFrom ending events (depth + t.lexeme.nesting) := by
  obtain ⟨lexeme, pos⟩ := t
  cases lexeme with
  | leftParen => rfl
  | rightParen => rfl
  | _ => simp [isCompleteFrom, Lexeme.nesting]

namespace Reader

/-- the lists among the things that are open -/
def openLists : List Opening → Int
  | [] => 0
  | .list _ _ :: stack => openLists stack + 1
  | .sigil _ _ :: stack => openLists stack

theorem openLists_nonneg (stack : List Opening) : 0 ≤ openLists stack := by
  fun_induction openLists stack with
  | case1 => exact Int.le_refl 0
  | case2 _ _ stack ih => exact Int.le_add_one ih
  | case3 _ _ stack ih => exact ih

/-- the lists that are open after a step: none behind a form that is done; a fault leaves no count -/
def openAfter : ReadStep → Option Int
  | .more stack => some (openLists stack)
  | .done _ => some 0
  | .fault _ _ => none

theorem deliver_ne_fault (d : Datum) (stack : List Opening) (fault : Diagnostic) (unread : Bool) :
    deliver d stack ≠ .fault fault unread := by
  fun_induction deliver d stack with
  | case1 => simp
  | case2 => simp
  | case3 _ _ _ _ ih => exact ih

/-- a token that cannot be read is a fault of balance: a stray parenthesis or dot, or a sigil without operand -/
theorem step_fault_unbalanced {stack : List Opening} {t : Token} {fault : Diagnostic} {unread : Bool}
    (h : step stack t = .fault fault unread) : fault.kind = .parseUnbalanced := by
  obtain ⟨lexeme, pos⟩ := t
  rcases lexeme.classify with rfl | rfl | rfl | ⟨s, rfl⟩ | ⟨a, rfl⟩ | rfl
  · cases h
  · -- a close parenthesis is the token that a list expects
    cases stack with
    | nil =>
      cases h
      rfl
    | cons opening stack =>
      cases opening with
      | list start elements => exact absurd h (deliver_ne_fault (closedList start elements) stack fault unread)
      | sigil start word =>
        cases h
        rfl
  · cases stack with
    | nil =>
      cases h
      rfl
    | cons opening stack =>
      cases opening <;> cases h
      rfl
  · cases s <;> cases h
  · have hatom : step stack ⟨a.lexeme, pos⟩ = deliver (a.datum pos.mark) stack := by cases a <;> rfl
    exact absurd (hatom ▸ h) (deliver_ne_fault _ _ _ _)
  · cases h

theorem deliver_openLists (d : Datum) (stack : List Opening) :
    openAfter (deliver d stack) = some (openLists stack) := by
  fun_induction deliver d stack with
  | case1 d => rfl
  | case2 d start elements stack => rfl
  | case3 d start word stack ih => exact ih

/-- **A step changes the number of open lists as its token says,** unless it is a fault -/
theorem step_openLists {stack : List Opening} {t : Token} {n : Int} (h : openAfter (step stack t) = some n) :
    n = openLists stack + t.lexeme.nesting := by
  obtain ⟨lexeme, pos⟩ := t
  rcases lexeme.classify with rfl | rfl | rfl | ⟨s, rfl⟩ | ⟨a, rfl⟩ | rfl
  · cases h
    rfl
  · cases stack with
    | nil => cases h
    | cons opening stack =>
      cases opening with
      | list start elements =>
        have hclose : openAfter (deliver (closedList start elements) stack) = some n := h
        rw [deliver_openLists] at hclose
        cases hclose
        simp [openLists, Lexeme.nesting]
      | sigil start word => cases h
  · cases stack with
    | nil => cases h
    | cons opening stack =>
      cases opening with
      | list start elements =>
        cases h
        simp [openLists, Lexeme.nesting]
      | sigil start word => cases h
  · have hsigil : step stack ⟨s.lexeme, pos⟩ = .more (.sigil pos s.word :: stack) := by cases s <;> rfl
    have hnesting : s.lexeme.nesting = 0 := by cases s <;> rfl
    rw [hsigil] at h
    cases h
    simp [openLists, hnesting]
  · have hatom : step stack ⟨a.lexeme, pos⟩ = deliver (a.datum pos.mark) stack := by cases a <;> rfl
    have hnesting : a.lexeme.nesting = 0 := by cases a <;> rfl
    rw [hatom, deliver_openLists] at h
    cases h
    simp [hnesting]
  · cases h
    simp [Lexeme.nesting]

/-- what the count says where the reader ends: nothing is open behind data, and a list or a string behind a fault of
those kinds -/
def CountAgrees (result : Except Diagnostic (List Datum)) (complete : Except Diagnostic Bool) : Prop :=
  match result with
  | .ok _ => complete = .ok true
  | .error fault => fault.kind = .parseEnd ∨ fault.kind = .lexUnbalanced → complete = .ok false

theorem CountAgrees.map {result : Except Diagnostic (List Datum)} {complete : Except Diagnostic Bool}
    (f : List Datum → List Datum) (h : CountAgrees result complete) : CountAgrees (result.map f) complete := by
  cases result with
  | ok ds => exact h
  | error fault => exact h

/-- at the end of the text a list is open if and only if the count is above zero -/
theorem atEnd_countAgrees {ending : Ending} (hending : ending.Documented) (stack : List Opening) :
    CountAgrees ((atEnd ending stack).map fun _ => []) (isCompleteFrom ending [] (openLists stack)) := by
  cases ending with
  | stuck fault =>
    have hkind : fault.kind = .lexInvalid := hending
    cases stack <;> simp [atEnd, Except.map, CountAgrees, hkind]
  | finished pos =>
    cases stack with
    | nil => rfl
    | cons opening stack =>
      cases opening with
      | list start elements =>
        intro _
        have hnonneg := openLists_nonneg stack
        have hopen : decide (openLists stack + 1 ≤ 0) = false := by
          rw [decide_eq_false_iff_not]
          omega
        exact congrArg Except.ok hopen
      | sigil start word =>
        intro hkind
        rcases hkind with hkind | hkind <;> cases hkind

/-- a string that is not closed makes a text wait; the other faults of the scanner are none of a list or a string -/
theorem fault_countAgrees {fault : Diagnostic} (h : Event.Documented (.error fault)) :
    CountAgrees (.error fault) (completeAtFault fault) := by
  intro hkind
  rcases h with hscanned | hscanned | ⟨count, -, rfl⟩
  · simp [completeAtFault, hscanned, DiagnosticKind.isBreakdown]
  · rw [hscanned] at hkind
    rcases hkind with hkind | hkind <;> cases hkind
  · rcases hkind with hkind | hkind <;> cases hkind

/-- **The count agrees with the reader along every run,** from any number of open lists on -/
theorem isCompleteFrom_readForms {ending : Ending} (hending : ending.Documented) {events : List Event}
    (hevents : ∀ event ∈ events, event.Documented) (stack : List Opening) :
    CountAgrees (readForms ending stack events).1 (isCompleteFrom ending events (openLists stack)) := by
  induction events generalizing stack with
  | nil => exact atEnd_countAgrees hending stack
  | cons event events ih =>
    obtain ⟨hevent, hrest⟩ := List.forall_mem_cons.1 hevents
    cases event with
    | error fault => exact fault_countAgrees hevent
    | ok t =>
      rw [readForms, isCompleteFrom_token]
      cases hstep : step stack t with
      | more stack' =>
        rw [← step_openLists (n := openLists stack') (by rw [hstep]; rfl)]
        exact ih hrest stack'
      | done d =>
        rw [← step_openLists (n := 0) (by rw [hstep]; rfl)]
        exact (ih hrest []).map _
      | fault fault unread =>
        intro hkind
        rw [step_fault_unbalanced hstep] at hkind
        rcases hkind with hkind | hkind <;> cases hkind

end Reader

/-- **The check for completeness agrees with the reader.** A text that can be read is complete; a text in which a list
or a string is not closed is not -/
theorem isComplete_agrees (text : String) :
    (∀ ds, readText text = .ok ds → isComplete text = .ok true) ∧
    ∀ fault, readText text = .error fault → fault.kind = .parseEnd ∨ fault.kind = .lexUnbalanced →
      isComplete text = .ok false := by
  obtain ⟨hevents, hending⟩ := (Cursor.ofText text).feed_documented
  have hagrees := Reader.isCompleteFrom_readForms hending hevents []
  change Reader.CountAgrees (Feed.ofText text).readForms.1 (isComplete text) at hagrees
  unfold readText
  cases hforms : (Feed.ofText text).readForms.1 with
  | ok ds =>
    rw [hforms] at hagrees
    exact ⟨fun _ _ => hagrees, fun _ hfault _ => by cases hfault⟩
  | error fault =>
    rw [hforms] at hagrees
    refine ⟨fun _ hds => (by cases hds), fun fault' hfault hkind => hagrees ?_⟩
    cases hfault
    rwa [Diagnostic.kind_withSource] at hkind

/-- parentheses in strings and comments do not count, a sigil or a dot closes no list, and an open string waits for
its end -/
theorem quoted_paren_completeness :
    isComplete "'(a . \")\") ; (" = .ok true ∧ isComplete "(a . '(b) ; )" = .ok false ∧
      isComplete "(a) \")" = .ok false := by
  refine ⟨?_, ?_, ?_⟩
  · exact (isComplete_agrees _).1 [.pair (.kw .quote ⟨some 0, some 0⟩) (.pair (.pair (.sym "a" ⟨some 0, some 2⟩)
      (.pair (.kw .dot ⟨some 0, some 4⟩) (.pair (.str ")" ⟨some 0, some 6⟩) .nil .unknown) .unknown)
      ⟨some 0, some 1⟩) .nil .unknown) ⟨some 0, some 0⟩] (by decide +kernel)
  · exact (isComplete_agrees _).2 ⟨.unclosedList, ⟨some 0, some 0⟩, none, some "(a . '(b) ; )"⟩ (by decide +kernel)
      (Or.inl rfl)
  · exact (isComplete_agrees _).2 ⟨.unterminatedString, ⟨some 0, some 4⟩, none, some "(a) \")"⟩ (by decide +kernel)
      (Or.inr rfl)

end SchemeStack
