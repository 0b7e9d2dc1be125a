/-
What becomes of a text with a close parenthesis too many.

The check for completeness counts parentheses over the whole text, and the reader stops at the first one that closes
nothing. The two part where lists are opened again behind it.

`isComplete_behind_strayParen`: let some tokens from the first on close more lists than they open, and let no string
be left open. Then
- the text is complete if and only if the scan meets a fault or the text as a whole opens no more lists than it
  closes; the check breaks down if and only if that fault is a numeral with more digits than are converted;
- the reader rejects it, with a fault of balance that is the same whatever lines come behind. So behind a close
parenthesis too many, the text still waits for more lines if enough lists are opened again, and no line mends it
(`reopened_lists_wait`).

The parts:
- `Feed.met` are the tokens in front of the first fault, and `Feed.fault?` is that fault. The count of a whole run
  follows from these two (`isCompleteFrom_eq`), one token at a time;
- lists cannot be closed more often than they were opened, so a run of the reader over such tokens ends in a fault
  (`Reader.readForms_strayParen`), by induction along the tokens with the number of open lists;
- a line feed ends every token, so more lines leave the tokens in front of a fault as they are (`Cursor.met_lineFeed`).
-/
import SchemeStack.Proofs.EntryCompleteness
import SchemeStack.Proofs.TextJoining

namespace SchemeStack

open SchemeStack.Source

/-! ## What a scan meets -/

/-- the tokens in front of the first fault -/
def tokensMet : List Event → List Token
  | .ok t :: events => t :: tokensMet events
  | _ => []

/-- the first fault, at the end if not before -/
def faultMet (ending : Ending) : List Event → Option Diagnostic
  | .ok _ :: events => faultMet ending events
  | .error fault :: _ => some fault
  | [] =>
    match ending with
    | .finished _ => none
    | .stuck fault => some fault

def Feed.met (feed : Feed) : List Token := tokensMet feed.events

def Feed.fault? (feed : Feed) : Option Diagnostic := faultMet feed.ending feed.events

def opened (ts : List Token) : Nat := ts.countP fun t => t.lexeme = .leftParen

def closed (ts : List Token) : Nat := ts.countP fun t => t.lexeme = .rightParen

/-- one token changes the count by its nesting -/
theorem opened_sub_closed_cons (t : Token) (ts : List Token) :
    (opened (t :: ts) : Int) - closed (t :: ts) = t.lexeme.nesting + (opened ts - closed ts) := by
  obtain ⟨lexeme, pos⟩ := t
  cases lexeme with
  | leftParen =>
    simp [opened, closed, Lexeme.nesting]
    omega
  | rightParen =>
    simp [opened, closed, Lexeme.nesting]
    omega
  | _ => simp [opened, closed, Lexeme.nesting]

/-! ## The count -/

/-- **A whole run of the count:** a fault decides by its kind, and without one the tokens do -/
theorem isCompleteFrom_eq (ending : Ending) (events : List Event) (depth : Int) :
    isCompleteFrom ending events depth = match faultMet ending events with
      | some fault => completeAtFault fault
      | none => .ok (decide (depth + opened (tokensMet events) ≤ closed (tokensMet events))) := by
  induction events generalizing depth with
  | nil =>
    cases ending with
    | finished pos => simp [isCompleteFrom, faultMet, tokensMet, opened, closed]
    | stuck fault => rfl
  | cons event events ih =>
    cases event with
    | error fault => rfl
    | ok t =>
      have hcount := opened_sub_closed_cons t (tokensMet events)
      rw [isCompleteFrom_token, ih, faultMet, tokensMet]
      cases faultMet ending events with
      | some fault => rfl
      | none =>
        refine congrArg Except.ok (decide_eq_decide.2 ?_)
        omega

/-- the first fault of a scan is one of spelling, or of a character that starts no token -/
theorem faultMet_documented {ending : Ending} (hending : ending.Documented) {events : List Event}
    (hevents : ∀ event ∈ events, event.Documented) {fault : Diagnostic} (h : faultMet ending events = some fault) :
    Event.Documented (.error fault) := by
  induction events with
  | nil =>
    cases ending with
    | finished pos => cases h
    | stuck fault' =>
      cases h
      exact Or.inr (Or.inl hending)
  | cons event events ih =>
    obtain ⟨hevent, hrest⟩ := List.forall_mem_cons.1 hevents
    cases event with
    | error fault' =>
      cases h
      exact hevent
    | ok t => exact ih hrest h

/-- a fault breaks the scan down if it tells of a numeral that is too long, and only then -/
theorem Event.Documented.isBreakdown_iff {fault : Diagnostic} (h : Event.Documented (.error fault)) :
    fault.kind.isBreakdown = true ↔ fault.TellsLength := by
  constructor
  · intro hbreakdown
    rcases h with hkind | hkind | hlength
    · rw [hkind] at hbreakdown
      cases hbreakdown
    · rw [hkind] at hbreakdown
      cases hbreakdown
    · exact hlength
  · rintro ⟨count, -, rfl⟩
    rfl

/-! ## The reader -/

/-- **Lists that were not opened cannot be closed:** behind more close parentheses than there are lists to close, the
reader has met a fault, and it does not depend on what comes then -/
theorem Reader.readForms_strayParen (front : List Token) (stack : List Opening)
    (h : openLists stack + opened front < closed front) :
    ∃ fault : Diagnostic, fault.kind = .parseUnbalanced ∧
      ∀ ending events, (readForms ending stack (front.map .ok ++ events)).1 = .error fault := by
  induction front generalizing stack with
  | nil =>
    have hnonneg := openLists_nonneg stack
    simp only [opened, closed, List.countP_nil] at h
    omega
  | cons t front ih =>
    have hcount := opened_sub_closed_cons t front
    cases hstep : step stack t with
    | more stack' =>
      have hopen := step_openLists (n := openLists stack') (by rw [hstep]; rfl)
      obtain ⟨fault, hkind, hfault⟩ := ih stack' (by omega)
      refine ⟨fault, hkind, fun ending events => ?_⟩
      rw [List.map_cons, List.cons_append, readForms, hstep]
      exact hfault ending events
    | done d =>
      have hopen := step_openLists (n := 0) (by rw [hstep]; rfl)
      obtain ⟨fault, hkind, hfault⟩ := ih [] (by rw [openLists]; omega)
      refine ⟨fault, hkind, fun ending events => ?_⟩
      rw [List.map_cons, List.cons_append, readForms, hstep]
      change (readForms ending [] (front.map .ok ++ events)).1.map (d :: ·) = .error fault
      rw [hfault ending events]
      rfl
    | fault fault unread =>
      refine ⟨fault, step_fault_unbalanced hstep, fun ending events => ?_⟩
      rw [List.map_cons, List.cons_append, readForms, hstep]

/-! ## More lines -/

theorem exists_events_eq (events : List Event) : ∃ rest, events = (tokensMet events).map .ok ++ rest := by
  fun_induction tokensMet events with
  | case1 t events ih =>
    obtain ⟨rest, hrest⟩ := ih
    exact ⟨rest, congrArg (Except.ok t :: ·) hrest⟩
  | case2 events => exact ⟨events, rfl⟩

namespace Cursor

/-- the gap in front of a lexeme does not depend on what comes behind a line feed -/
theorem skipTrivia_lineFeed {c : Cursor} (h : c.skipTrivia.rest ≠ []) (more : List Char) :
    ({ c with rest := c.rest ++ '\n' :: more } : Cursor).skipTrivia =
      { c.skipTrivia with rest := c.skipTrivia.rest ++ '\n' :: more } := by
  obtain ⟨gap, rest, hsplit⟩ : ∃ gap rest, splitTrivia false c.rest = (gap, rest) := ⟨_, _, rfl⟩
  rw [skipTrivia_eq hsplit] at h ⊢
  obtain ⟨hrest, hgap⟩ := splitTrivia_eq_iff.1 hsplit
  rcases hgap with ⟨-, hnil⟩ | ⟨hgap, d, ds, hcons, hd⟩
  · exact absurd hnil h
  · have hsplit' : splitTrivia false (c.rest ++ '\n' :: more) = (gap, rest ++ '\n' :: more) := by
      rw [splitTrivia_eq_iff, hrest, List.append_assoc, hcons]
      exact ⟨rfl, Or.inr ⟨hgap, d, _, rfl, hd⟩⟩
    rw [skipTrivia_eq (c := { c with rest := c.rest ++ '\n' :: more }) hsplit']
    rfl

/-- **More lines leave the tokens in front of a fault as they are** -/
theorem met_lineFeed (c : Cursor) (more : List Char) :
    c.feed.met <+: ({ c with rest := c.rest ++ '\n' :: more } : Cursor).feed.met := by
  induction c using scanInduct with
  | lexeme c lexeme run rest hmunch ih =>
    obtain ⟨hrest, hspells, hends⟩ := munch_eq_lexeme_iff.1 hmunch
    have hne : c.skipTrivia.rest ≠ [] := by
      obtain ⟨d, ds, rfl, -⟩ := hspells.head
      rw [hrest]
      simp
    have hskip := skipTrivia_lineFeed hne more
    have hmunch' : munch ({ c with rest := c.rest ++ '\n' :: more } : Cursor).skipTrivia.rest =
        .lexeme lexeme run (rest ++ '\n' :: more) := by
      rw [hskip, munch_eq_lexeme_iff]
      exact ⟨by rw [hrest, List.append_assoc], hspells, hends.lineFeed more⟩
    rw [feed_lexeme hmunch, feed_lexeme hmunch', hskip]
    exact (List.prefix_cons_inj _).2 ih
  | fault c cause run rest hmunch _ =>
    -- more text may mend the fault, but nothing was met in front of it
    rw [feed_fault hmunch]
    exact List.nil_prefix
  | stuck c ch hmunch =>
    rw [feed_stuck hmunch]
    exact List.nil_prefix
  | finished c hmunch =>
    rw [feed_finished hmunch]
    exact List.nil_prefix

end Cursor

theorem Feed.met_ofText_lineFeed (text more : String) :
    (Feed.ofText text).met <+: (Feed.ofText (text ++ "\n" ++ more)).met := by
  have hrest : (text ++ "\n" ++ more).toList = text.toList ++ '\n' :: more.toList := by simp
  have hcursor : Cursor.ofText (text ++ "\n" ++ more) =
      { Cursor.ofText text with rest := text.toList ++ '\n' :: more.toList } := by
    unfold Cursor.ofText
    rw [hrest]
  unfold Feed.ofText
  rw [hcursor]
  exact (Cursor.ofText text).met_lineFeed more.toList

/-! ## Close parentheses too many -/

/-- what the check for completeness says, if no string is left open -/
structure CompleteByCount (text : String) : Prop where
  complete : isComplete text = .ok true ↔
    (∃ fault, (Feed.ofText text).fault? = some fault ∧ fault.kind.isBreakdown = false) ∨
      (Feed.ofText text).fault? = none ∧ opened (Feed.ofText text).met ≤ closed (Feed.ofText text).met
  waits : isComplete text = .ok false ↔
    (Feed.ofText text).fault? = none ∧ closed (Feed.ofText text).met < opened (Feed.ofText text).met
  breaks : ∀ fault, isComplete text = .error fault ↔ (Feed.ofText text).fault? = some fault ∧ fault.TellsLength

theorem completeByCount {text : String}
    (h : ∀ fault, (Feed.ofText text).fault? = some fault → fault.kind ≠ .lexUnbalanced) : CompleteByCount text := by
  obtain ⟨hevents, hending⟩ := (Cursor.ofText text).feed_documented
  have hcount := isCompleteFrom_eq (Feed.ofText text).ending (Feed.ofText text).events 0
  change isComplete text = match (Feed.ofText text).fault? with
    | some fault => completeAtFault fault
    | none => .ok (decide (0 + (opened (Feed.ofText text).met : Int) ≤ closed (Feed.ofText text).met)) at hcount
  cases hfault : (Feed.ofText text).fault? with
  | none =>
    rw [hfault] at hcount
    refine ⟨?_, ?_, ?_⟩ <;> simp [hcount, hfault]
  | some fault =>
    rw [hfault] at hcount
    dsimp only at hcount
    have hdocumented : Event.Documented (.error fault) := faultMet_documented hending hevents hfault
    have hclosed : (fault.kind != .lexUnbalanced) = true := bne_iff_ne.2 (h fault hfault)
    cases hkind : fault.kind.isBreakdown with
    | true =>
      have hlength := hdocumented.isBreakdown_iff.1 hkind
      have hbreaks : isComplete text = .error fault := by rw [hcount, completeAtFault, if_pos hkind]
      refine ⟨?_, ?_, fun fault' => ?_⟩
      · simp [hbreaks, hfault, hkind]
      · simp [hbreaks, hfault]
      · rw [hbreaks, hfault]
        constructor
        · rintro ⟨⟩
          exact ⟨rfl, hlength⟩
        · rintro ⟨⟨⟩, -⟩
          rfl
    | false =>
      have hcomplete : isComplete text = .ok true := by rw [hcount, completeAtFault, hkind, hclosed]; rfl
      refine ⟨?_, ?_, fun fault' => ?_⟩
      · simp [hcomplete, hfault, hkind]
      · simp [hcomplete, hfault]
      · rw [hcomplete, hfault]
        constructor
        · rintro ⟨⟩
        · rintro ⟨⟨⟩, hlength⟩
          rw [hdocumented.isBreakdown_iff.2 hlength] at hkind
          cases hkind

/-- tokens that close more lists than they open make a text unreadable, and the fault depends on those tokens alone -/
theorem readText_strayParen {front : List Token} (h : opened front < closed front) :
    ∃ fault : Diagnostic, fault.kind = .parseUnbalanced ∧
      ∀ text, front <+: (Feed.ofText text).met → readText text = .error (fault.withSource text) := by
  obtain ⟨fault, hkind, hfault⟩ := Reader.readForms_strayParen front [] (by rw [Reader.openLists]; omega)
  refine ⟨fault, hkind, fun text hfront => ?_⟩
  obtain ⟨back, hmet⟩ := hfront
  obtain ⟨rest, hevents⟩ := exists_events_eq (Feed.ofText text).events
  have hforms : (Feed.ofText text).readForms.1 = .error fault := by
    change (Reader.readForms (Feed.ofText text).ending [] (Feed.ofText text).events).1 = .error fault
    rw [hevents, ← Feed.met, ← hmet, List.map_append, List.append_assoc]
    exact hfault _ _
  unfold readText
  rw [hforms]
  rfl

/-- **Behind a close parenthesis too many, the text waits for more lines as long as more lists are opened than
closed,** and no line makes it a text that can be read: the reader meets the same fault. The check has no answer only
where the scan breaks down, at a numeral that is too long -/
theorem isComplete_behind_strayParen (text : String) (front : List Token) (hfront : front <+: (Feed.ofText text).met)
    (hstray : opened front < closed front)
    (hclosed : ∀ fault, (Feed.ofText text).fault? = some fault → fault.kind ≠ .lexUnbalanced) :
    CompleteByCount text ∧
    ∃ fault : Diagnostic, fault.kind = .parseUnbalanced ∧ readText text = .error (fault.withSource text) ∧
      ∀ more, readText (text ++ "\n" ++ more) = .error (fault.withSource (text ++ "\n" ++ more)) := by
  obtain ⟨fault, hkind, hfault⟩ := readText_strayParen hstray
  refine ⟨completeByCount hclosed, fault, hkind, hfault text hfront, fun more => hfault _ ?_⟩
  exact hfront.trans (Feed.met_ofText_lineFeed text more)

/-- one list is closed too many and two are opened: the text still waits -/
theorem reopened_lists_wait :
    (Feed.ofText ")((").fault? = none ∧ (Feed.ofText ")((").met.map (·.lexeme) = [.rightParen, .leftParen, .leftParen] ∧
      isComplete ")((" = .ok false := by
  decide +kernel

/-- two lists are closed too many behind a form, and three are opened on the next line: the text waits for a line that
does not help -/
theorem strayParens_behind_form :
    isComplete "(a)))\n(((" = .ok false ∧ ∃ fault : Diagnostic, fault.kind = .parseUnbalanced ∧
      readText ("(a)))\n(((" ++ "\n" ++ "))") = .error (fault.withSource ("(a)))\n(((" ++ "\n" ++ "))")) := by
  obtain ⟨hcount, fault, hkind, -, hmore⟩ := isComplete_behind_strayParen "(a)))\n((("
    ((Feed.ofText "(a)))\n(((").met.take 4) (List.take_prefix _ _) (by decide +kernel)
    (by
      have hfault : (Feed.ofText "(a)))\n(((").fault? = none := by decide +kernel
      intro fault h
      rw [hfault] at h
      cases h)
  exact ⟨hcount.waits.2 (by decide +kernel), fault, hkind, hmore "))"⟩

end SchemeStack
