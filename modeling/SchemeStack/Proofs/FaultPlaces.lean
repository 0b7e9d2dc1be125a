/-
A text that cannot be read is faulted at the character that is wrong.

`readText_faults_point`: the mark of the fault is the place of some character of the text, what is wrong with that
character is an `Offence` of the kind of the fault, and the message ends with its line and a caret below it. The only
other failure is a numeral with more digits than are converted, which has no place (`readText_points`).

An offence is said of the text and its tokens, not of how they are read:

- the double quote of a string that is not closed, a character that starts no token, the first digit of a numeral that
  is too large;
- the parenthesis of a list that is not closed, though all lists inside it are, and the first character of a sigil
  that has no operand; the reader is far behind these when the end of the text or a close parenthesis shows the fault;
- a parenthesis that closes nothing, a dot that is no element of a list (`OutsideList`).

`Scans` are the tokens up to a place, with the characters in front of it and behind it. `Pending` says what they leave
open: whole forms, then for each open thing its token and, if it is a list, whole elements. One token is explained by
`Pending`, or by `Rejects` if it cannot be read (`step_explained`); from this a whole run by induction along the scan
(`readForms_points`).
-/
import SchemeStack.Proofs.ExcerptCaret
import SchemeStack.Proofs.ReaderGrammar

namespace SchemeStack

open SchemeStack.Source SchemeStack.Text

/-! ## The tokens up to a place -/

/-- the tokens of a text up to the end of one of them, which is behind `front` and in front of `rest` -/
inductive Scans (text : List Char) : List Token → (front rest : List Char) → Prop
  | start : Scans text [] [] text
  | token {ts : List Token} {front gap run rest : List Char} {lexeme : Lexeme} :
      Scans text ts front (gap ++ run ++ rest) → Gap gap → Spells run lexeme → Delimited lexeme rest →
    Scans text (ts ++ [⟨lexeme, placeAfter (front ++ gap)⟩]) (front ++ gap ++ run) rest

/-- the tokens up to a place that is behind `before` and in front of `rest`, with a gap between the last of them and
the place -/
def StandsBehind (text : List Char) (ts : List Token) (before rest : List Char) : Prop :=
  ∃ front gap, before = front ++ gap ∧ Gap gap ∧ Scans text ts front (gap ++ rest)

namespace Scans

variable {text front rest : List Char} {ts : List Token} {t : Token}

theorem text_eq (h : Scans text ts front rest) : text = front ++ rest := by
  induction h with
  | start => rfl
  | token _ _ _ _ ih => rw [ih, List.append_assoc, List.append_assoc, List.append_assoc]

/-- tokens that tile the rest of the text come behind those up to it -/
theorem tiles (h : Scans text ts front rest) {more : List Token} (hmore : Tiles Spells front rest more) :
    Tiles Spells [] text (ts ++ more) := by
  induction h generalizing more with
  | start => exact hmore
  | token _ hgap hspells hends ih =>
    rw [List.append_assoc]
    exact ih (.token hgap hspells hends hmore)

/-- where the last token stands -/
theorem last (h : Scans text (ts ++ [t]) front rest) :
    ∃ before run, StandsBehind text ts before (run ++ rest) ∧ t.pos = placeAfter before ∧ Spells run t.lexeme ∧
      Delimited t.lexeme rest := by
  obtain ⟨us, hus⟩ : ∃ us, us = ts ++ [t] := ⟨_, rfl⟩
  rw [← hus] at h
  cases h with
  | start => simp at hus
  | @token ts' front gap run rest lexeme hscans hgap hspells hends =>
    obtain ⟨rfl, ht⟩ := List.append_inj' hus rfl
    cases ht
    rw [List.append_assoc] at hscans
    exact ⟨front ++ gap, run, ⟨front, gap, rfl, hgap, hscans⟩, rfl, hspells, hends⟩

/-- some of the tokens from the first on are those up to an earlier place -/
theorem earlier {more : List Token} (h : Scans text (ts ++ more) front rest) :
    ∃ front rest, Scans text ts front rest := by
  obtain ⟨us, hus⟩ : ∃ us, us = ts ++ more := ⟨_, rfl⟩
  rw [← hus] at h
  induction h generalizing more with
  | start =>
    obtain ⟨rfl, -⟩ := List.append_eq_nil_iff.1 hus.symm
    exact ⟨_, _, .start⟩
  | @token us' front gap run rest lexeme hscans hgap hspells hends ih =>
    rcases List.eq_nil_or_concat more with rfl | ⟨more', t, rfl⟩
    · rw [List.append_nil] at hus
      subst hus
      exact ⟨_, _, .token hscans hgap hspells hends⟩
    · rw [List.concat_eq_append, ← List.append_assoc] at hus
      exact ih (List.append_inj' hus rfl).1

end Scans

theorem StandsBehind.text_eq {text before rest : List Char} {ts : List Token} (h : StandsBehind text ts before rest) :
    text = before ++ rest := by
  obtain ⟨front, gap, rfl, -, hscans⟩ := h
  rw [hscans.text_eq, List.append_assoc]

/-! ## What is open -/

/-- elements behind elements -/
def Elements.append : Elements → Elements → Elements
  | .nil, es => es
  | .form f others, es => .form f (others.append es)
  | .dot pos others, es => .dot pos (others.append es)

theorem Elements.tokens_append (es es' : Elements) : (es.append es').tokens = es.tokens ++ es'.tokens := by
  fun_induction append es es' with
  | case1 es => rfl
  | case2 es f others ih => rw [tokens, tokens, ih, List.append_assoc]
  | case3 es pos others ih => rw [tokens, tokens, ih, List.cons_append]

/-- the tokens behind which these things are open, the innermost first -/
inductive Pending : List Token → List Opening → Prop
  | nothing (fs : List Form) : Pending (Form.allTokens fs) []
  | list {ts : List Token} {stack : List Opening} (start : Pos) (read : List Datum) (es : Elements) : Pending ts stack →
    Pending (ts ++ ⟨.leftParen, start⟩ :: es.tokens) (.list start read :: stack)
  | sigil {ts : List Token} {stack : List Opening} (s : Sigil) (start : Pos) : Pending ts stack →
    Pending (ts ++ [⟨s.lexeme, start⟩]) (.sigil start s.word :: stack)

/-- behind these tokens a dot is no element of a list: whole forms come before it, or a sigil, wherever that stands,
which takes it for an operand -/
def OutsideList (ts : List Token) : Prop :=
  (∃ fs, ts = Form.allTokens fs) ∨ ∃ front, ∃ s : Sigil, ∃ start, ts = front ++ [⟨s.lexeme, start⟩]

/-- a token that cannot be read behind other tokens, and the fault it is -/
inductive Rejects : List Token → Token → Diagnostic → Prop
  | paren (fs : List Form) (pos : Pos) : Rejects (Form.allTokens fs) ⟨.rightParen, pos⟩ (.atPos .strayParen pos)
  | dot {ts : List Token} (pos : Pos) : OutsideList ts → Rejects ts ⟨.dot, pos⟩ (.atPos .strayDot pos)
  | operand (ts : List Token) (s : Sigil) (start pos : Pos) :
    Rejects (ts ++ [⟨s.lexeme, start⟩]) ⟨.rightParen, pos⟩ (.atPos (.missingOperand s.word) start)

/-- what one more token leaves open, or why it cannot be read -/
def ReadStep.Explained (ts : List Token) (t : Token) : ReadStep → Prop
  | .more stack => Pending (ts ++ [t]) stack
  | .done _ => Pending (ts ++ [t]) []
  | .fault why _ => Rejects ts t why

namespace Reader

variable {ts us : List Token} {stack : List Opening} {t : Token}

/-- a form that ends with a token goes to the innermost open thing -/
theorem deliver_explained (h : Pending ts stack) {f : Form} (hf : ts ++ f.tokens = us ++ [t]) (d : Datum) :
    (deliver d stack).Explained us t := by
  induction h generalizing f d with
  | nothing fs =>
    change Pending (us ++ [t]) []
    rw [← hf, show Form.allTokens fs ++ f.tokens = Form.allTokens (fs ++ [f]) by simp [Form.allTokens]]
    exact .nothing (fs ++ [f])
  | @list ts stack start read es h _ =>
    have hlist := h.list start (d :: read) (es.append (.form f .nil))
    rw [Elements.tokens_append, Elements.tokens, Elements.tokens, List.append_nil, ← List.cons_append,
      ← List.append_assoc, hf] at hlist
    exact hlist
  | @sigil ts stack s start h ih =>
    have hsigil : ts ++ (Form.sigil s start f).tokens = us ++ [t] := by
      rw [← hf, Form.tokens, List.append_assoc, List.singleton_append]
    exact ih hsigil _

theorem close_explained (h : Pending ts stack) (pos : Pos) :
    (close ⟨.rightParen, pos⟩ stack).Explained ts ⟨.rightParen, pos⟩ := by
  cases h with
  | nothing fs => exact .paren fs pos
  | @list ts _ start read es h =>
    have hlist : ts ++ (Form.list start es pos).tokens = ts ++ ⟨.leftParen, start⟩ :: es.tokens ++
        [⟨.rightParen, pos⟩] := by
      simp [Form.tokens]
    exact deliver_explained h hlist _
  | sigil s start h => exact .operand _ s start pos

theorem dot_explained (h : Pending ts stack) (pos : Pos) : (dot pos stack).Explained ts ⟨.dot, pos⟩ := by
  cases h with
  | nothing fs => exact .dot pos (Or.inl ⟨fs, rfl⟩)
  | list start read es h =>
    have hlist := h.list start (.kw .dot pos.mark :: read) (es.append (.dot pos .nil))
    rw [Elements.tokens_append, Elements.tokens, Elements.tokens, ← List.cons_append, ← List.append_assoc] at hlist
    exact hlist
  | sigil s start h => exact .dot pos (Or.inr ⟨_, s, start, rfl⟩)

/-- **One token is explained** by what is open behind it, or by why it cannot be read -/
theorem step_explained (h : Pending ts stack) (ht : t.lexeme ≠ .endOfInput) : (step stack t).Explained ts t := by
  obtain ⟨lexeme, pos⟩ := t
  rcases lexeme.classify with rfl | rfl | rfl | ⟨s, rfl⟩ | ⟨a, rfl⟩ | rfl
  · exact h.list pos [] .nil
  · exact close_explained h pos
  · exact dot_explained h pos
  · have hsigil := h.sigil s pos
    cases s <;> exact hsigil
  · have hatom := deliver_explained h (f := .atom a pos) rfl (a.datum pos.mark)
    cases a <;> exact hatom
  · exact absurd rfl ht

end Reader

/-! ## Offences -/

/-- what is wrong with the character `c`, which stands behind the tokens `ts` and the characters `before`, and in
front of `after` -/
inductive Offence (text : String) (ts : List Token) (before : List Char) :
    DiagnosticKind → (c : Char) → (after : List Char) → Prop
  /-- a double quote with no other behind it -/
  | openString {after : List Char} : '"' ∉ after → Offence text ts before .lexUnbalanced '"' after
  | noToken {c : Char} {after : List Char} : startsGap c = false →
    (∀ run lexeme, Spells run lexeme → run.head? ≠ some c) → Offence text ts before .lexInvalid c after
  | tooLarge {c : Char} {digits rest : List Char} : (∀ d ∈ c :: digits, isDigit d = true) →
    (∀ d ∈ rest.head?, isDigit d = false) →
    Nat.pow 2 63 - 1 < Nat.ofDigits 10 ((c :: digits).reverse.map fun d => (digitValue? d).getD 0) →
    Offence text ts before .lexInvalid c (digits ++ rest)
  /-- the list goes on with whole elements up to the end of the text -/
  | openList {es : Elements} {after : List Char} :
      tokens text = .ok (ts ++ ⟨.leftParen, placeAfter before⟩ :: es.tokens) →
    Offence text ts before .parseEnd '(' after
  /-- no list is open -/
  | strayParen {fs : List Form} {after : List Char} : ts = Form.allTokens fs →
      Offence text ts before .parseUnbalanced ')' after
  | strayDot {after : List Char} : OutsideList ts → Offence text ts before .parseUnbalanced '.' after
  /-- behind the sigil comes a close parenthesis or the end of the text -/
  | noOperand {s : Sigil} {c : Char} {cs gap rest : List Char} : Spells (c :: cs) s.lexeme →
      Delimited s.lexeme (gap ++ rest) → (Gap gap ∧ rest.head? = some ')' ∨ FinalGap gap ∧ rest = []) →
    Offence text ts before .parseUnbalanced c (cs ++ (gap ++ rest))

/-- the fault is at the place of a character, which is an offence of its kind -/
def Points (text : String) (fault : Diagnostic) : Prop :=
  ∃ ts before c after cause, StandsBehind text.toList ts before (c :: after) ∧
    fault = .atPos cause (placeAfter before) ∧ Offence text ts before cause.kind c after

/-- the fault is a numeral of the text with more digits than are converted -/
def Overlong (text : String) (fault : Diagnostic) : Prop :=
  ∃ ts before digits rest, StandsBehind text.toList ts before (digits ++ rest) ∧ (∀ d ∈ digits, isDigit d = true) ∧
    (∀ d ∈ rest.head?, isDigit d = false) ∧ maxDigits < digits.length ∧ fault = .broken (.numeralLength digits.length)

section Offences

variable {text : String} {ts : List Token} {before after : List Char} {c : Char}

theorem Offence.startsGap_eq_false {kind : DiagnosticKind} (h : Offence text ts before kind c after) :
    startsGap c = false := by
  cases h with
  | noToken hgap _ => exact hgap
  | tooLarge hdigits _ _ => exact startsGap_of_class (Or.inl (hdigits c List.mem_cons_self))
  | noOperand hspells _ _ =>
    obtain ⟨d, ds, hcons, hd⟩ := hspells.head
    cases hcons
    exact hd
  | _ => decide

theorem Offence.kind_not_breakdown {kind : DiagnosticKind} (h : Offence text ts before kind c after) :
    kind.isBreakdown = false := by
  cases h <;> rfl

/-- what is misspelled starts like a lexeme -/
theorem Misspells.head {run rest : List Char} {cause : Cause} (h : Misspells run rest cause) :
    ∃ c cs, run = c :: cs := by
  cases h with
  | openString _ => exact ⟨_, _, rfl⟩
  | tooLong hne _ _ _ => exact List.exists_cons_of_ne_nil hne
  | tooLarge hne _ _ _ => exact List.exists_cons_of_ne_nil hne

/-- what is misspelled is an offence at its first character, or a numeral that is too long -/
theorem Misspells.points {run rest : List Char} {cause : Cause} (h : Misspells run rest cause)
    (hstands : StandsBehind text.toList ts before (run ++ rest)) :
    Points text (.ofToken cause (placeAfter before)) ∨ Overlong text (.ofToken cause (placeAfter before)) := by
  cases h with
  | @openString body hbody =>
    rw [List.append_nil] at hstands
    exact Or.inl ⟨ts, before, '"', body, _, hstands, rfl, .openString hbody⟩
  | tooLong _ hdigits hends hlong => exact Or.inr ⟨ts, before, run, rest, hstands, hdigits, hends, hlong, rfl⟩
  | tooLarge hne hdigits hends hlarge =>
    obtain ⟨c, cs, rfl⟩ := List.exists_cons_of_ne_nil hne
    exact Or.inl ⟨ts, before, c, cs ++ rest, _, hstands, rfl, .tooLarge hdigits hends hlarge⟩

/-- whether a character starts a token does not depend on what comes behind it -/
theorem munch_stuck {cs : List Char} (h : munch cs = .stuck c) :
    ∃ after, cs = c :: after ∧ ∀ more, munch (c :: more) = .stuck c := by
  cases cs with
  | nil => cases h
  | cons d cs =>
    simp only [munch] at h
    split at h
    · cases h
    rename_i hsolo
    split_ifs at h with hcomma hquote hdigit hlong hrange hident
    · split at h <;> cases h
    · split at h <;> cases h
    · split at h <;> cases h
    · cases h
      refine ⟨cs, rfl, fun more => ?_⟩
      simp [munch, hsolo, hcomma, hquote, hdigit, hident]

/-- a character at which a scan is stuck is the first of no lexeme -/
theorem munch_stuck_spells {cs : List Char} (h : munch cs = .stuck c) :
    ∃ after, cs = c :: after ∧ ∀ run lexeme, Spells run lexeme → run.head? ≠ some c := by
  obtain ⟨after, hcs, hstuck⟩ := munch_stuck h
  refine ⟨after, hcs, fun run lexeme hspells hhead => ?_⟩
  obtain ⟨more, rfl⟩ := List.head?_eq_some_iff.1 hhead
  have hmunch := hspells.munch_append (show Delimited lexeme [] from nofun)
  rw [List.append_nil, hstuck more] at hmunch
  cases hmunch

end Offences

/-! ## Runs -/

/-- a cursor at the end of the last of the tokens `ts`, behind the characters `front` -/
structure Cursor.Reached (text : String) (ts : List Token) (front : List Char) (c : Cursor) : Prop where
  scans : Scans text.toList ts front c.rest
  pos : c.pos = placeAfter front

section Run

variable {text : String} {ts : List Token} {front : List Char} {c : Cursor} {fault : Diagnostic}

namespace Cursor.Reached

/-- a gap comes next -/
theorem gap (h : c.Reached text ts front) :
    ∃ gap, c.rest = gap ++ c.skipTrivia.rest ∧ c.skipTrivia.pos = placeAfter (front ++ gap) ∧
      GapBefore gap c.skipTrivia.rest := by
  obtain ⟨gap, rest, hsplit⟩ : ∃ gap rest, splitTrivia false c.rest = (gap, rest) := ⟨_, _, rfl⟩
  obtain ⟨hrest, hgap⟩ := splitTrivia_eq_iff.1 hsplit
  have hskip : c.skipTrivia.rest = rest := by rw [skipTrivia_eq hsplit, pass]
  rw [hskip]
  exact ⟨gap, hrest, skipTrivia_pos h.pos hsplit, hgap⟩

/-- the place of the next character behind the gap -/
theorem stands (h : c.Reached text ts front) {d : Char} {ds : List Char} (hrest : c.skipTrivia.rest = d :: ds) :
    ∃ gap, StandsBehind text.toList ts (front ++ gap) (d :: ds) ∧ c.rest = gap ++ d :: ds ∧ Gap gap ∧
      c.skipTrivia.pos = placeAfter (front ++ gap) ∧ startsGap d = false := by
  obtain ⟨gap, hgap, hpos, hbefore⟩ := h.gap
  rw [hrest] at hgap hbefore
  rcases hbefore with ⟨-, hnil⟩ | ⟨hclosed, d', ds', hcons, hd⟩
  · cases hnil
  · cases hcons
    exact ⟨gap, ⟨front, gap, rfl, hclosed, hgap ▸ h.scans⟩, hgap, hclosed, hpos, hd⟩

/-- the cursor behind the next token -/
theorem token (h : c.Reached text ts front) {lexeme : Lexeme} {run rest : List Char}
    (hmunch : munch c.skipTrivia.rest = .lexeme lexeme run rest) :
    ∃ front', (c.skipTrivia.pass run rest).Reached text (ts ++ [⟨lexeme, c.skipTrivia.pos⟩]) front' := by
  obtain ⟨hrest, hspells, hends⟩ := munch_eq_lexeme_iff.1 hmunch
  obtain ⟨d, ds, rfl, -⟩ := hspells.head
  rw [List.cons_append] at hrest
  obtain ⟨gap, -, hgap, hclosed, hpos, -⟩ := h.stands hrest
  have hscans := h.scans
  rw [hgap, ← List.cons_append, ← List.append_assoc] at hscans
  refine ⟨front ++ gap ++ d :: ds, ?_, pass_pos hpos rest⟩
  rw [hpos]
  exact .token hscans hclosed hspells hends

theorem finished (h : c.Reached text ts front) (hmunch : munch c.skipTrivia.rest = .finished) : FinalGap c.rest := by
  obtain ⟨gap, hgap, -, hbefore⟩ := h.gap
  rw [munch_eq_finished_iff.1 hmunch] at hgap hbefore
  rcases hbefore with ⟨hfinal, -⟩ | ⟨-, d, ds, hcons, -⟩
  · rwa [hgap, List.append_nil]
  · cases hcons

end Cursor.Reached

/-- a sigil is an offence if no operand comes behind it -/
theorem points_operand {s : Sigil} {start : Pos} {gap rest : List Char}
    (h : Scans text.toList (ts ++ [⟨s.lexeme, start⟩]) front (gap ++ rest))
    (hbehind : Gap gap ∧ rest.head? = some ')' ∨ FinalGap gap ∧ rest = []) :
    Points text (.atPos (.missingOperand s.word) start) := by
  obtain ⟨before, run, hstands, hpos, hspells, hends⟩ := h.last
  obtain ⟨d, ds, rfl, -⟩ := hspells.head
  exact ⟨ts, before, d, _, _, hstands, by rw [← hpos], .noOperand hspells hends hbehind⟩

/-- a token that cannot be read is an offence, or shows one -/
theorem Rejects.points {lexeme : Lexeme} {run rest : List Char} (h : Rejects ts ⟨lexeme, c.skipTrivia.pos⟩ fault)
    (hreached : c.Reached text ts front) (hmunch : munch c.skipTrivia.rest = .lexeme lexeme run rest) :
    Points text fault := by
  obtain ⟨hrest, hspells, -⟩ := munch_eq_lexeme_iff.1 hmunch
  cases h with
  | paren fs =>
    cases hspells
    obtain ⟨gap, hstands, -, -, hpos, -⟩ := hreached.stands hrest
    exact ⟨_, _, _, _, _, hstands, by rw [hpos], .strayParen rfl⟩
  | dot _ houtside =>
    cases hspells
    obtain ⟨gap, hstands, -, -, hpos, -⟩ := hreached.stands hrest
    exact ⟨_, _, _, _, _, hstands, by rw [hpos], .strayDot houtside⟩
  | operand ts s start =>
    cases hspells
    obtain ⟨gap, -, hgap, hclosed, -⟩ := hreached.stands hrest
    have hscans := hreached.scans
    rw [hgap] at hscans
    exact points_operand hscans (Or.inl ⟨hclosed, rfl⟩)

/-- what is open at the end of the text is an offence -/
theorem Pending.points {opening : Opening} {stack : List Opening} (h : Pending ts (opening :: stack))
    (hscans : Scans text.toList ts front c.rest) (hgap : FinalGap c.rest) :
    Points text (Reader.unfinished opening) := by
  cases h with
  | @list ts' _ start read es h =>
    have htokens : tokens text = .ok (ts' ++ ⟨.leftParen, start⟩ :: es.tokens) := by
      have htiles := hscans.tiles (.finished hgap)
      rw [List.append_nil] at htiles
      exact tokens_eq_ok_drain.2 (Cursor.drain_of_tiles rfl htiles)
    rw [← List.singleton_append, ← List.append_assoc] at hscans
    obtain ⟨_, rest, hfront⟩ := hscans.earlier
    obtain ⟨before, run, hstands, hpos, hspells, -⟩ := hfront.last
    cases hspells
    dsimp only at hpos
    subst hpos
    exact ⟨ts', before, '(', rest, _, hstands, rfl, .openList htokens⟩
  | sigil s start h =>
    rw [← List.append_nil c.rest] at hscans
    exact points_operand hscans (Or.inr ⟨hgap, rfl⟩)

/-- **Every fault of a run points at an offence,** whatever was read before and whatever is open, or is a numeral that
is too long -/
theorem readForms_points {stack : List Opening} (hreached : c.Reached text ts front) (hpending : Pending ts stack)
    (h : (Reader.readForms c.feed.ending stack c.feed.events).1 = .error fault) :
    Points text fault ∨ Overlong text fault := by
  induction c using Cursor.scanInduct generalizing ts front stack fault with
  | lexeme c lexeme run rest hmunch ih =>
    rw [Cursor.feed_lexeme hmunch] at h
    simp only [Feed.cons, Reader.readForms] at h
    have hstep := Reader.step_explained (t := ⟨lexeme, c.skipTrivia.pos⟩) hpending (munch_spells hmunch).1.ne_endOfInput
    obtain ⟨front', hnext⟩ := hreached.token hmunch
    split at h <;> rename_i heq <;> rw [heq] at hstep
    · exact ih hnext hstep h
    · cases hforms : (Reader.readForms (c.skipTrivia.pass run rest).feed.ending []
          (c.skipTrivia.pass run rest).feed.events).1 with
      | ok ds =>
        rw [hforms] at h
        cases h
      | error fault' =>
        rw [hforms] at h
        cases h
        exact ih hnext hstep hforms
    · cases h
      exact Or.inl (hstep.points hreached hmunch)
  | fault c cause run rest hmunch _ =>
    rw [Cursor.feed_fault hmunch] at h
    cases h
    obtain ⟨hmisspells, hrest⟩ := munch_misspells hmunch
    obtain ⟨d, ds, rfl⟩ := hmisspells.head
    rw [List.cons_append] at hrest
    obtain ⟨gap, hstands, -, -, hpos, -⟩ := hreached.stands hrest
    rw [hpos]
    exact hmisspells.points hstands
  | stuck c ch hmunch =>
    rw [Cursor.feed_stuck hmunch] at h
    obtain ⟨ds, hrest, hnone⟩ := munch_stuck_spells hmunch
    obtain ⟨gap, hstands, -, -, hpos, hstart⟩ := hreached.stands hrest
    have hpoints : Points text (.atPos (.invalidCharacter (some ch.toString)) c.skipTrivia.pos) :=
      ⟨ts, _, ch, ds, _, hstands, by rw [hpos], .noToken hstart hnone⟩
    cases stack <;> cases h <;> exact Or.inl hpoints
  | finished c hmunch =>
    rw [Cursor.feed_finished hmunch] at h
    cases stack with
    | nil => cases h
    | cons opening stack =>
      cases h
      exact Or.inl (hpending.points hreached.scans (hreached.finished hmunch))

end Run

/-! ## Texts -/

/-- a text that is not read has an offence, where its fault is, or a numeral that is too long -/
theorem readText_points {text : String} {fault : Diagnostic} (h : readText text = .error fault) :
    (∃ found, Points text found ∧ fault = found.withSource text) ∨ Overlong text fault := by
  have hstart : (Cursor.ofText text).Reached text [] [] := ⟨.start, rfl⟩
  unfold readText at h
  cases hread : (Feed.ofText text).readForms.1 with
  | ok ds =>
    rw [hread] at h
    cases h
  | error found =>
    rw [hread] at h
    cases h
    rcases readForms_points hstart (.nothing []) hread with hpoints | hlong
    · exact Or.inl ⟨found, hpoints, rfl⟩
    · obtain ⟨ts, before, digits, rest, hstands, hdigits, hends, hlong, rfl⟩ := hlong
      exact Or.inr ⟨ts, before, digits, rest, hstands, hdigits, hends, hlong, rfl⟩

/-- **A reading fault points at the offending character.** If a text cannot be read, and the scan did not break down,
the fault is at the place of one of its characters: the line is the number of line feeds before it, the column that of
the characters since the last of them. The character is the offence that the kind of the fault says, and whatever
number of lines is shown above it, the message ends with its numbered line and with a caret that has as many spaces
before it as there are characters before the offence -/
theorem readText_faults_point (text : String) (fault : Diagnostic) (h : readText text = .error fault)
    (hkind : fault.kind.isBreakdown = false) :
    ∃ ts before c after, text.toList = before ++ c :: after ∧ StandsBehind text.toList ts before (c :: after) ∧
      fault.mark = (placeAfter before).mark ∧ Offence text ts before fault.kind c after ∧
      ∀ n : Nat, ∃ above, linesOf (fault.render n).toList = above ++
        [shownBefore before ++ c :: after.takeWhile (· != '\n'),
          List.replicate (shownBefore before).length ' ' ++ ['^']] := by
  rcases readText_points h with ⟨found, ⟨ts, before, c, after, cause, hstands, rfl, hoffence⟩, rfl⟩ | hlong
  · have hc : c ≠ '\n' := by
      rintro rfl
      cases hoffence.startsGap_eq_false
    have hfault : (Diagnostic.atPos cause (placeAfter before)).kind.isBreakdown = false := hoffence.kind_not_breakdown
    rw [Diagnostic.withSource_of_fault hfault]
    exact ⟨ts, before, c, after, hstands.text_eq, hstands, rfl, hoffence,
      fun n => render_lines rfl hstands.text_eq rfl hc n⟩
  · obtain ⟨_, _, _, _, _, _, _, _, rfl⟩ := hlong
    cases hkind

/-- of two lists that are not closed the inner one is the offence; parentheses in comments and strings close nothing -/
theorem inner_open_list_pointed :
    readText "(a ; )\n  (b '(c \")\")" = .error ⟨.unclosedList, ⟨some 1, some 2⟩, none,
      some "(a ; )\n  (b '(c \")\")"⟩ ∧
    ∃ ts before after, "(a ; )\n  (b '(c \")\")".toList = before ++ '(' :: after ∧
      (placeAfter before).mark = ⟨some 1, some 2⟩ ∧
      ∃ es : Elements, tokens "(a ; )\n  (b '(c \")\")" = .ok (ts ++ ⟨.leftParen, placeAfter before⟩ :: es.tokens) := by
  have hfault : readText "(a ; )\n  (b '(c \")\")" =
      .error ⟨.unclosedList, ⟨some 1, some 2⟩, none, some "(a ; )\n  (b '(c \")\")"⟩ := by
    decide +kernel
  obtain ⟨ts, before, c, after, htext, -, hmark, hoffence, -⟩ := readText_faults_point _ _ hfault rfl
  cases hoffence with
  | @openList es _ htokens => exact ⟨hfault, ts, before, after, htext, hmark.symm, es, htokens⟩

end SchemeStack
