/-
A text is tiled by its tokens and the gaps between them.

`Tiles Spells before text ts`: the characters of `text`, which come after the characters `before`, are gaps and spelled
tokens in turn, and `ts` are the tokens. This says nothing of how a text is scanned:

- `Gap`: blanks and comments, a comment with the line feed that ends it; `FinalGap` may end inside a comment;
- `Spells run lexeme`: the characters that write a lexeme, a numeral having at most `maxDigits` digits;
- `SpellsFreely run lexeme`: the same without that limit;
- `Delimited lexeme rest`: the lexeme does not go on in the characters behind it;
- `placeAfter before`: the line feeds before a token, and the characters since the last of them.

`tokens_tile`: the tokens of a text are `ts` if and only if the text is tiled by `ts`. Both directions go through one
lemma for gaps (`splitTrivia_eq_iff`) and one for lexemes (`munch_eq_lexeme_iff`). That there is one way only to cut a
text rests on the classes of characters: what starts a token is neither blank nor a semicolon (`Spells.head`). A text
that is tiled with a longer numeral has no tokens: the scan breaks down at the first of them (`longNumeral_breaks`).
-/
import Mathlib.Data.List.Induction
import Mathlib.Data.List.TakeWhile
import Mathlib.Data.Nat.Digits.Defs
import SchemeStack.Token.Scanner

namespace SchemeStack

open SchemeStack.Source SchemeStack.Text

theorem except_map_eq_ok {ε α β : Type} {x : Except ε α} {f : α → β} {b : β} :
    x.map f = .ok b ↔ ∃ a, x = .ok a ∧ f a = b := by
  cases x <;> simp [Except.map]

/-! ## Gaps, spellings, places -/

/-- blanks and comments that have ended -/
inductive Gap : List Char → Prop
  | nil : Gap []
  | blank {c : Char} {gap : List Char} : isBlank c = true → Gap gap → Gap (c :: gap)
  | comment {body gap : List Char} : '\n' ∉ body → Gap gap → Gap (';' :: (body ++ '\n' :: gap))

/-- a gap at the end of a text, where a comment needs no line feed -/
inductive FinalGap : List Char → Prop
  | closed {gap : List Char} : Gap gap → FinalGap gap
  | comment {gap body : List Char} : Gap gap → '\n' ∉ body → FinalGap (gap ++ ';' :: body)

/-- the identifiers that spell booleans -/
def booleanNames : List (String × Bool) := [("#t", true), ("true", true), ("#f", false), ("false", false)]

/-- the characters that write a lexeme -/
inductive Spells : List Char → Lexeme → Prop
  | leftParen : Spells ['('] .leftParen
  | rightParen : Spells [')'] .rightParen
  | quote : Spells ['\''] .quote
  | quasiquote : Spells ['`'] .quasiquote
  | dot : Spells ['.'] .dot
  | unquote : Spells [','] .unquote
  | unquoteSplicing : Spells [',', '@'] .unquoteSplicing
  | string {body : List Char} : '"' ∉ body → Spells ('"' :: body ++ ['"']) (.string (String.ofList body))
  | integer {digits : List Char} {n : Nat} : digits ≠ [] → (∀ c ∈ digits, isDigit c = true) →
    n = Nat.ofDigits 10 (digits.reverse.map fun c => (digitValue? c).getD 0) → n ≤ Nat.pow 2 63 - 1 →
    digits.length ≤ maxDigits → Spells digits (.integer n)
  | boolean {name : String} {b : Bool} : (name, b) ∈ booleanNames → Spells name.toList (.boolean b)
  | identifier {c : Char} {cs : List Char} : (∀ d ∈ c :: cs, isIdentifierChar d = true) → isDigit c = false → c ≠ '.' →
    String.ofList (c :: cs) ∉ booleanNames.map Prod.fst → Spells (c :: cs) (.identifier (String.ofList (c :: cs)))

/-- the characters that write a lexeme, if a numeral may have any number of digits -/
inductive SpellsFreely : List Char → Lexeme → Prop
  | spelled {run : List Char} {lexeme : Lexeme} : Spells run lexeme → SpellsFreely run lexeme
  | integer {digits : List Char} {n : Nat} : digits ≠ [] → (∀ c ∈ digits, isDigit c = true) →
    n = Nat.ofDigits 10 (digits.reverse.map fun c => (digitValue? c).getD 0) → n ≤ Nat.pow 2 63 - 1 →
    SpellsFreely digits (.integer n)

/-- the class of characters that would make the lexeme longer -/
def Lexeme.goesOn : Lexeme → Char → Bool
  | .integer _ => isDigit
  | .boolean _ => isIdentifierChar
  | .identifier _ => isIdentifierChar
  | .unquote => (· == '@')
  | _ => fun _ => false

/-- the lexeme does not go on in what follows -/
def Delimited (lexeme : Lexeme) (rest : List Char) : Prop := ∀ c ∈ rest.head?, lexeme.goesOn c = false

/-- the place behind some characters: the line feeds among them, and the characters since the last line feed -/
def placeAfter (before : List Char) : Pos :=
  ⟨before.count '\n', (before.reverse.takeWhile (· != '\n')).length⟩

/-- the text behind `before` is made of gaps and of tokens that are spelled as `S` says -/
inductive Tiles (S : List Char → Lexeme → Prop) : (before text : List Char) → List Token → Prop
  | finished {before gap : List Char} : FinalGap gap → Tiles S before gap []
  | token {before gap run rest : List Char} {lexeme : Lexeme} {ts : List Token} : Gap gap → S run lexeme →
    Delimited lexeme rest → Tiles S (before ++ gap ++ run) rest ts →
    Tiles S before (gap ++ run ++ rest) (⟨lexeme, placeAfter (before ++ gap)⟩ :: ts)

theorem start_after (before : List Char) : Pos.start.after before = placeAfter before := by
  induction before using List.reverseRecOn with
  | nil => rfl
  | append_singleton before c ih =>
    rw [Pos.after_append, ih, Pos.after_cons, Pos.after_nil]
    by_cases hc : c = '\n'
    · simp [Pos.step, placeAfter, hc]
    · simp [Pos.step, placeAfter, hc]

/-! ## Classes of characters -/

theorem exists_range_of_covers {ranges : Ranges} {n : Nat} (h : ranges.covers n = true) :
    ∃ r ∈ ranges, r.1 ≤ n ∧ n ≤ r.2 := by
  induction ranges with
  | nil => simp [Ranges.covers] at h
  | cons r ranges ih =>
    obtain ⟨first, last⟩ := r
    simp only [Ranges.covers] at h
    split_ifs at h with hlt
    rcases Bool.or_eq_true_iff.1 h with hle | hcovers
    · exact ⟨(first, last), List.mem_cons_self, by omega, by simpa using hle⟩
    · obtain ⟨r, hr, hn⟩ := ih hcovers
      exact ⟨r, List.mem_cons_of_mem _ hr, hn⟩

/-- the tables of blanks, of letters and numbers, and of digits have nothing in common -/
theorem blankRanges_apart : ∀ r ∈ blankRanges, ∀ i ∈ List.range (r.2 - r.1 + 1),
    alphanumericRanges.covers (r.1 + i) = false ∧ digitValueFrom digitZeros (r.1 + i) = none ∧
      identifierPunctuation.all (fun c => c.toNat != r.1 + i) = true := by
  decide +kernel

theorem blank_apart {c : Char} (h : isBlank c = true) : isIdentifierChar c = false ∧ isDigit c = false := by
  obtain ⟨r, hr, hfirst, hlast⟩ := exists_range_of_covers h
  obtain ⟨halnum, hdigit, hpunct⟩ := blankRanges_apart r hr (c.toNat - r.1) (List.mem_range.2 (by omega))
  rw [Nat.add_sub_cancel' hfirst] at halnum hdigit hpunct
  have hnot : identifierPunctuation.contains c = false := by
    simpa using fun hc => List.all_eq_true.1 hpunct c hc
  exact ⟨by rw [isIdentifierChar, hnot, isAlphanumeric, halnum]; rfl, by rw [isDigit, digitValue?, hdigit]; rfl⟩

/-- the characters with a meaning of their own are neither blank nor digits, and only the dot is an identifier
character -/
theorem marks_apart : ∀ c ∈ ['(', ')', '\'', '`', ',', '"', ';'],
    isIdentifierChar c = false ∧ isDigit c = false ∧ isBlank c = false := by
  have hall : ['(', ')', '\'', '`', ',', '"', ';'].all
      (fun c => isIdentifierChar c = false ∧ isDigit c = false ∧ isBlank c = false) = true := by decide
  simpa only [List.all_eq_true, decide_eq_true_eq] using hall

theorem dot_apart : isDigit '.' = false ∧ isBlank '.' = false := by
  decide

/-- a character that can stand in a gap: a blank, or the semicolon of a comment -/
def startsGap (c : Char) : Bool := isBlank c || c == ';'

theorem startsGap_eq_false {c : Char} : startsGap c = false ↔ isBlank c = false ∧ c ≠ ';' := by
  simp [startsGap]

theorem startsGap_of_class {c : Char} (h : isDigit c = true ∨ isIdentifierChar c = true) : startsGap c = false := by
  refine startsGap_eq_false.2 ⟨?_, ?_⟩
  · by_contra hblank
    obtain ⟨hident, hdigit⟩ := blank_apart (Bool.not_eq_false _ ▸ hblank)
    simp [hident, hdigit] at h
  · intro hc
    obtain ⟨hident, hdigit, -⟩ := marks_apart ';' (by simp)
    simp [hc, hident, hdigit] at h

theorem digits_head {digits : List Char} (hne : digits ≠ []) (hdigits : ∀ c ∈ digits, isDigit c = true) :
    ∃ c cs, digits = c :: cs ∧ startsGap c = false := by
  obtain ⟨c, cs, hcs⟩ := List.exists_cons_of_ne_nil hne
  exact ⟨c, cs, hcs, startsGap_of_class (Or.inl (hdigits c (hcs ▸ List.mem_cons_self)))⟩

/-- a lexeme is spelled by some characters, of which the first starts no gap -/
theorem Spells.head {run : List Char} {lexeme : Lexeme} (h : Spells run lexeme) :
    ∃ c cs, run = c :: cs ∧ startsGap c = false := by
  cases h with
  | integer hne hdigits _ _ _ => exact digits_head hne hdigits
  | identifier hall _ _ _ => exact ⟨_, _, rfl, startsGap_of_class (Or.inr (hall _ List.mem_cons_self))⟩
  | boolean hname =>
    simp only [booleanNames, List.mem_cons, List.not_mem_nil, Prod.mk.injEq, or_false] at hname
    rcases hname with ⟨rfl, -⟩ | ⟨rfl, -⟩ | ⟨rfl, -⟩ | ⟨rfl, -⟩ <;> exact ⟨_, _, rfl, by decide⟩
  | _ => exact ⟨_, _, rfl, by decide⟩

/-! ## Gaps -/

/-- what splitting off a gap leaves: nothing behind the last gap, or a character that starts no gap -/
def GapBefore (gap rest : List Char) : Prop :=
  FinalGap gap ∧ rest = [] ∨ Gap gap ∧ ∃ c cs, rest = c :: cs ∧ startsGap c = false

theorem GapBefore.blank {c : Char} {gap rest : List Char} (hc : isBlank c = true) (h : GapBefore gap rest) :
    GapBefore (c :: gap) rest := by
  rcases h with ⟨hgap | ⟨hgap, hbody⟩, hrest⟩ | ⟨hgap, hrest⟩
  · exact Or.inl ⟨.closed (.blank hc hgap), hrest⟩
  · exact Or.inl ⟨.comment (.blank hc hgap) hbody, hrest⟩
  · exact Or.inr ⟨.blank hc hgap, hrest⟩

theorem GapBefore.comment {body gap rest : List Char} (hbody : '\n' ∉ body) (h : GapBefore gap rest) :
    GapBefore (';' :: (body ++ '\n' :: gap)) rest := by
  rcases h with ⟨hgap | ⟨hgap, hlast⟩, hrest⟩ | ⟨hgap, hrest⟩
  · exact Or.inl ⟨.closed (.comment hbody hgap), hrest⟩
  · have hfinal := FinalGap.comment (.comment hbody hgap) hlast
    simp only [List.cons_append, List.append_assoc] at hfinal
    exact Or.inl ⟨hfinal, hrest⟩
  · exact Or.inr ⟨.comment hbody hgap, hrest⟩

/-- what is split off is a gap; inside a comment, the rest of the comment comes first -/
theorem splitTrivia_gapBefore (inComment : Bool) (cs : List Char) :
    if inComment then ∃ body, '\n' ∉ body ∧ (splitTrivia true cs = (body, []) ∨
        ∃ gap rest, splitTrivia true cs = (body ++ '\n' :: gap, rest) ∧ GapBefore gap rest)
    else GapBefore (splitTrivia false cs).1 (splitTrivia false cs).2 := by
  induction cs generalizing inComment with
  | nil =>
    cases inComment with
    | false => exact Or.inl ⟨.closed .nil, rfl⟩
    | true => exact ⟨[], by simp, Or.inl rfl⟩
  | cons c cs ih =>
    cases inComment with
    | false =>
      change GapBefore (splitTrivia false (c :: cs)).1 (splitTrivia false (c :: cs)).2
      rw [splitTrivia]
      split_ifs with hblank hsemicolon
      · exact .blank hblank (ih false)
      · subst hsemicolon
        obtain ⟨body, hbody, hsplit | ⟨gap, rest, hsplit, hgap⟩⟩ := ih true
        · rw [hsplit]
          exact Or.inl ⟨.comment .nil hbody, rfl⟩
        · rw [hsplit]
          exact .comment hbody hgap
      · exact Or.inr ⟨.nil, c, cs, rfl, startsGap_eq_false.2 ⟨by simpa using hblank, hsemicolon⟩⟩
    | true =>
      by_cases hc : c = '\n'
      · subst hc
        exact ⟨[], by simp, Or.inr ⟨_, _, rfl, ih false⟩⟩
      · have hstep : splitTrivia true (c :: cs) = (c :: (splitTrivia true cs).1, (splitTrivia true cs).2) := by
          have hne : (c != '\n') = true := by simpa using hc
          rw [splitTrivia, hne]
        obtain ⟨body, hbody, hsplit | ⟨gap, rest, hsplit, hgap⟩⟩ := ih true
        · exact ⟨c :: body, by simp [hbody, Ne.symm hc], Or.inl (by rw [hstep, hsplit])⟩
        · exact ⟨c :: body, by simp [hbody, Ne.symm hc], Or.inr ⟨gap, rest, by rw [hstep, hsplit]; rfl, hgap⟩⟩

theorem splitTrivia_body {body : List Char} (h : '\n' ∉ body) (rest : List Char) :
    splitTrivia true (body ++ rest) = (body ++ (splitTrivia true rest).1, (splitTrivia true rest).2) := by
  induction body with
  | nil => rfl
  | cons c body ih =>
    have hc : (c != '\n') = true := by
      simp only [bne_iff_ne]
      rintro rfl
      exact h List.mem_cons_self
    have hbody : '\n' ∉ body := fun hmem => h (List.mem_cons_of_mem c hmem)
    rw [List.cons_append, splitTrivia, hc, ih hbody]
    rfl

theorem Gap.splitTrivia_append {gap : List Char} (h : Gap gap) (rest : List Char) :
    splitTrivia false (gap ++ rest) = (gap ++ (splitTrivia false rest).1, (splitTrivia false rest).2) := by
  induction h with
  | nil => rfl
  | blank hc _ ih =>
    rw [List.cons_append, splitTrivia, if_pos hc, ih]
    rfl
  | comment hbody _ ih =>
    have hblank : ¬ isBlank ';' = true := by decide
    rw [List.cons_append, splitTrivia, if_neg hblank, if_pos rfl, List.append_assoc, splitTrivia_body hbody,
      List.cons_append, splitTrivia, show ('\n' != '\n') = false from rfl, ih]
    simp

/-- a gap is split off as far as it goes -/
theorem splitTrivia_eq_iff {cs gap rest : List Char} :
    splitTrivia false cs = (gap, rest) ↔ cs = gap ++ rest ∧ GapBefore gap rest := by
  constructor
  · intro h
    have happend := splitTrivia_append false cs
    have hgap : GapBefore (splitTrivia false cs).1 (splitTrivia false cs).2 := splitTrivia_gapBefore false cs
    rw [h] at happend hgap
    exact ⟨happend.symm, hgap⟩
  · rintro ⟨rfl, ⟨hgap | ⟨hgap, hbody⟩, rfl⟩ | ⟨hgap, c, cs, rfl, hc⟩⟩
    · rw [hgap.splitTrivia_append, splitTrivia, List.append_nil]
    · have hblank : ¬ isBlank ';' = true := by decide
      have hend := splitTrivia_body hbody []
      rw [List.append_nil] at hend
      rw [List.append_nil, hgap.splitTrivia_append, splitTrivia, if_neg hblank, if_pos rfl, hend]
      simp [splitTrivia]
    · obtain ⟨hblank, hsemicolon⟩ := startsGap_eq_false.1 hc
      rw [hgap.splitTrivia_append, splitTrivia, if_neg (by simp [hblank]), if_neg hsemicolon, List.append_nil]

/-! ## Lexemes -/

/-- a run of a class of characters, and behind it none of the class -/
theorem takeWhile_run {p : Char → Bool} {run rest : List Char} (hrun : ∀ c ∈ run, p c = true)
    (hrest : ∀ c ∈ rest.head?, p c = false) : (run ++ rest).takeWhile p = run ∧ (run ++ rest).dropWhile p = rest := by
  rw [List.takeWhile_append_of_pos hrun, List.dropWhile_append_of_pos hrun]
  cases rest with
  | nil => simp
  | cons c rest => simp [hrest c rfl]

theorem head?_dropWhile (p : Char → Bool) (cs : List Char) : ∀ c ∈ (cs.dropWhile p).head?, p c = false := by
  intro c hc
  have h := List.head?_dropWhile_not p cs
  rwa [hc] at h

theorem numeralValue_eq_ofDigits (digits : List Char) :
    numeralValue digits = Nat.ofDigits 10 (digits.reverse.map fun c => (digitValue? c).getD 0) := by
  induction digits using List.reverseRecOn with
  | nil => rfl
  | append_singleton digits c ih =>
    have hstep : numeralValue (digits ++ [c]) = 10 * numeralValue digits + (digitValue? c).getD 0 := by
      simp [numeralValue]
    rw [hstep, ih, List.reverse_append, List.map_append, Nat.ofDigits_append]
    simp [Nat.add_comm]

theorem soloLexeme?_spells {c : Char} {lexeme : Lexeme} (h : soloLexeme? c = some lexeme) :
    Spells [c] lexeme ∧ ∀ d, lexeme.goesOn d = false := by
  unfold soloLexeme? at h
  split_ifs at h with h₁ h₂ h₃ h₄ h₅
  · subst h₁; cases h; exact ⟨.leftParen, fun _ => rfl⟩
  · subst h₂; cases h; exact ⟨.rightParen, fun _ => rfl⟩
  · subst h₃; cases h; exact ⟨.quote, fun _ => rfl⟩
  · subst h₄; cases h; exact ⟨.quasiquote, fun _ => rfl⟩
  · subst h₅; cases h; exact ⟨.dot, fun _ => rfl⟩

theorem booleanOfName?_eq_some_iff {name : String} {b : Bool} :
    booleanOfName? name = some b ↔ (name, b) ∈ booleanNames := by
  unfold booleanOfName? booleanNames
  split_ifs with htrue hfalse
  · rcases htrue with rfl | rfl <;> simp [eq_comm]
  · rcases hfalse with rfl | rfl <;> simp [eq_comm]
  · grind

theorem booleanOfName?_eq_none_iff {name : String} :
    booleanOfName? name = none ↔ name ∉ booleanNames.map Prod.fst := by
  unfold booleanOfName? booleanNames
  split_ifs with htrue hfalse
  · rcases htrue with rfl | rfl <;> simp
  · rcases hfalse with rfl | rfl <;> simp
  · grind

/-- what is taken from the start of a text is a lexeme that ends there -/
theorem munch_spells {cs run rest : List Char} {lexeme : Lexeme} (h : munch cs = .lexeme lexeme run rest) :
    Spells run lexeme ∧ Delimited lexeme rest := by
  cases cs with
  | nil => cases h
  | cons c cs =>
    simp only [munch] at h
    split at h
    · -- a character that is a token of its own
      rename_i solo hsolo
      cases h
      obtain ⟨hspells, hends⟩ := soloLexeme?_spells hsolo
      exact ⟨hspells, fun d _ => hends d⟩
    rename_i hsolo
    split_ifs at h with hcomma hquote hdigit hlong hrange hident
    · subst hcomma
      split at h
      · cases h
        exact ⟨.unquoteSplicing, fun _ _ => rfl⟩
      · rename_i hat
        cases h
        refine ⟨.unquote, fun d hd => ?_⟩
        cases rest with
        | nil => cases hd
        | cons e rest =>
          cases hd
          simp only [Lexeme.goesOn, beq_eq_false_iff_ne]
          rintro rfl
          exact hat rest rfl
    · subst hquote
      split at h
      · rename_i close _ hclose
        cases h
        have hmark := head?_dropWhile (· != '"') cs close (by rw [hclose]; rfl)
        rw [show close = '"' by simpa using hmark]
        exact ⟨.string fun hmem => by simpa using List.mem_takeWhile_imp hmem, fun _ _ => rfl⟩
      · cases h
    · cases h
      have hall : ∀ d ∈ c :: cs.takeWhile isDigit, isDigit d = true := by
        intro d hd
        rcases List.mem_cons.1 hd with rfl | hd
        · exact hdigit
        · exact List.mem_takeWhile_imp hd
      exact ⟨.integer (by simp) hall (numeralValue_eq_ofDigits _) hrange (Nat.not_lt.1 hlong), head?_dropWhile _ _⟩
    · rw [List.takeWhile_cons_of_pos hident, List.dropWhile_cons_of_pos hident] at h
      cases h
      have hall : ∀ d ∈ c :: cs.takeWhile isIdentifierChar, isIdentifierChar d = true := by
        intro d hd
        rcases List.mem_cons.1 hd with rfl | hd
        · exact hident
        · exact List.mem_takeWhile_imp hd
      unfold identifierLexeme
      split
      · rename_i b hb
        have hspells := Spells.boolean (booleanOfName?_eq_some_iff.1 hb)
        rw [String.toList_ofList] at hspells
        exact ⟨hspells, head?_dropWhile _ _⟩
      · rename_i hnone
        have hdot : c ≠ '.' := by
          rintro rfl
          cases hsolo
        exact ⟨.identifier hall (by simpa using hdigit) hdot (booleanOfName?_eq_none_iff.1 hnone), head?_dropWhile _ _⟩

/-- a digit, and an identifier character other than the dot, is no mark with a meaning of its own -/
theorem not_mark {c : Char} (h : isDigit c = true ∨ isIdentifierChar c = true ∧ c ≠ '.') :
    soloLexeme? c = none ∧ c ≠ ',' ∧ c ≠ '"' := by
  have hmark : ∀ d ∈ ['(', ')', '\'', '`', ',', '"', ';'], c ≠ d := by
    rintro d hd rfl
    obtain ⟨hident, hdigit, -⟩ := marks_apart c hd
    simp [hident, hdigit] at h
  have hdot : c ≠ '.' := by
    rintro rfl
    simp [dot_apart.1] at h
  simp only [List.mem_cons, List.not_mem_nil, or_false, forall_eq_or_imp, forall_eq] at hmark
  obtain ⟨h₁, h₂, h₃, h₄, h₅, h₆, -⟩ := hmark
  exact ⟨by simp [soloLexeme?, h₁, h₂, h₃, h₄, hdot], h₅, h₆⟩

theorem munch_word {c : Char} {cs rest : List Char} (hall : ∀ d ∈ c :: cs, isIdentifierChar d = true)
    (hdigit : isDigit c = false) (hdot : c ≠ '.') (hrest : ∀ d ∈ rest.head?, isIdentifierChar d = false) :
    munch (c :: cs ++ rest) = .lexeme (identifierLexeme (String.ofList (c :: cs))) (c :: cs) rest := by
  obtain ⟨hsolo, hcomma, hquote⟩ := not_mark (Or.inr ⟨hall c List.mem_cons_self, hdot⟩)
  obtain ⟨htake, hdrop⟩ := takeWhile_run (fun d hd => hall d (List.mem_cons_of_mem c hd)) hrest
  simp [munch, hsolo, hcomma, hquote, hdigit, hall c List.mem_cons_self, htake, hdrop]

/-- a run of digits that ends where it does is taken whole, converted or not -/
theorem munch_digits {digits rest : List Char} (hne : digits ≠ []) (hdigits : ∀ c ∈ digits, isDigit c = true)
    (hrest : ∀ c ∈ rest.head?, isDigit c = false) :
    munch (digits ++ rest) =
      if maxDigits < digits.length then .fault (.numeralLength digits.length) digits rest
      else if numeralValue digits ≤ maxNumeral then .lexeme (.integer (numeralValue digits)) digits rest
      else .fault (.integerRange (String.ofList digits)) digits rest := by
  obtain ⟨c, cs, rfl⟩ := List.exists_cons_of_ne_nil hne
  obtain ⟨htake, hdrop⟩ := takeWhile_run (fun d hd => hdigits d (List.mem_cons_of_mem c hd)) hrest
  obtain ⟨hsolo, hcomma, hquote⟩ := not_mark (Or.inl (hdigits c List.mem_cons_self))
  simp only [List.cons_append, munch, hsolo, hcomma, hquote, hdigits c List.mem_cons_self, htake, hdrop,
    if_true, if_false]

/-- a lexeme that ends where it does is taken whole -/
theorem Spells.munch_append {run rest : List Char} {lexeme : Lexeme} (h : Spells run lexeme)
    (hrest : Delimited lexeme rest) : munch (run ++ rest) = .lexeme lexeme run rest := by
  cases h with
  | unquote =>
    cases rest with
    | nil => rfl
    | cons c rest =>
      have hc : c ≠ '@' := by simpa [Lexeme.goesOn] using hrest c rfl
      simp [munch, soloLexeme?, hc]
  | @string body hbody =>
    have hrun : ∀ c ∈ body, (c != '"') = true := by
      intro c hc
      simp only [bne_iff_ne]
      rintro rfl
      exact hbody hc
    have hclose : ∀ c ∈ ('"' :: rest).head?, (c != '"') = false := by simp
    obtain ⟨htake, hdrop⟩ := takeWhile_run hrun hclose
    simp [munch, soloLexeme?, htake, hdrop]
  | integer hne hdigits hvalue hrange hshort =>
    have hfits : numeralValue run ≤ maxNumeral := by rwa [numeralValue_eq_ofDigits, ← hvalue]
    rw [munch_digits hne hdigits hrest, if_neg (Nat.not_lt.2 hshort), if_pos hfits, hvalue, ← numeralValue_eq_ofDigits]
  | @boolean name b hname =>
    -- each of the four names is a run of identifier characters
    have hword : ∃ c cs, name.toList = c :: cs ∧ (∀ d ∈ c :: cs, isIdentifierChar d = true) ∧ isDigit c = false ∧
        c ≠ '.' := by
      have hmem := hname
      simp only [booleanNames, List.mem_cons, List.not_mem_nil, Prod.mk.injEq, or_false] at hmem
      rcases hmem with ⟨rfl, -⟩ | ⟨rfl, -⟩ | ⟨rfl, -⟩ | ⟨rfl, -⟩
      all_goals exact ⟨_, _, rfl, List.all_eq_true.1 (by decide), by decide, by decide⟩
    obtain ⟨c, cs, hcs, hall, hdigit, hdot⟩ := hword
    rw [hcs, munch_word hall hdigit hdot hrest, ← hcs, String.ofList_toList, identifierLexeme,
      booleanOfName?_eq_some_iff.2 hname]
  | identifier hall hdigit hdot hname =>
    rw [munch_word hall hdigit hdot hrest, identifierLexeme, booleanOfName?_eq_none_iff.2 hname]
  | _ => rfl

/-- of what is spelled freely, only long numerals are not spelled -/
theorem SpellsFreely.short_or_long {run : List Char} {lexeme : Lexeme} (h : SpellsFreely run lexeme) :
    Spells run lexeme ∨
      maxDigits < run.length ∧ run ≠ [] ∧ (∀ c ∈ run, isDigit c = true) ∧ ∃ n, lexeme = .integer n := by
  cases h with
  | spelled hspells => exact Or.inl hspells
  | integer hne hdigits hvalue hrange =>
    by_cases hlong : maxDigits < run.length
    · exact Or.inr ⟨hlong, hne, hdigits, _, rfl⟩
    · exact Or.inl (.integer hne hdigits hvalue hrange (Nat.not_lt.1 hlong))

/-- the longest lexeme at the start of a text is the one that is spelled there and does not go on -/
theorem munch_eq_lexeme_iff {cs run rest : List Char} {lexeme : Lexeme} :
    munch cs = .lexeme lexeme run rest ↔ cs = run ++ rest ∧ Spells run lexeme ∧ Delimited lexeme rest := by
  constructor
  · intro h
    have hsplit := (munch_split (by rw [h]; rfl : (munch cs).split? = some (run, rest))).2
    exact ⟨hsplit.symm, munch_spells h⟩
  · rintro ⟨rfl, hspells, hrest⟩
    exact hspells.munch_append hrest

theorem munch_eq_finished_iff {cs : List Char} : munch cs = .finished ↔ cs = [] := by
  constructor
  · intro h
    by_contra hne
    obtain ⟨c, cs, rfl⟩ := List.exists_cons_of_ne_nil hne
    simp only [munch] at h
    split at h
    · cases h
    · split_ifs at h
      · split at h <;> cases h
      · split at h <;> cases h
      · split at h <;> cases h
  · rintro rfl
    rfl

/-- what starts like a lexeme and spells none: the characters `run`, with `rest` behind them -/
inductive Misspells : (run rest : List Char) → Cause → Prop
  | openString {body : List Char} : '"' ∉ body → Misspells ('"' :: body) [] .unterminatedString
  | tooLong {digits rest : List Char} : digits ≠ [] → (∀ d ∈ digits, isDigit d = true) →
    (∀ d ∈ rest.head?, isDigit d = false) → maxDigits < digits.length →
    Misspells digits rest (.numeralLength digits.length)
  | tooLarge {digits rest : List Char} : digits ≠ [] → (∀ d ∈ digits, isDigit d = true) →
    (∀ d ∈ rest.head?, isDigit d = false) →
    Nat.pow 2 63 - 1 < Nat.ofDigits 10 (digits.reverse.map fun d => (digitValue? d).getD 0) →
    Misspells digits rest (.integerRange (String.ofList digits))

/-- a fault that is passed over is one of spelling: a token that was begun is not cut short -/
theorem munch_misspells {cs run rest : List Char} {cause : Cause} (h : munch cs = .fault cause run rest) :
    Misspells run rest cause ∧ cs = run ++ rest := by
  have hsplit := (munch_split (by rw [h]; rfl : (munch cs).split? = some (run, rest))).2
  refine ⟨?_, hsplit.symm⟩
  cases cs with
  | nil => cases h
  | cons c cs =>
    simp only [munch] at h
    split at h
    · cases h
    split_ifs at h with hcomma hquote hdigit hlong hrange hident
    · split at h <;> cases h
    · subst hquote
      split at h
      · cases h
      · rename_i hdrop
        cases h
        refine .openString fun hmem => ?_
        have hne := List.mem_takeWhile_imp hmem
        simp at hne
    · cases h
      exact .tooLong (List.cons_ne_nil _ _) (List.forall_mem_cons.2 ⟨hdigit, fun d hd => List.mem_takeWhile_imp hd⟩)
        (head?_dropWhile isDigit cs) hlong
    · cases h
      have hlarge := Nat.lt_of_not_le hrange
      rw [numeralValue_eq_ofDigits] at hlarge
      exact .tooLarge (List.cons_ne_nil _ _) (List.forall_mem_cons.2 ⟨hdigit, fun d hd => List.mem_takeWhile_imp hd⟩)
        (head?_dropWhile isDigit cs) hlarge
    · -- the name has at least the character that was looked at
      split at h <;> rename_i hname
      · simp [hident] at hname
      · cases h

/-! ## Tokens -/

namespace Cursor

/-- induction along a scan: over what comes next behind the gap -/
@[elab_as_elim]
theorem scanInduct {motive : Cursor → Prop}
    (lexeme : ∀ c lexeme run rest, munch c.skipTrivia.rest = .lexeme lexeme run rest →
      motive (c.skipTrivia.pass run rest) → motive c)
    (fault : ∀ c cause run rest, munch c.skipTrivia.rest = .fault cause run rest →
      motive (c.skipTrivia.pass run rest) → motive c)
    (stuck : ∀ c ch, munch c.skipTrivia.rest = .stuck ch → motive c)
    (finished : ∀ c, munch c.skipTrivia.rest = .finished → motive c) (c : Cursor) : motive c :=
  feed.induct motive lexeme fault stuck finished c

/-- a token in front of those behind it, if a lexeme comes next -/
theorem drain_lexeme {c : Cursor} {lexeme : Lexeme} {run rest : List Char}
    (h : munch c.skipTrivia.rest = .lexeme lexeme run rest) :
    c.drain.1 = (c.skipTrivia.pass run rest).drain.1.map (⟨lexeme, c.skipTrivia.pos⟩ :: ·) := by
  rw [drain]
  split <;> simp_all

theorem drain_finished {c : Cursor} (h : munch c.skipTrivia.rest = .finished) : c.drain.1 = .ok [] := by
  rw [drain]
  split <;> simp_all

theorem drain_fault {c : Cursor} {cause : Cause} {run rest : List Char}
    (h : munch c.skipTrivia.rest = .fault cause run rest) : c.drain.1 = .error (.ofToken cause c.skipTrivia.pos) := by
  rw [drain]
  split <;> simp_all

theorem drain_stuck {c : Cursor} {ch : Char} (h : munch c.skipTrivia.rest = .stuck ch) :
    c.drain.1 = .error (.atPos (.invalidCharacter (some ch.toString)) c.skipTrivia.pos) := by
  rw [drain]
  split <;> simp_all

theorem skipTrivia_eq {c : Cursor} {gap rest : List Char} (h : splitTrivia false c.rest = (gap, rest)) :
    c.skipTrivia = c.pass gap rest := by
  rw [skipTrivia, h]

/-- the place in front of the next token -/
theorem skipTrivia_pos {c : Cursor} {before gap rest : List Char} (hpos : c.pos = placeAfter before)
    (h : splitTrivia false c.rest = (gap, rest)) : c.skipTrivia.pos = placeAfter (before ++ gap) := by
  rw [skipTrivia_eq h, pass, hpos, ← start_after, ← Pos.after_append, start_after]

theorem pass_pos {c : Cursor} {before run : List Char} (hpos : c.pos = placeAfter before) (rest : List Char) :
    (c.pass run rest).pos = placeAfter (before ++ run) := by
  rw [pass, hpos, ← start_after, ← Pos.after_append, start_after]

/-- what the scan yields tiles the text that was left, which comes behind `before` -/
theorem tiles_of_drain {c : Cursor} {before : List Char} {ts : List Token} (hpos : c.pos = placeAfter before)
    (h : c.drain.1 = .ok ts) : Tiles Spells before c.rest ts := by
  induction c using scanInduct generalizing before ts with
  | lexeme c lexeme run rest hmunch ih =>
    obtain ⟨gap, behind, hsplit⟩ : ∃ gap behind, splitTrivia false c.rest = (gap, behind) := ⟨_, _, rfl⟩
    obtain ⟨hrest, hgap⟩ := splitTrivia_eq_iff.1 hsplit
    have hstart := skipTrivia_pos hpos hsplit
    obtain ⟨hbehind, hspells, hends⟩ := munch_eq_lexeme_iff.1 hmunch
    rw [skipTrivia_eq hsplit, pass] at hbehind
    have hclosed : Gap gap := by
      rcases hgap with ⟨-, hnil⟩ | ⟨hgap, -⟩
      · obtain ⟨d, ds, hrun, -⟩ := hspells.head
        rw [hnil, hrun] at hbehind
        cases hbehind
      · exact hgap
    rw [drain_lexeme hmunch] at h
    obtain ⟨ts', hts', rfl⟩ := except_map_eq_ok.1 h
    have htiles := Tiles.token hclosed hspells hends (ih (pass_pos hstart rest) hts')
    rwa [List.append_assoc, ← hbehind, ← hrest, ← hstart] at htiles
  | fault c cause run rest hmunch _ =>
    rw [drain_fault hmunch] at h
    cases h
  | stuck c ch hmunch =>
    rw [drain_stuck hmunch] at h
    cases h
  | finished c hmunch =>
    rw [drain_finished hmunch] at h
    cases h
    obtain ⟨gap, behind, hsplit⟩ : ∃ gap behind, splitTrivia false c.rest = (gap, behind) := ⟨_, _, rfl⟩
    obtain ⟨hrest, hgap⟩ := splitTrivia_eq_iff.1 hsplit
    have hnil : behind = [] := by
      rw [skipTrivia_eq hsplit] at hmunch
      exact munch_eq_finished_iff.1 hmunch
    rcases hgap with ⟨hgap, -⟩ | ⟨-, d, ds, hcons, -⟩
    · rw [hrest, hnil, List.append_nil]
      exact .finished hgap
    · rw [hnil] at hcons
      cases hcons

/-- the cursor in front of a token, behind the gap before it -/
theorem skipTrivia_gap {c : Cursor} {before gap run rest : List Char} (hpos : c.pos = placeAfter before)
    (hrest : c.rest = gap ++ run ++ rest) (hgap : Gap gap) (hrun : ∃ d ds, run = d :: ds ∧ startsGap d = false) :
    c.skipTrivia.rest = run ++ rest ∧ c.skipTrivia.pos = placeAfter (before ++ gap) := by
  obtain ⟨d, ds, hds, hd⟩ := hrun
  have hsplit : splitTrivia false c.rest = (gap, run ++ rest) :=
    splitTrivia_eq_iff.2 ⟨by rw [hrest, List.append_assoc], Or.inr ⟨hgap, d, ds ++ rest, by rw [hds]; rfl, hd⟩⟩
  exact ⟨by rw [skipTrivia_eq hsplit]; rfl, skipTrivia_pos hpos hsplit⟩

theorem drain_of_finalGap {c : Cursor} (h : FinalGap c.rest) : c.drain.1 = .ok [] := by
  have hsplit : splitTrivia false c.rest = (c.rest, []) :=
    splitTrivia_eq_iff.2 ⟨(List.append_nil _).symm, Or.inl ⟨h, rfl⟩⟩
  exact drain_finished (by rw [skipTrivia_eq hsplit]; rfl)

/-- a token that is spelled behind a gap is scanned, and then the rest -/
theorem drain_of_token {c : Cursor} {before gap run rest : List Char} {lexeme : Lexeme}
    (hpos : c.pos = placeAfter before)
    (hrest : c.rest = gap ++ run ++ rest) (hgap : Gap gap) (hspells : Spells run lexeme)
    (hends : Delimited lexeme rest) :
    ∃ next : Cursor, next.pos = placeAfter (before ++ gap ++ run) ∧ next.rest = rest ∧
      c.drain.1 = next.drain.1.map (⟨lexeme, placeAfter (before ++ gap)⟩ :: ·) := by
  obtain ⟨hbehind, hstart⟩ := skipTrivia_gap hpos hrest hgap hspells.head
  have hmunch : munch c.skipTrivia.rest = .lexeme lexeme run rest := by
    rw [hbehind]
    exact hspells.munch_append hends
  exact ⟨c.skipTrivia.pass run rest, pass_pos hstart rest, rfl, hstart ▸ drain_lexeme hmunch⟩

/-- a text that is tiled is scanned into those tokens -/
theorem drain_of_tiles {c : Cursor} {before : List Char} {ts : List Token} (hpos : c.pos = placeAfter before)
    (h : Tiles Spells before c.rest ts) : c.drain.1 = .ok ts := by
  obtain ⟨text, htext⟩ : ∃ text, c.rest = text := ⟨_, rfl⟩
  rw [htext] at h
  induction h generalizing c with
  | finished hgap => exact drain_of_finalGap (htext ▸ hgap)
  | token hgap hspells hends _ ih =>
    obtain ⟨next, hnext, hleft, hdrain⟩ := drain_of_token hpos htext hgap hspells hends
    rw [hdrain, ih hnext hleft]
    rfl

/-- a text that is tiled, with numerals of any length, is scanned into those tokens unless it has a numeral that is too
long -/
theorem drain_of_tilesFreely {c : Cursor} {before : List Char} {ts : List Token} (hpos : c.pos = placeAfter before)
    (h : Tiles SpellsFreely before c.rest ts) :
    c.drain.1 = .ok ts ∨ ∃ count, maxDigits < count ∧ c.drain.1 = .error (.broken (.numeralLength count)) := by
  obtain ⟨text, htext⟩ : ∃ text, c.rest = text := ⟨_, rfl⟩
  rw [htext] at h
  induction h generalizing c with
  | finished hgap => exact Or.inl (drain_of_finalGap (htext ▸ hgap))
  | @token before gap run rest lexeme ts hgap hspells hends _ ih =>
    rcases hspells.short_or_long with hspells | ⟨hlong, hne, hdigits, n, rfl⟩
    · obtain ⟨next, hnext, hleft, hdrain⟩ := drain_of_token hpos htext hgap hspells hends
      rw [hdrain]
      rcases ih hnext hleft with hok | ⟨count, hcount, herror⟩
      · exact Or.inl (by rw [hok]; rfl)
      · exact Or.inr ⟨count, hcount, by rw [herror]; rfl⟩
    · obtain ⟨hbehind, -⟩ := skipTrivia_gap hpos htext hgap (digits_head hne hdigits)
      have hmunch : munch c.skipTrivia.rest = .fault (.numeralLength run.length) run rest := by
        rw [hbehind, munch_digits hne hdigits hends, if_pos hlong]
      exact Or.inr ⟨run.length, hlong, drain_fault hmunch⟩

end Cursor

theorem tokens_eq_ok_drain {text : String} {ts : List Token} :
    tokens text = .ok ts ↔ (Cursor.ofText text).drain.1 = .ok ts := by
  unfold tokens
  cases (Cursor.ofText text).drain.1 <;> simp [Except.mapError]

/-- a text that is one lexeme -/
theorem Tiles.single {S : List Char → Lexeme → Prop} {run : List Char} {lexeme : Lexeme} (h : S run lexeme) :
    Tiles S [] run [⟨lexeme, .start⟩] := by
  have htoken : Tiles S [] ([] ++ run ++ []) [⟨lexeme, placeAfter ([] ++ [])⟩] :=
    .token .nil h (by simp [Delimited]) (.finished (.closed .nil))
  rwa [List.nil_append, List.append_nil] at htoken

/-- the scan of a text that is one numeral breaks down if it has too many digits -/
theorem tokens_of_longNumeral {digits : List Char} (hne : digits ≠ []) (hdigits : ∀ c ∈ digits, isDigit c = true)
    (hlong : maxDigits < digits.length) :
    tokens (String.ofList digits) = .error (.broken (.numeralLength digits.length)) := by
  let c := Cursor.ofText (String.ofList digits)
  have hrest : c.rest = [] ++ digits ++ [] := by
    rw [List.nil_append, List.append_nil]
    exact String.toList_ofList
  have hpos : c.pos = placeAfter [] := rfl
  obtain ⟨hbehind, -⟩ := Cursor.skipTrivia_gap hpos hrest .nil (digits_head hne hdigits)
  have hmunch : munch c.skipTrivia.rest = .fault (.numeralLength digits.length) digits [] := by
    rw [hbehind, munch_digits hne hdigits (by simp), if_pos hlong]
  rw [tokens, Cursor.drain_fault hmunch]
  rfl

theorem isDigit_of_mem_zeros {n : Nat} : ∀ c ∈ List.replicate n '0', isDigit c = true := by
  intro c hc
  rw [List.eq_of_mem_replicate hc]
  decide

/-- zero may be written with many digits -/
theorem zeros_spelled {n : Nat} (hn : n ≠ 0) : SpellsFreely (List.replicate n '0') (.integer 0) := by
  have hzero : (digitValue? '0').getD 0 = 0 := by decide
  have hvalue : Nat.ofDigits 10 ((List.replicate n '0').reverse.map fun c => (digitValue? c).getD 0) = 0 := by
    rw [List.reverse_replicate, List.map_replicate, hzero]
    simp
  exact .integer (by simpa using hn) isDigit_of_mem_zeros hvalue.symm (Nat.zero_le _)

/-- **The tokens of a text tile it, by longest match.** A text has the tokens `ts` if and only if it is made of gaps
and of the spelled lexemes of `ts`, none of which goes on in the characters behind it, with each token at its place; a
numeral has at most `maxDigits` digits. A text that is so made of the lexemes of `ts` with numerals of any length has
the tokens `ts`, or the scan breaks down at a numeral that is longer. -/
theorem tokens_tile (text : String) :
    (∀ ts, tokens text = .ok ts ↔ Tiles Spells [] text.toList ts) ∧
    ∀ ts, Tiles SpellsFreely [] text.toList ts →
      tokens text = .ok ts ∨ ∃ count, maxDigits < count ∧ tokens text = .error (.broken (.numeralLength count)) := by
  have hstart : (Cursor.ofText text).pos = placeAfter [] := rfl
  refine ⟨fun ts => ?_, fun ts h => ?_⟩
  · rw [tokens_eq_ok_drain]
    exact ⟨Cursor.tiles_of_drain hstart, Cursor.drain_of_tiles hstart⟩
  · rcases Cursor.drain_of_tilesFreely (c := .ofText text) hstart h with hok | ⟨count, hcount, herror⟩
    · exact Or.inl (tokens_eq_ok_drain.2 hok)
    · refine Or.inr ⟨count, hcount, ?_⟩
      rw [tokens, herror]
      rfl

/-- a numeral may have as many digits as are converted -/
theorem longestNumeral_scanned :
    Tiles SpellsFreely [] (String.ofList (List.replicate 4300 '0')).toList [⟨.integer 0, .start⟩] ∧
      tokens (String.ofList (List.replicate 4300 '0')) = .ok [⟨.integer 0, .start⟩] := by
  obtain ⟨hiff, hfreely⟩ := tokens_tile (String.ofList (List.replicate 4300 '0'))
  rw [String.toList_ofList] at hiff hfreely ⊢
  have hfree := zeros_spelled (n := 4300) (by decide)
  refine ⟨.single hfree, ?_⟩
  rcases hfreely _ (.single hfree) with hok | ⟨count, -, herror⟩
  · exact hok
  · rcases hfree.short_or_long with hspells | ⟨hlong, -⟩
    · rw [(hiff _).2 (.single hspells)] at herror
      cases herror
    · rw [List.length_replicate] at hlong
      exact absurd hlong (by decide)

/-- one digit more and the scan breaks down, even though the number is zero -/
theorem longNumeral_breaks :
    Tiles SpellsFreely [] (String.ofList (List.replicate 4301 '0')).toList [⟨.integer 0, .start⟩] ∧
      tokens (String.ofList (List.replicate 4301 '0')) = .error (.broken (.numeralLength 4301)) := by
  have hlength : (List.replicate 4301 '0').length = 4301 := List.length_replicate
  have hne : List.replicate 4301 '0' ≠ [] := List.ne_nil_of_length_eq_add_one hlength
  have hbreaks := tokens_of_longNumeral hne isDigit_of_mem_zeros (by rw [hlength]; decide)
  rw [hlength] at hbreaks
  rw [String.toList_ofList]
  exact ⟨.single (zeros_spelled (by decide)), hbreaks⟩

end SchemeStack
