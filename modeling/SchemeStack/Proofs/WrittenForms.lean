/-
Which data are read back from their written form: all but those with one of two kinds of list inside.

A sigil is written in front of its operand with nothing between them, so a comma runs into a symbol that starts with
an at sign, and a dot behind a sigil is no operand. `Misread` are the two-element lists to which this happens,
`SubForm` are the forms inside a form: a list has its elements, at any depth, but not the ends of its chain.

`readText_print_iff`: a form that was read from some text is read back from its written form, and nothing else with
it, if and only if none of its sub-forms is misread.

Both directions are one equivalence, `WritesForm`, which holds whatever characters came before and whatever tokens are
asked for behind: the text goes on with the tokens of some derivation of the datum exactly if the datum has no misread
sub-form. It is shown for atoms (`writesForm_atom`), carried over a sigil (`readsForm_sigil`) and along the elements
of a list (`readsElements_rest`), and holds of all data by induction over elements (`writesForm`). A datum that the
reader makes is `Readable`: its numbers, names and texts are those of tokens.
-/
import Mathlib.Data.List.Basic
import SchemeStack.Datum.Printer
import SchemeStack.Proofs.ReaderGrammar

namespace SchemeStack

open SchemeStack.Source SchemeStack.Text

/-! ## The front of a text -/

section Front

variable {before run rest : List Char} {lexeme : Lexeme} {ts : List Token}

/-- where a lexeme is spelled and does not go on, the first token is that lexeme -/
theorem tiles_token (hspells : Spells run lexeme) (hends : Delimited lexeme rest) :
    Tiles Spells before (run ++ rest) ts ↔ ∃ ts', ts = ⟨lexeme, placeAfter before⟩ :: ts' ∧
      Tiles Spells (before ++ run) rest ts' := by
  constructor
  · intro h
    let c : Cursor := ⟨run ++ rest, 0, placeAfter before⟩
    have hdrain : c.drain.1 = .ok ts := Cursor.drain_of_tiles rfl h
    obtain ⟨d, ds, hrun, hd⟩ := hspells.head
    have hsplit : splitTrivia false c.rest = ([], run ++ rest) :=
      splitTrivia_eq_iff.2 ⟨rfl, Or.inr ⟨.nil, d, ds ++ rest, by rw [hrun]; rfl, hd⟩⟩
    have hmunch : munch c.skipTrivia.rest = .lexeme lexeme run rest := by
      rw [Cursor.skipTrivia_eq hsplit]
      exact hspells.munch_append hends
    have hstart : c.skipTrivia.pos = placeAfter before := by
      have hpos := Cursor.skipTrivia_pos (c := c) rfl hsplit
      rwa [List.append_nil] at hpos
    rw [Cursor.drain_lexeme hmunch, hstart] at hdrain
    obtain ⟨ts', hts', rfl⟩ := except_map_eq_ok.1 hdrain
    exact ⟨ts', rfl, Cursor.tiles_of_drain (Cursor.pass_pos hstart rest) hts'⟩
  · intro h
    obtain ⟨ts', hts, h⟩ := h
    have htoken : Tiles Spells before ([] ++ run ++ rest) (⟨lexeme, placeAfter (before ++ [])⟩ :: ts') :=
      .token .nil hspells hends (by rwa [List.append_nil])
    rwa [List.append_nil, List.nil_append, ← hts] at htoken

/-- a blank makes no token -/
theorem tiles_blank {c : Char} (hc : isBlank c = true) :
    Tiles Spells before (c :: rest) ts ↔ Tiles Spells (before ++ [c]) rest ts := by
  let front : Cursor := ⟨c :: rest, 0, placeAfter before⟩
  let behind : Cursor := front.pass [c] rest
  have hgap : splitTrivia false front.rest = (c :: (splitTrivia false rest).1, (splitTrivia false rest).2) :=
    (Gap.blank hc .nil).splitTrivia_append rest
  have hskip : front.skipTrivia = behind.skipTrivia := by
    rw [Cursor.skipTrivia_eq hgap, Cursor.skipTrivia_eq (c := behind) rfl]
    simp only [behind, Cursor.pass, Pos.after_cons, Pos.after_nil, List.length_cons, List.length_nil, Cursor.mk.injEq]
    exact ⟨trivial, by omega, trivial⟩
  have hdrain : front.drain.1 = behind.drain.1 := by
    rw [Cursor.drain, Cursor.drain, hskip]
  have hpos : behind.pos = placeAfter (before ++ [c]) := Cursor.pass_pos (c := front) rfl rest
  constructor
  · intro h
    have h' : front.drain.1 = .ok ts := Cursor.drain_of_tiles rfl h
    exact Cursor.tiles_of_drain (c := behind) hpos (hdrain ▸ h')
  · intro h
    have h' : behind.drain.1 = .ok ts := Cursor.drain_of_tiles hpos h
    exact Cursor.tiles_of_drain (c := front) rfl (hdrain.trans h')

theorem Spells.ne_nil (h : Spells run lexeme) : run ≠ [] := by
  obtain ⟨c, cs, hrun, -⟩ := h.head
  rw [hrun]
  exact List.cons_ne_nil c cs

end Front

namespace Datum

/-! ## Sub-forms -/

/-- a form inside another: the form itself, or a form inside an element of a list -/
inductive SubForm (x : Datum) : Datum → Prop
  | self : SubForm x x
  | element {e d : Datum} : e ∈ d.elements → SubForm x e → SubForm x d

/-- a two-element list whose written form is not read as that list -/
inductive Misread : Datum → Prop
  /-- the comma and the at sign are one sigil -/
  | splice {name : String} {m₁ m₂ m₃ m₄ : Mark} : name.toList.head? = some '@' →
    Misread (pair (kw .unquote m₁) (pair (sym name m₂) nil m₃) m₄)
  /-- no sigil has a dot for its operand -/
  | dot {word : Keyword} {m₁ m₂ m₃ m₄ : Mark} : word ∈ [.quote, .quasiquote, .unquote, .unquoteSplicing] →
    Misread (pair (kw word m₁) (pair (kw .dot m₂) nil m₃) m₄)

/-- no form inside the datum is misread -/
def Faithful (d : Datum) : Prop := ∀ x, SubForm x d → ¬ Misread x

theorem faithful_iff {d : Datum} : d.Faithful ↔ ¬ Misread d ∧ ∀ e ∈ d.elements, e.Faithful := by
  constructor
  · intro h
    exact ⟨h d .self, fun e he x hx => h x (.element he hx)⟩
  · intro h x hx
    cases hx with
    | self => exact h.1
    | element he hx => exact h.2 _ he x hx

/-- induction over the elements of lists -/
theorem elementsInduct {motive : Datum → Prop} (h : ∀ d, (∀ e ∈ d.elements, motive e) → motive d) (d : Datum) :
    motive d := by
  suffices hboth : motive d ∧ ∀ e ∈ d.elements, motive e from hboth.1
  induction d with
  | pair head tail m ihhead ihtail =>
    have helements : ∀ e ∈ (pair head tail m).elements, motive e := List.forall_mem_cons.2 ⟨ihhead.1, ihtail.2⟩
    exact ⟨h _ helements, helements⟩
  | _ => exact ⟨h _ nofun, nofun⟩

/-! ## Bare data -/

theorem bare_withMark (m : Mark) (d : Datum) : (d.withMark m).bare = d.bare := by
  cases d <;> rfl

theorem bare_ofList (es : List Datum) : (ofList es).bare = ofList (es.map bare) := by
  induction es with
  | nil => rfl
  | cons e es ih => exact congrArg (pair e.bare · .unknown) ih

theorem elements_ofList (es : List Datum) : (ofList es).elements = es := by
  induction es with
  | nil => rfl
  | cons e es ih => exact congrArg (e :: ·) ih

theorem ofList_injective : Function.Injective ofList := by
  intro es es' h
  rw [← elements_ofList es, h, elements_ofList]

theorem bare_of_isProper {d : Datum} (h : d.isProper = true) : d.bare = ofList (d.elements.map bare) := by
  induction d with
  | nil => rfl
  | pair head tail m _ ih => exact congrArg (pair head.bare · .unknown) (ih h)
  | _ => cases h

theorem isList_bare (d : Datum) : d.bare.isList = d.isList := by
  cases d <;> rfl

theorem isDot_bare (d : Datum) : d.bare.isDot = d.isDot := by
  cases d with
  | kw word m => cases word <;> rfl
  | _ => rfl

end Datum

/-- the marks apart, a list form is the list of its elements -/
theorem Form.bare_list (start : Pos) (es : Elements) (stop : Pos) :
    (Form.list start es stop).datum.bare = .ofList (es.data.map Datum.bare) := by
  rw [Form.datum, Datum.bare_withMark, Datum.bare_ofList]

theorem Form.bare_sigil (s : Sigil) (pos : Pos) (operand : Form) :
    (Form.sigil s pos operand).datum.bare = .ofList [.kw s.word .unknown, operand.datum.bare] := by
  rw [Form.datum, Datum.bare_withMark, Datum.bare_ofList]
  rfl

theorem Atom.isList_datum (a : Atom) (m : Mark) : (a.datum m).isList = false := by
  cases a with
  | identifier name =>
    simp only [Atom.datum, Datum.ofIdentifier]
    split
    · rfl
    · rfl
  | _ => rfl

/-- no keyword that an identifier spells is the dot -/
theorem Keyword.ofName?_ne_dot (name : String) : Keyword.ofName? name ≠ some .dot := by
  unfold Keyword.ofName?
  split
  · nofun
  · intro h
    have hmem := List.mem_of_find?_eq_some h
    simp [Keyword.words] at hmem

/-- no form stands for the dot -/
theorem Form.isDot_datum (f : Form) : f.datum.isDot = false := by
  cases f with
  | atom a pos =>
    cases a with
    | identifier name =>
      simp only [Form.datum, Atom.datum, Datum.ofIdentifier]
      split
      · rename_i word hword
        cases word with
        | dot => exact absurd hword (Keyword.ofName?_ne_dot name)
        | _ => rfl
      · rfl
    | _ => rfl
  | list start es stop =>
    rw [← Datum.isDot_bare, Form.bare_list]
    cases es.data <;> rfl
  | sigil s pos operand => rfl

/-! ## What a text is read as -/

/-- the text begins with a form that stands for the datum, and the tokens follow -/
def ReadsForm (d : Datum) (before text : List Char) (ts : List Token) : Prop :=
  ∃ f : Form, f.datum.bare = d.bare ∧ Tiles Spells before text (f.tokens ++ ts)

/-- the text begins with elements that stand for the data, and the tokens follow -/
def ReadsElements (ds : List Datum) (before text : List Char) (ts : List Token) : Prop :=
  ∃ es : Elements, es.data.map Datum.bare = ds.map Datum.bare ∧ Tiles Spells before text (es.tokens ++ ts)

section Reads

variable {d x : Datum} {before run text : List Char} {ts : List Token}

theorem readsForm_atom {a : Atom} (hd : d.isList = false) (ha : ∀ m, (a.datum m).bare = d.bare)
    (hspells : Spells run a.lexeme) (hends : Delimited a.lexeme text) :
    ReadsForm d before (run ++ text) ts ↔ Tiles Spells (before ++ run) text ts := by
  constructor
  · intro h
    obtain ⟨f, hf, h⟩ := h
    obtain ⟨ts', hts, htext⟩ := (tiles_token hspells hends).1 h
    cases f with
    | atom a' pos =>
      rw [Form.tokens, List.singleton_append] at hts
      rwa [(List.cons.inj hts).2]
    | list start es stop =>
      rw [← Datum.isList_bare, ← hf, Form.bare_list] at hd
      cases hes : es.data.map Datum.bare with
      | nil =>
        rw [hes] at hd
        cases hd
      | cons e es' =>
        rw [hes] at hd
        cases hd
    | sigil s pos operand =>
      rw [← Datum.isList_bare, ← hf, Form.bare_sigil] at hd
      cases hd
  · intro h
    exact ⟨.atom a (placeAfter before), ha _, (tiles_token hspells hends).2 ⟨ts, rfl, h⟩⟩

/-- behind a sigil that does not go on, its operand is read -/
theorem readsForm_sigil {s : Sigil} {m₁ m₂ m₃ : Mark} (hspells : Spells run s.lexeme)
    (hends : Delimited s.lexeme text) :
    ReadsForm (.pair (.kw s.word m₁) (.pair x .nil m₂) m₃) before (run ++ text) ts ↔
      ReadsForm x (before ++ run) text ts := by
  constructor
  · intro h
    obtain ⟨f, hf, h⟩ := h
    obtain ⟨ts', hts, htext⟩ := (tiles_token hspells hends).1 h
    cases f with
    | atom a pos =>
      have hlist := a.isList_datum pos.mark
      rw [← Datum.isList_bare, ← Form.datum, hf] at hlist
      cases hlist
    | list start es stop =>
      rw [Form.tokens, List.cons_append] at hts
      exact absurd (congrArg Token.lexeme (List.cons.inj hts).1).symm s.lexeme_ne_leftParen
    | sigil s' pos operand =>
      rw [Form.tokens, List.cons_append] at hts
      rw [Form.bare_sigil] at hf
      have helements : [.kw s'.word .unknown, operand.datum.bare] = [.kw s.word .unknown, x.bare] :=
        Datum.ofList_injective hf
      refine ⟨operand, (List.cons.inj (List.cons.inj helements).2).1, ?_⟩
      rwa [(List.cons.inj hts).2]
  · intro h
    obtain ⟨f, hf, h⟩ := h
    refine ⟨.sigil s (placeAfter before) f, ?_, (tiles_token hspells hends).2 ⟨f.tokens ++ ts, rfl, h⟩⟩
    rw [Form.bare_sigil, hf]
    rfl

/-- behind an open parenthesis, elements and the close parenthesis are read -/
theorem readsForm_list (hd : d.isProper = true) :
    ReadsForm d before ('(' :: text) ts ↔
      ∃ stop, ReadsElements d.elements (before ++ ['(']) text (⟨.rightParen, stop⟩ :: ts) := by
  have hopen : Delimited .leftParen text := fun _ _ => rfl
  constructor
  · intro h
    obtain ⟨f, hf, h⟩ := h
    obtain ⟨ts', hts, htext⟩ := (tiles_token .leftParen hopen).1 h
    rw [Datum.bare_of_isProper hd] at hf
    cases f with
    | atom a pos =>
      exact absurd (congrArg Token.lexeme (List.cons.inj hts).1) a.lexeme_ne_leftParen
    | list start es stop =>
      rw [Form.bare_list] at hf
      refine ⟨stop, es, Datum.ofList_injective hf, ?_⟩
      rw [Form.tokens, List.cons_append, List.append_assoc] at hts
      rwa [← (List.cons.inj hts).2] at htext
    | sigil s pos operand =>
      exact absurd (congrArg Token.lexeme (List.cons.inj hts).1) s.lexeme_ne_leftParen
  · intro h
    obtain ⟨stop, es, hes, h⟩ := h
    refine ⟨.list (placeAfter before) es stop, ?_, (tiles_token .leftParen hopen).2 ⟨_, ?_, h⟩⟩
    · rw [Form.bare_list, Datum.bare_of_isProper hd, hes]
    · rw [Form.tokens, List.cons_append, List.append_assoc]
      rfl

theorem readsElements_nil : ReadsElements [] before text ts ↔ Tiles Spells before text ts := by
  constructor
  · intro h
    obtain ⟨es, hes, h⟩ := h
    cases es with
    | nil => exact h
    | form f others => cases hes
    | dot pos others => cases hes
  · intro h
    exact ⟨.nil, rfl, h⟩

end Reads

/-! ## Written forms -/

/-- what may stand behind a written form: nothing, a space or a close parenthesis -/
def Ends (rest : List Char) : Prop := ∀ c ∈ rest.head?, c = ' ' ∨ c = ')'

theorem Ends.delimited {rest : List Char} (h : Ends rest) (lexeme : Lexeme) : Delimited lexeme rest := by
  intro c hc
  rcases h c hc with rfl | rfl
  · cases lexeme <;> rfl
  · cases lexeme <;> rfl

/-- the written form is read back exactly if no sub-form is misread, whatever stands around it -/
def WritesForm (d : Datum) : Prop :=
  ∀ before rest ts, Ends rest →
    (ReadsForm d before (d.print.toList ++ rest) ts ↔ d.Faithful ∧ Tiles Spells (before ++ d.print.toList) rest ts)

namespace Datum

theorem faithful_of_elements {d : Datum} (h : d.elements = []) : d.Faithful := by
  refine faithful_iff.2 ⟨fun hd => ?_, fun e he => ?_⟩
  · cases hd <;> cases h
  · rw [h] at he
    cases he

/-- a two-element list whose head has a sigil -/
theorem print_sigil {word : Keyword} {sigil : String} (h : word.sigil? = some sigil) (m₁ m₂ m₃ : Mark) (x : Datum) :
    (pair (kw word m₁) (pair x nil m₂) m₃).print = sigil ++ x.print := by
  rw [print, h]

theorem printTail_started {tail : Datum} (h : tail.isProper = true) :
    (tail.printTail true).toList = tail.elements.flatMap fun e => ' ' :: e.print.toList := by
  induction tail with
  | nil => rfl
  | pair head tail m _ ih =>
    rw [printTail, elements, List.flatMap_cons, ← ih h]
    simp
  | _ => cases h

/-- any other list that is not empty -/
theorem print_list {head tail : Datum} (hhead : head.print ≠ "") (htail : tail.isProper = true) (m : Mark)
    (hplain : ∀ word m₁ x m₂, head = kw word m₁ → tail = pair x nil m₂ → word.sigil? = none) :
    (pair head tail m).print.toList =
      '(' :: (head.print.toList ++ (tail.elements.flatMap (fun e => ' ' :: e.print.toList) ++ [')'])) := by
  have hprint : (pair head tail m).print = "(" ++ head.print ++ tail.printTail true ++ ")" := by
    by_cases htwo : ∃ word m₁ x m₂, head = kw word m₁ ∧ tail = pair x nil m₂
    · obtain ⟨word, m₁, x, m₂, rfl, rfl⟩ := htwo
      rw [print, hplain word m₁ x m₂ rfl rfl]
      simp [print, printTail, atomText, String.append_assoc]
    · have hstarted : (head.print != "") = true := by simpa using hhead
      rw [print]
      · rw [hstarted]
      · intro word m₁ x m₂ hword hx
        exact htwo ⟨word, m₁, x, m₂, hword, hx⟩
  rw [hprint, ← printTail_started htail]
  simp

/-! ## Data that are read -/

/-- the numbers, names and texts of the datum are those of tokens, and its lists are proper -/
def Readable : Datum → Prop
  | bool _ _ => True
  | int n _ => ∃ k : Nat, n = k ∧ k ≤ Nat.pow 2 63 - 1
  | str text _ => '"' ∉ text.toList
  | sym name _ => Spells name.toList (.identifier name) ∧ Keyword.ofName? name = none
  | kw _ _ => True
  | nil => True
  | pair head tail _ => head.Readable ∧ tail.isProper = true ∧ tail.Readable

theorem Readable.element {d e : Datum} (h : d.Readable) (he : e ∈ d.elements) : e.Readable := by
  induction d with
  | pair head tail m _ ih =>
    rcases List.mem_cons.1 he with rfl | he
    · exact h.1
    · exact ih h.2.2 he
  | _ => cases he

theorem readable_ofList {es : List Datum} (h : ∀ e ∈ es, e.Readable) : (ofList es).Readable := by
  induction es with
  | nil => trivial
  | cons e es ih =>
    obtain ⟨he, hes⟩ := List.forall_mem_cons.1 h
    have hproper : (ofList es).isProper = true := by
      clear ih h hes
      induction es with
      | nil => rfl
      | cons e' es' ih' => exact ih'
    exact ⟨he, hproper, ih hes⟩

theorem readable_withMark (m : Mark) {d : Datum} (h : d.Readable) : (d.withMark m).Readable := by
  cases d <;> exact h

theorem digitValue?_of_isDigit {c : Char} (h : c.isDigit = true) : digitValue? c = some (c.toNat - '0'.toNat) := by
  simp only [Char.isDigit, Bool.and_eq_true, decide_eq_true_eq] at h
  have hge : 48 ≤ c.toNat := h.1
  have hle : c.toNat ≤ 57 := h.2
  have hzero : '0'.toNat = 48 := rfl
  rw [digitValue?, digitZeros, digitValueFrom, if_neg (by omega), if_pos (by omega), hzero]

/-- a decimal numeral spells its number -/
theorem spells_numeral {n : Nat} (h : n ≤ Nat.pow 2 63 - 1) : Spells (toString n).toList (.integer n) := by
  have hdigit : ∀ c ∈ Nat.toDigits 10 n, digitValue? c = some (c.toNat - '0'.toNat) := by
    intro c hc
    exact digitValue?_of_isDigit (Nat.isDigit_of_mem_toDigits (by omega) (by omega) hc)
  have hvalue : numeralValue (Nat.toDigits 10 n) = n := by
    calc numeralValue (Nat.toDigits 10 n)
        = Nat.ofDigitChars 10 (Nat.toDigits 10 n) 0 := by
          apply List.foldl_ext
          intro k c hc
          rw [hdigit c hc, Option.getD_some]
      _ = n := Nat.ofDigitChars_toDigits (by omega) (by omega)
  have hshort : (Nat.toDigits 10 n).length ≤ 19 :=
    Nat.toDigits_length 10 n 19 (by decide) (Nat.lt_of_le_of_lt h (by decide))
  rw [Nat.toString_eq_ofList_toDigits, String.toList_ofList]
  refine .integer Nat.toDigits_ne_nil (fun c hc => ?_) ?_ h (Nat.le_trans hshort (by decide))
  · rw [isDigit, hdigit c hc]
    rfl
  · rw [← numeralValue_eq_ofDigits, hvalue]

/-- a keyword other than the dot is spelled by an identifier, and read back from it -/
theorem spells_keyword {word : Keyword} (h : word ≠ .dot) :
    Spells word.name.toList (.identifier word.name) ∧ Keyword.ofName? word.name = some word := by
  have hspells : ∀ name : String, ∀ c cs, name.toList = c :: cs → (c :: cs).all isIdentifierChar = true →
    isDigit c = false → c ≠ '.' → name ∉ booleanNames.map Prod.fst → Spells name.toList (.identifier name) := by
    intro name c cs hname hall hdigit hdot hbool
    have hback : String.ofList (c :: cs) = name := by rw [← hname, String.ofList_toList]
    have hword := Spells.identifier (List.all_eq_true.1 hall) hdigit hdot (hback ▸ hbool)
    rwa [hback, ← hname] at hword
  cases word with
  | dot => exact absurd rfl h
  | _ => exact ⟨hspells _ _ _ rfl (by decide) (by decide) (by decide) (by decide), by decide⟩

/-- an atom that is no dot is written as a token, which is read as the atom -/
theorem Readable.atom {d : Datum} (h : d.Readable) (hlist : d.isList = false) (hdot : d.isDot = false) :
    ∃ a : Atom, Spells d.print.toList a.lexeme ∧ ∀ m, (a.datum m).bare = d.bare := by
  cases d with
  | bool b m =>
    refine ⟨.boolean b, ?_, fun _ => rfl⟩
    have hname : (if b then "#t" else "#f", b) ∈ booleanNames := by
      cases b <;> decide
    exact .boolean hname
  | int n m =>
    obtain ⟨k, rfl, hk⟩ := h
    exact ⟨.integer k, spells_numeral hk, fun _ => rfl⟩
  | str text m =>
    refine ⟨.string text, ?_, fun _ => rfl⟩
    have hspells := Spells.string h
    rw [String.ofList_toList] at hspells
    simpa [print, atomText, Atom.lexeme] using hspells
  | sym name m =>
    refine ⟨.identifier name, h.1, fun m' => ?_⟩
    rw [Atom.datum, ofIdentifier, h.2]
    rfl
  | kw word m =>
    have hword : word ≠ .dot := by
      rintro rfl
      cases hdot
    obtain ⟨hspells, hback⟩ := spells_keyword hword
    refine ⟨.identifier word.name, hspells, fun m' => ?_⟩
    rw [Atom.datum, ofIdentifier, hback]
    rfl
  | nil => cases hlist
  | pair head tail m => cases hlist

/-- a list that is written with a sigil, or in parentheses -/
theorem print_pair {head tail : Datum} (hhead : head.print ≠ "") (htail : tail.isProper = true) (m : Mark) :
    (∃ (s : Sigil) (sigil : String) (m₁ m₂ : Mark) (x : Datum), head = kw s.word m₁ ∧ tail = pair x nil m₂ ∧
      Spells sigil.toList s.lexeme ∧ (pair head tail m).print = sigil ++ x.print) ∨
    ¬ Misread (pair head tail m) ∧ (pair head tail m).print.toList =
      '(' :: (head.print.toList ++ (tail.elements.flatMap (fun e => ' ' :: e.print.toList) ++ [')'])) := by
  by_cases hplain : ∀ word m₁ x m₂, head = kw word m₁ → tail = pair x nil m₂ → word.sigil? = none
  · refine Or.inr ⟨fun hmisread => ?_, print_list hhead htail m hplain⟩
    cases hmisread with
    | splice _ => cases hplain _ _ _ _ rfl rfl
    | dot hword =>
      simp only [List.mem_cons, List.not_mem_nil, or_false] at hword
      rcases hword with rfl | rfl | rfl | rfl <;> cases hplain _ _ _ _ rfl rfl
  · simp only [not_forall] at hplain
    obtain ⟨word, m₁, x, m₂, rfl, rfl, hsigil⟩ := hplain
    refine Or.inl ?_
    cases word with
    | quote => exact ⟨.quote, "'", m₁, m₂, x, rfl, rfl, .quote, print_sigil rfl _ _ _ _⟩
    | quasiquote => exact ⟨.quasiquote, "`", m₁, m₂, x, rfl, rfl, .quasiquote, print_sigil rfl _ _ _ _⟩
    | unquote => exact ⟨.unquote, ",", m₁, m₂, x, rfl, rfl, .unquote, print_sigil rfl _ _ _ _⟩
    | unquoteSplicing =>
      exact ⟨.unquoteSplicing, ",@", m₁, m₂, x, rfl, rfl, .unquoteSplicing, print_sigil rfl _ _ _ _⟩
    | _ => exact absurd rfl hsigil

theorem print_ne_empty {d : Datum} (h : d.print.toList ≠ []) : d.print ≠ "" := by
  intro hempty
  rw [hempty] at h
  exact h rfl

/-- a written form has a first character, which is an at sign only if a symbol starts with it -/
theorem Readable.print_head {d : Datum} (h : d.Readable) :
    d.print.toList ≠ [] ∧ (d.print.toList.head? = some '@' → ∃ name m, d = sym name m) := by
  induction d with
  | pair head tail m ihhead _ =>
    rcases print_pair (print_ne_empty (ihhead h.1).1) h.2.1 m with ⟨s, sigil, m₁, m₂, x, rfl, rfl, hspells,
      hprint⟩ | ⟨-, hprint⟩
    · rw [hprint, String.toList_append]
      cases s <;> generalize sigil.toList = run at hspells <;> cases hspells <;> simp
    · rw [hprint]
      simp
  | sym name m => exact ⟨h.1.ne_nil, fun _ => ⟨name, m, rfl⟩⟩
  | int n m =>
    obtain ⟨k, rfl, hk⟩ := h
    have hdigit : ∀ c ∈ (toString k).toList, c.isDigit = true := by
      intro c hc
      rw [Nat.toString_eq_ofList_toDigits, String.toList_ofList] at hc
      exact Nat.isDigit_of_mem_toDigits (by omega) (by omega) hc
    refine ⟨(spells_numeral hk).ne_nil, fun hat => ?_⟩
    have hfalse := hdigit '@' (List.mem_of_head? hat)
    cases hfalse
  | bool b m => cases b <;> simp [print, atomText]
  | str text m => simp [print, atomText]
  | kw word m =>
    have hname : word.name.toList ≠ [] ∧ word.name.toList.head? ≠ some '@' := by
      cases word <;> decide
    exact ⟨hname.1, fun hat => absurd hat hname.2⟩
  | nil => simp [print, atomText]

end Datum

/-! ## Reading back -/

section ReadBack

variable {d e x : Datum} {ds : List Datum} {before text rest : List Char} {ts : List Token}

theorem writesForm_atom (h : d.Readable) (hlist : d.isList = false) (hdot : d.isDot = false) : WritesForm d := by
  intro before rest ts hrest
  obtain ⟨a, hspells, ha⟩ := h.atom hlist hdot
  have helements : d.elements = [] := by
    cases d with
    | pair head tail m => cases hlist
    | _ => rfl
  rw [readsForm_atom hlist ha hspells (hrest.delimited _), and_iff_right (Datum.faithful_of_elements helements)]

/-- an element is read back, and then the others -/
theorem readsElements_cons (he : e.isDot = false → WritesForm e) (htext : Ends text) :
    ReadsElements (e :: ds) before (e.print.toList ++ text) ts ↔
      e.Faithful ∧ ReadsElements ds (before ++ e.print.toList) text ts := by
  cases hdot : e.isDot with
  | false =>
    constructor
    · intro h
      obtain ⟨es, hes, h⟩ := h
      cases es with
      | nil => cases hes
      | form f others =>
        obtain ⟨hf, hothers⟩ := List.cons.inj hes
        rw [Elements.tokens, List.append_assoc] at h
        obtain ⟨hfaithful, h⟩ := (he hdot _ _ _ htext).1 ⟨f, hf, h⟩
        exact ⟨hfaithful, others, hothers, h⟩
      | dot pos others =>
        have hsame := congrArg Datum.isDot (List.cons.inj hes).1
        rw [Datum.isDot_bare, Datum.isDot_bare, hdot] at hsame
        cases hsame
    · intro h
      obtain ⟨hfaithful, others, hothers, h⟩ := h
      obtain ⟨f, hf, h⟩ := (he hdot _ _ _ htext).2 ⟨hfaithful, h⟩
      refine ⟨.form f others, ?_, ?_⟩
      · rw [Elements.data, List.map_cons, hf, hothers, List.map_cons]
      · rwa [Elements.tokens, List.append_assoc]
  | true =>
    -- a dot is an element of its own, and no form
    have hends : Delimited .dot text := fun _ _ => rfl
    obtain ⟨m, rfl⟩ : ∃ m, e = .kw .dot m := by
      cases e with
      | kw word m =>
        cases word with
        | dot => exact ⟨m, rfl⟩
        | _ => cases hdot
      | _ => cases hdot
    have hprint : (Datum.kw .dot m).print.toList = ['.'] := by simp [Datum.print, Datum.atomText, Keyword.name]
    rw [and_iff_right (Datum.faithful_of_elements rfl), hprint]
    constructor
    · intro h
      obtain ⟨es, hes, h⟩ := h
      cases es with
      | nil => cases hes
      | form f others =>
        have hsame := congrArg Datum.isDot (List.cons.inj hes).1
        rw [Datum.isDot_bare, Form.isDot_datum] at hsame
        cases hsame
      | dot pos others =>
        obtain ⟨ts', hts, h⟩ := (tiles_token .dot hends).1 h
        refine ⟨others, (List.cons.inj hes).2, ?_⟩
        rw [Elements.tokens, List.cons_append] at hts
        rwa [(List.cons.inj hts).2]
    · intro h
      obtain ⟨others, hothers, h⟩ := h
      refine ⟨.dot (placeAfter before) others, ?_, (tiles_token .dot hends).2 ⟨_, rfl, h⟩⟩
      rw [Elements.data, List.map_cons, hothers]
      rfl

theorem readsElements_blank : ReadsElements ds before (' ' :: text) ts ↔
    ReadsElements ds (before ++ [' ']) text ts := by
  unfold ReadsElements
  simp only [tiles_blank (by decide : isBlank ' ' = true)]

theorem ends_rest (ds : List Datum) (rest : List Char) :
    Ends (ds.flatMap (fun e => ' ' :: e.print.toList) ++ ')' :: rest) := by
  intro c hc
  cases ds with
  | nil => exact Or.inr (Option.some.inj hc).symm
  | cons e ds => exact Or.inl (Option.some.inj hc).symm

/-- the elements behind the first are read back, up to the close parenthesis -/
theorem readsElements_rest (hds : ∀ e ∈ ds, e.isDot = false → WritesForm e) :
    ReadsElements ds before (ds.flatMap (fun e => ' ' :: e.print.toList) ++ ')' :: rest) ts ↔
      (∀ e ∈ ds, e.Faithful) ∧ Tiles Spells (before ++ ds.flatMap fun e => ' ' :: e.print.toList) (')' :: rest) ts := by
  induction ds generalizing before with
  | nil =>
    rw [readsElements_nil]
    simp
  | cons e ds ih =>
    obtain ⟨he, hds⟩ := List.forall_mem_cons.1 hds
    rw [List.flatMap_cons, List.cons_append, List.cons_append, List.append_assoc, readsElements_blank,
      readsElements_cons he (ends_rest ds rest), ih hds, List.forall_mem_cons, and_assoc]
    simp

/-- a close parenthesis is a token, at some place -/
theorem tiles_close :
    (∃ stop, Tiles Spells before (')' :: rest) (⟨.rightParen, stop⟩ :: ts)) ↔
      Tiles Spells (before ++ [')']) rest ts := by
  have hends : Delimited .rightParen rest := fun _ _ => rfl
  constructor
  · intro h
    obtain ⟨stop, h⟩ := h
    obtain ⟨ts', hts, h⟩ := (tiles_token .rightParen hends).1 h
    rwa [(List.cons.inj hts).2]
  · intro h
    exact ⟨placeAfter before, (tiles_token .rightParen hends).2 ⟨ts, rfl, h⟩⟩

theorem writesForm_nil : WritesForm .nil := by
  intro before rest ts _
  have hprint : Datum.nil.print.toList = ['(', ')'] := by simp [Datum.print, Datum.atomText]
  rw [hprint, List.cons_append, readsForm_list rfl, and_iff_right (Datum.faithful_of_elements rfl)]
  simp only [Datum.elements, readsElements_nil, List.cons_append, List.nil_append, tiles_close, List.append_assoc]

/-- the written form of a list in parentheses is read back with its elements -/
theorem writesForm_list {head tail : Datum} {m : Mark} (htail : tail.isProper = true)
    (helements : ∀ e ∈ (Datum.pair head tail m).elements, e.isDot = false → WritesForm e)
    (hplain : ¬ Datum.Misread (.pair head tail m)) (hprint : (Datum.pair head tail m).print.toList =
      '(' :: (head.print.toList ++ (tail.elements.flatMap (fun e => ' ' :: e.print.toList) ++ [')']))) :
    WritesForm (.pair head tail m) := by
  intro before rest ts _
  obtain ⟨hhead, hrest⟩ := List.forall_mem_cons.1 helements
  have hproper : (Datum.pair head tail m).isProper = true := htail
  rw [hprint, List.cons_append, readsForm_list hproper, Datum.elements, List.append_assoc, List.append_assoc,
    List.singleton_append, Datum.faithful_iff, and_iff_right hplain, Datum.elements, List.forall_mem_cons]
  simp only [readsElements_cons hhead (ends_rest tail.elements rest), readsElements_rest hrest, exists_and_left,
    tiles_close, and_assoc]
  simp

/-- a comma in front of an at sign is read as the other sigil -/
theorem not_readsForm_splice (m₁ m₂ m₃ : Mark) :
    ¬ ReadsForm (.pair (.kw .unquote m₁) (.pair x .nil m₂) m₃) before (',' :: '@' :: text) ts := by
  intro h
  obtain ⟨f, hf, h⟩ := h
  have hends : Delimited .unquoteSplicing text := fun _ _ => rfl
  obtain ⟨ts', hts, -⟩ := (tiles_token .unquoteSplicing hends).1 h
  cases f with
  | atom a pos => exact absurd (congrArg Token.lexeme (List.cons.inj hts).1) (a.lexeme_ne_sigil .unquoteSplicing)
  | list start es stop => cases congrArg Token.lexeme (List.cons.inj hts).1
  | sigil s pos operand =>
    have hlexeme : s.lexeme = Sigil.unquoteSplicing.lexeme := congrArg Token.lexeme (List.cons.inj hts).1
    rw [Sigil.lexeme_injective hlexeme, Form.bare_sigil] at hf
    cases hf

/-- a sigil is misread in front of a dot, and a comma in front of an at sign -/
theorem misread_sigil {s : Sigil} {m₁ m₂ m₃ : Mark} (h : x.Readable) :
    Datum.Misread (.pair (.kw s.word m₁) (.pair x .nil m₂) m₃) ↔
      x.isDot = true ∨ s = .unquote ∧ x.print.toList.head? = some '@' := by
  constructor
  · intro hmisread
    generalize hword : s.word = word at hmisread
    cases hmisread with
    | splice hname =>
      refine Or.inr ⟨?_, hname⟩
      cases s with
      | unquote => rfl
      | _ => cases hword
    | dot _ => exact Or.inl rfl
  · intro hx
    rcases hx with hdot | ⟨rfl, hat⟩
    · cases x with
      | kw word m =>
        cases word with
        | dot => cases s <;> exact .dot (by decide)
        | _ => cases hdot
      | _ => cases hdot
    · obtain ⟨name, m, rfl⟩ := h.print_head.2 hat
      exact .splice hat

theorem delimited_sigil {s : Sigil} {run : List Char} (hrun : run ≠ []) :
    Delimited s.lexeme (run ++ rest) ↔ ¬ (s = .unquote ∧ run.head? = some '@') := by
  obtain ⟨c, cs, rfl⟩ := List.exists_cons_of_ne_nil hrun
  cases s <;> simp [Delimited, Sigil.lexeme, Lexeme.goesOn]

/-- the written form of a sigil and its operand is read back with the operand, unless it is misread -/
theorem writesForm_sigil {s : Sigil} {sigil : String} {m₁ m₂ m₃ : Mark} (h : x.Readable)
    (hx : x.isDot = false → WritesForm x) (hspells : Spells sigil.toList s.lexeme)
    (hprint : (Datum.pair (.kw s.word m₁) (.pair x .nil m₂) m₃).print = sigil ++ x.print) :
    WritesForm (.pair (.kw s.word m₁) (.pair x .nil m₂) m₃) := by
  intro before rest ts hrest
  have hne := h.print_head.1
  have helements : (Datum.pair (.kw s.word m₁) (.pair x .nil m₂) m₃).elements = [.kw s.word m₁, x] := rfl
  rw [hprint, String.toList_append, List.append_assoc, Datum.faithful_iff, misread_sigil h, helements,
    List.forall_mem_cons, List.forall_mem_singleton, and_iff_right (Datum.faithful_of_elements rfl), not_or]
  by_cases hat : s = .unquote ∧ x.print.toList.head? = some '@'
  · -- neither side holds: the text starts with the splicing sigil
    refine iff_of_false ?_ fun hright => hright.1.1.2 hat
    obtain ⟨rfl, hat⟩ := hat
    obtain ⟨cs, hcs⟩ := List.head?_eq_some_iff.1 hat
    have hcomma : sigil.toList = [','] := by
      generalize sigil.toList = run at hspells
      cases hspells
      rfl
    rw [hcomma, hcs]
    exact not_readsForm_splice m₁ m₂ m₃
  · rw [readsForm_sigil hspells ((delimited_sigil hne).2 hat)]
    cases hdot : x.isDot with
    | false =>
      rw [hx hdot _ _ _ hrest, List.append_assoc]
      simp [hat]
    | true =>
      -- neither side holds: no form stands for a dot
      refine iff_of_false (fun hreads => ?_) fun hright => hright.1.1.1 rfl
      obtain ⟨f, hf, -⟩ := hreads
      have hsame := congrArg Datum.isDot hf
      rw [Datum.isDot_bare, Datum.isDot_bare, Form.isDot_datum, hdot] at hsame
      cases hsame

/-- **The written form of what the reader makes** is read back exactly if no sub-form is misread -/
theorem writesForm (h : d.Readable) (hdot : d.isDot = false) : WritesForm d := by
  induction d using Datum.elementsInduct with
  | _ d ih =>
    cases d with
    | nil => exact writesForm_nil
    | pair head tail m =>
      have helements : ∀ e ∈ (Datum.pair head tail m).elements, e.isDot = false → WritesForm e := by
        intro e he
        exact ih e he (h.element he)
      rcases Datum.print_pair (Datum.print_ne_empty h.1.print_head.1) h.2.1 m with
        ⟨s, sigil, m₁, m₂, x, rfl, rfl, hspells, hprint⟩ | ⟨hplain, hprint⟩
      · exact writesForm_sigil h.2.2.1 (helements x (by simp [Datum.elements])) hspells hprint
      · exact writesForm_list h.2.1 helements hplain hprint
    | _ => exact writesForm_atom h rfl hdot

end ReadBack

/-! ## Forms of a text -/

theorem Tiles.spelled {before text : List Char} {ts : List Token} (h : Tiles Spells before text ts) :
    ∀ t ∈ ts, ∃ run, Spells run t.lexeme := by
  induction h with
  | finished _ => exact nofun
  | token _ hspells _ _ ih => exact List.forall_mem_cons.2 ⟨⟨_, hspells⟩, ih⟩

theorem Atom.readable {a : Atom} {run : List Char} (h : Spells run a.lexeme) (m : Mark) : (a.datum m).Readable := by
  cases a with
  | boolean b => trivial
  | integer n =>
    generalize hlexeme : (Atom.integer n).lexeme = lexeme at h
    cases h with
    | @integer _ k _ _ _ hfits =>
      cases hlexeme
      exact ⟨k, rfl, hfits⟩
    | _ => cases hlexeme
  | string text =>
    generalize hlexeme : (Atom.string text).lexeme = lexeme at h
    cases h with
    | string hbody =>
      cases hlexeme
      simpa [Atom.datum, Datum.Readable] using hbody
    | _ => cases hlexeme
  | identifier name =>
    have hname : run = name.toList := by
      generalize hlexeme : (Atom.identifier name).lexeme = lexeme at h
      cases h with
      | identifier _ _ _ _ =>
        cases hlexeme
        rw [String.toList_ofList]
      | _ => cases hlexeme
    rw [Atom.datum, Datum.ofIdentifier]
    split
    · trivial
    · rename_i hnone
      exact ⟨hname ▸ h, hnone⟩

mutual

/-- the datum of a form whose tokens are spelled is readable -/
theorem Form.readable (f : Form) (h : ∀ t ∈ f.tokens, ∃ run, Spells run t.lexeme) : f.datum.Readable := by
  match f with
  | .atom a pos =>
    obtain ⟨run, hrun⟩ := h _ List.mem_cons_self
    exact Atom.readable hrun _
  | .list start es stop =>
    refine Datum.readable_withMark _ (Datum.readable_ofList (Elements.readable es fun t ht => h t ?_))
    exact List.mem_cons_of_mem _ (List.mem_append_left _ ht)
  | .sigil s pos operand =>
    have hoperand := Form.readable operand fun t ht => h t (List.mem_cons_of_mem _ ht)
    exact ⟨trivial, rfl, hoperand, rfl, trivial⟩

theorem Elements.readable (es : Elements) (h : ∀ t ∈ es.tokens, ∃ run, Spells run t.lexeme) :
    ∀ d ∈ es.data, d.Readable := by
  match es with
  | .nil => exact nofun
  | .form f others =>
    refine List.forall_mem_cons.2 ⟨Form.readable f fun t ht => h t ?_, Elements.readable others fun t ht => h t ?_⟩
    · exact List.mem_append_left _ ht
    · exact List.mem_append_right _ ht
  | .dot pos others =>
    exact List.forall_mem_cons.2 ⟨trivial, Elements.readable others fun t ht => h t (List.mem_cons_of_mem _ ht)⟩

end

/-- what is read from a text is readable, and no dot -/
theorem readable_of_readText {text : String} {ds : List Datum} (h : readText text = .ok ds) :
    ∀ d ∈ ds, d.Readable ∧ d.isDot = false := by
  obtain ⟨fs, htokens, rfl⟩ := readText_eq_ok_iff.1 h
  have htiles : Tiles Spells [] (Cursor.ofText text).rest (Form.allTokens fs) :=
    Cursor.tiles_of_drain rfl (tokens_eq_ok_drain.1 htokens)
  intro d hd
  obtain ⟨f, hf, rfl⟩ := List.mem_map.1 hd
  refine ⟨f.readable fun t ht => htiles.spelled t (List.mem_flatMap.2 ⟨f, hf, ht⟩), f.isDot_datum⟩

/-- a text is read as a datum and nothing else if it consists of the tokens of a form for it -/
theorem readText_single_iff {text : String} {s : Datum} :
    (∃ d, readText text = .ok [d] ∧ d.same s = true) ↔ ReadsForm s [] text.toList [] := by
  constructor
  · intro h
    obtain ⟨d, hd, hsame⟩ := h
    obtain ⟨fs, htokens, hfs⟩ := readText_eq_ok_iff.1 hd
    obtain ⟨f, rfl, rfl⟩ := List.map_eq_singleton_iff.1 hfs.symm
    have htiles : Tiles Spells [] (Cursor.ofText text).rest (Form.allTokens [f]) :=
      Cursor.tiles_of_drain rfl (tokens_eq_ok_drain.1 htokens)
    rw [Form.allTokens, List.flatMap_singleton] at htiles
    refine ⟨f, by simpa [Datum.same] using hsame, ?_⟩
    rwa [List.append_nil]
  · intro h
    obtain ⟨f, hf, htiles⟩ := h
    have hdrain : (Cursor.ofText text).drain.1 = .ok (f.tokens ++ []) := Cursor.drain_of_tiles rfl htiles
    have htokens : tokens text = .ok (Form.allTokens [f]) := by
      rw [Form.allTokens, List.flatMap_singleton, ← List.append_nil f.tokens]
      exact tokens_eq_ok_drain.2 hdrain
    exact ⟨f.datum, readText_eq_ok_iff.2 ⟨[f], htokens, rfl⟩, by simpa [Datum.same] using hf⟩

/-- **Printing and reading agree, and exactly where.** A form that was read from a text is read back from its written
form, alone and the same up to marks, if and only if none of its sub-forms is misread -/
theorem readText_print_iff (text : String) (ds : List Datum) (h : readText text = .ok ds) (s : Datum) (hs : s ∈ ds) :
    (∃ d, readText s.print = .ok [d] ∧ d.same s = true) ↔ ∀ x, Datum.SubForm x s → ¬ Datum.Misread x := by
  obtain ⟨hreadable, hdot⟩ := readable_of_readText h s hs
  have hnothing : Ends [] := nofun
  have hiff := writesForm hreadable hdot [] [] [] hnothing
  have hend : Tiles Spells s.print.toList [] [] := .finished (.closed .nil)
  rw [List.append_nil, List.nil_append, and_iff_left hend] at hiff
  rw [readText_single_iff, hiff, Datum.Faithful]

/-- a splicing sigil is read back; the same characters written for a comma and a symbol are not -/
theorem splicing_read_back :
    (∃ s, readText ",@(a . b)" = .ok [s] ∧ ∃ d, readText s.print = .ok [d] ∧ d.same s = true) ∧
    ∃ s, readText "(unquote @a)" = .ok [s] ∧ ¬ ∃ d, readText s.print = .ok [d] ∧ d.same s = true := by
  constructor
  · let operand : Datum := .pair (.sym "a" ⟨some 0, some 3⟩) (.pair (.kw .dot ⟨some 0, some 5⟩)
      (.pair (.sym "b" ⟨some 0, some 7⟩) .nil .unknown) .unknown) ⟨some 0, some 2⟩
    let s : Datum := .pair (.kw .unquoteSplicing ⟨some 0, some 0⟩) (.pair operand .nil .unknown) ⟨some 0, some 0⟩
    have hread : readText ",@(a . b)" = .ok [s] := by decide +kernel
    have hoperand : operand.Faithful := by
      refine Datum.faithful_iff.2 ⟨by unfold operand; nofun, fun e he => Datum.faithful_of_elements ?_⟩
      simp only [operand, Datum.elements, List.mem_cons, List.not_mem_nil, or_false] at he
      rcases he with rfl | rfl | rfl <;> rfl
    have hfaithful : s.Faithful := by
      refine Datum.faithful_iff.2 ⟨by unfold s operand; nofun, ?_⟩
      exact List.forall_mem_cons.2 ⟨Datum.faithful_of_elements rfl, List.forall_mem_singleton.2 hoperand⟩
    exact ⟨s, hread, (readText_print_iff _ _ hread s List.mem_cons_self).2 hfaithful⟩
  · let s : Datum := .pair (.kw .unquote ⟨some 0, some 1⟩) (.pair (.sym "@a" ⟨some 0, some 9⟩) .nil .unknown)
      ⟨some 0, some 0⟩
    have hread : readText "(unquote @a)" = .ok [s] := by decide +kernel
    refine ⟨s, hread, fun hback => ?_⟩
    exact (readText_print_iff _ _ hread s List.mem_cons_self).1 hback s .self (.splice rfl)

end SchemeStack
