/-
The reader accepts exactly its grammar, and builds the tree of the derivation.

    form ::= atom | ( element* ) | sigil form        element ::= form | .

A `Form` is a derivation: its constructors are the rules, so there is none that is not in the grammar. `Form.tokens`
are the tokens it derives, `Form.datum` is the datum that it stands for: a list for its elements with the dots among
them, a list of keyword and operand for a sigil, an atom for itself. Each datum has the mark of its first token, the
empty list apart.

`readText_grammar`: a text is read as some data if and only if its tokens are derived by a sequence of forms that
stand for those data; a sequence of tokens has one derivation only; and every form but the empty list is marked with
its first token.

A reader that has things open goes on with a datum by `resume`. Reading the tokens of a form resumes with its datum,
whatever is open (`readForms_form`). Conversely, whenever reading succeeds, an open list is closed behind some
elements, and an open sigil is followed by a form (`finishes`, by induction on the number of tokens left).
-/
import SchemeStack.Datum.Reader
import SchemeStack.Proofs.ScannerTiling

namespace SchemeStack

open SchemeStack.Source

/-! ## Derivations -/

/-- what an atom's token says -/
inductive Atom where
  | boolean (b : Bool)
  | integer (n : Int)
  | string (text : String)
  | identifier (name : String)

def Atom.lexeme : Atom → Lexeme
  | boolean b => .boolean b
  | integer n => .integer n
  | string text => .string text
  | identifier name => .identifier name

/-- the datum of an atom; an identifier is a keyword if it is a reserved word -/
def Atom.datum (m : Mark) : Atom → Datum
  | boolean b => .bool b m
  | integer n => .int n m
  | string text => .str text m
  | identifier name => .ofIdentifier name m

inductive Sigil where
  | quote
  | quasiquote
  | unquote
  | unquoteSplicing

def Sigil.lexeme : Sigil → Lexeme
  | quote => .quote
  | quasiquote => .quasiquote
  | unquote => .unquote
  | unquoteSplicing => .unquoteSplicing

def Sigil.word : Sigil → Keyword
  | quote => .quote
  | quasiquote => .quasiquote
  | unquote => .unquote
  | unquoteSplicing => .unquoteSplicing

mutual

/-- a derivation of a form, with the places of its tokens -/
inductive Form where
  | atom (a : Atom) (pos : Pos)
  | list (start : Pos) (elements : Elements) (stop : Pos)
  | sigil (s : Sigil) (pos : Pos) (operand : Form)

/-- a derivation of the elements of a list -/
inductive Elements where
  | nil
  | form (f : Form) (others : Elements)
  | dot (pos : Pos) (others : Elements)

end

mutual

def Form.tokens : Form → List Token
  | .atom a pos => [⟨a.lexeme, pos⟩]
  | .list start elements stop => ⟨.leftParen, start⟩ :: (elements.tokens ++ [⟨.rightParen, stop⟩])
  | .sigil s pos operand => ⟨s.lexeme, pos⟩ :: operand.tokens

def Elements.tokens : Elements → List Token
  | .nil => []
  | .form f others => f.tokens ++ others.tokens
  | .dot pos others => ⟨.dot, pos⟩ :: others.tokens

end

mutual

/-- the datum that a form stands for -/
def Form.datum : Form → Datum
  | .atom a pos => a.datum pos.mark
  | .list start elements _ => (Datum.ofList elements.data).withMark start.mark
  | .sigil s pos operand => (Datum.ofList [.kw s.word pos.mark, operand.datum]).withMark pos.mark

/-- the data that the elements of a list stand for; a dot stays as a keyword -/
def Elements.data : Elements → List Datum
  | .nil => []
  | .form f others => f.datum :: others.data
  | .dot pos others => .kw .dot pos.mark :: others.data

end

def Form.allTokens (fs : List Form) : List Token := fs.flatMap Form.tokens

/-- a form starts with a token that neither closes a list nor is a dot -/
theorem Form.tokens_eq_cons (f : Form) :
    ∃ t ts, f.tokens = t :: ts ∧ t.lexeme ≠ .rightParen ∧ t.lexeme ≠ .dot ∧
      (f.datum = .nil ∨ f.datum.mark = t.pos.mark) := by
  cases f with
  | atom a pos =>
    refine ⟨_, _, rfl, ?_⟩
    cases a with
    | identifier name =>
      refine ⟨nofun, nofun, Or.inr ?_⟩
      simp only [Form.datum, Atom.datum, Datum.ofIdentifier]
      split <;> rfl
    | _ => exact ⟨nofun, nofun, Or.inr rfl⟩
  | list start elements stop =>
    refine ⟨_, _, rfl, nofun, nofun, ?_⟩
    rw [Form.datum]
    cases elements.data with
    | nil => exact Or.inl rfl
    | cons d ds => exact Or.inr rfl
  | sigil s pos operand =>
    refine ⟨_, _, rfl, ?_⟩
    cases s <;> exact ⟨nofun, nofun, Or.inr rfl⟩

/-! ## One derivation -/

theorem Atom.lexeme_injective {a b : Atom} (h : a.lexeme = b.lexeme) : a = b := by
  cases a <;> cases b <;> cases h <;> rfl

theorem Sigil.lexeme_injective {s t : Sigil} (h : s.lexeme = t.lexeme) : s = t := by
  cases s <;> cases t <;> cases h <;> rfl

theorem Atom.lexeme_ne_sigil (a : Atom) (s : Sigil) : a.lexeme ≠ s.lexeme := by
  cases a <;> cases s <;> nofun

theorem Atom.lexeme_ne_leftParen (a : Atom) : a.lexeme ≠ .leftParen := by
  cases a <;> nofun

theorem Sigil.lexeme_ne_leftParen (s : Sigil) : s.lexeme ≠ .leftParen := by
  cases s <;> nofun

mutual

/-- a form is told by its tokens, whatever follows them -/
theorem Form.eq_of_tokens (f g : Form) {a b : List Token} (h : f.tokens ++ a = g.tokens ++ b) : f = g ∧ a = b := by
  match f, g with
  | .atom x pos, .atom y pos' =>
    simp only [Form.tokens, List.singleton_append, List.cons.injEq, Token.mk.injEq] at h
    obtain ⟨⟨hlexeme, rfl⟩, htail⟩ := h
    exact ⟨by rw [Atom.lexeme_injective hlexeme], htail⟩
  | .atom x pos, .list start elements stop =>
    simp only [Form.tokens, List.cons_append, List.cons.injEq, Token.mk.injEq] at h
    exact absurd h.1.1 x.lexeme_ne_leftParen
  | .atom x pos, .sigil s pos' operand =>
    simp only [Form.tokens, List.cons_append, List.cons.injEq, Token.mk.injEq] at h
    exact absurd h.1.1 (x.lexeme_ne_sigil s)
  | .list start elements stop, .atom y pos' =>
    simp only [Form.tokens, List.cons_append, List.cons.injEq, Token.mk.injEq] at h
    exact absurd h.1.1.symm y.lexeme_ne_leftParen
  | .list start elements stop, .list start' elements' stop' =>
    simp only [Form.tokens, List.cons_append, List.append_assoc, List.cons.injEq, Token.mk.injEq, true_and] at h
    obtain ⟨rfl, htail⟩ := h
    obtain ⟨rfl, rfl, hab⟩ := Elements.eq_of_tokens elements elements' htail
    exact ⟨rfl, hab⟩
  | .list start elements stop, .sigil s pos' operand =>
    simp only [Form.tokens, List.cons_append, List.cons.injEq, Token.mk.injEq] at h
    exact absurd h.1.1.symm s.lexeme_ne_leftParen
  | .sigil s pos operand, .atom y pos' =>
    simp only [Form.tokens, List.cons_append, List.cons.injEq, Token.mk.injEq] at h
    exact absurd h.1.1.symm (y.lexeme_ne_sigil s)
  | .sigil s pos operand, .list start elements stop =>
    simp only [Form.tokens, List.cons_append, List.cons.injEq, Token.mk.injEq] at h
    exact absurd h.1.1 s.lexeme_ne_leftParen
  | .sigil s pos operand, .sigil s' pos' operand' =>
    simp only [Form.tokens, List.cons_append, List.cons.injEq, Token.mk.injEq] at h
    obtain ⟨⟨hlexeme, rfl⟩, htail⟩ := h
    obtain ⟨rfl, hab⟩ := Form.eq_of_tokens operand operand' htail
    exact ⟨by rw [Sigil.lexeme_injective hlexeme], hab⟩

/-- elements are told by their tokens up to the close parenthesis -/
theorem Elements.eq_of_tokens (es es' : Elements) {stop stop' : Pos} {a b : List Token}
    (h : es.tokens ++ ⟨.rightParen, stop⟩ :: a = es'.tokens ++ ⟨.rightParen, stop'⟩ :: b) :
    es = es' ∧ stop = stop' ∧ a = b := by
  match es, es' with
  | .nil, .nil =>
    simp only [Elements.tokens, List.nil_append, List.cons.injEq, Token.mk.injEq, true_and] at h
    exact ⟨rfl, h⟩
  | .nil, .form g others =>
    obtain ⟨t, ts, hg, hclose, -⟩ := g.tokens_eq_cons
    simp only [Elements.tokens, hg, List.nil_append, List.cons_append, List.cons.injEq] at h
    exact absurd (congrArg Token.lexeme h.1.symm) hclose
  | .nil, .dot pos others =>
    simp [Elements.tokens] at h
  | .form f others, .nil =>
    obtain ⟨t, ts, hf, hclose, -⟩ := f.tokens_eq_cons
    simp only [Elements.tokens, hf, List.nil_append, List.cons_append, List.cons.injEq] at h
    exact absurd (congrArg Token.lexeme h.1) hclose
  | .form f others, .form g others' =>
    simp only [Elements.tokens, List.append_assoc] at h
    obtain ⟨rfl, htail⟩ := Form.eq_of_tokens f g h
    obtain ⟨rfl, hstop⟩ := Elements.eq_of_tokens others others' htail
    exact ⟨rfl, hstop⟩
  | .form f others, .dot pos others' =>
    obtain ⟨t, ts, hf, -, hdot, -⟩ := f.tokens_eq_cons
    simp only [Elements.tokens, hf, List.cons_append, List.cons.injEq] at h
    exact absurd (congrArg Token.lexeme h.1) hdot
  | .dot pos others, .nil =>
    simp [Elements.tokens] at h
  | .dot pos others, .form g others' =>
    obtain ⟨t, ts, hg, -, hdot, -⟩ := g.tokens_eq_cons
    simp only [Elements.tokens, hg, List.cons_append, List.cons.injEq] at h
    exact absurd (congrArg Token.lexeme h.1.symm) hdot
  | .dot pos others, .dot pos' others' =>
    simp only [Elements.tokens, List.cons_append, List.cons.injEq, Token.mk.injEq, true_and] at h
    obtain ⟨rfl, htail⟩ := h
    obtain ⟨rfl, hstop⟩ := Elements.eq_of_tokens others others' htail
    exact ⟨rfl, hstop⟩

end

/-- a sequence of tokens has one derivation only -/
theorem Form.allTokens_injective : Function.Injective Form.allTokens := by
  intro fs gs h
  induction fs generalizing gs with
  | nil =>
    cases gs with
    | nil => rfl
    | cons g gs =>
      obtain ⟨t, ts, hg, -⟩ := g.tokens_eq_cons
      simp [Form.allTokens, hg] at h
  | cons f fs ih =>
    cases gs with
    | nil =>
      obtain ⟨t, ts, hf, -⟩ := f.tokens_eq_cons
      simp [Form.allTokens, hf] at h
    | cons g gs =>
      simp only [Form.allTokens, List.flatMap_cons] at h
      obtain ⟨rfl, htail⟩ := f.eq_of_tokens g h
      rw [ih htail]

/-! ## Reading what is derived -/

namespace Reader

/-- goes on with a finished datum, with these things open -/
def resume (ending : Ending) (d : Datum) (stack : List Opening) (events : List Event) :
    Except Diagnostic (List Datum) :=
  match deliver d stack with
  | .more stack => (readForms ending stack events).1
  | .done d => (readForms ending [] events).1.map (d :: ·)
  | .fault fault _ => .error fault

variable {ending : Ending} {stack : List Opening} {events : List Event} {start pos : Pos}

theorem readForms_deliver {d : Datum} {stack' : List Opening} {t : Token} (h : step stack t = deliver d stack') :
    (readForms ending stack (.ok t :: events)).1 = resume ending d stack' events := by
  rw [readForms, h, resume]
  cases deliver d stack' <;> rfl

theorem readForms_atom (a : Atom) :
    (readForms ending stack (.ok ⟨a.lexeme, pos⟩ :: events)).1 = resume ending (a.datum pos.mark) stack events := by
  apply readForms_deliver
  cases a <;> rfl

theorem readForms_sigil (s : Sigil) :
    readForms ending stack (.ok ⟨s.lexeme, pos⟩ :: events) = readForms ending (.sigil pos s.word :: stack) events := by
  cases s <;> rfl

theorem readForms_leftParen :
    readForms ending stack (.ok ⟨.leftParen, pos⟩ :: events) = readForms ending (.list pos [] :: stack) events := rfl

theorem readForms_rightParen {elements : List Datum} :
    (readForms ending (.list start elements :: stack) (.ok ⟨.rightParen, pos⟩ :: events)).1 =
      resume ending (closedList start elements) stack events :=
  readForms_deliver rfl

theorem readForms_dot {elements : List Datum} :
    readForms ending (.list start elements :: stack) (.ok ⟨.dot, pos⟩ :: events) =
      readForms ending (.list start (.kw .dot pos.mark :: elements) :: stack) events := rfl

theorem resume_list {d : Datum} {elements : List Datum} :
    resume ending d (.list start elements :: stack) events =
      (readForms ending (.list start (d :: elements) :: stack) events).1 :=
  rfl

theorem resume_sigil {d : Datum} {word : Keyword} :
    resume ending d (.sigil start word :: stack) events = resume ending (sigilForm start word d) stack events := rfl

mutual

/-- the tokens of a form are read as its datum, whatever is open -/
theorem readForms_form (f : Form) (stack : List Opening) (events : List Event) :
    (readForms ending stack (f.tokens.map .ok ++ events)).1 = resume ending f.datum stack events := by
  match f with
  | .atom a pos => exact readForms_atom a
  | .list start elements stop =>
    rw [Form.tokens, List.map_cons, List.cons_append, readForms_leftParen, List.map_append, List.append_assoc]
    rw [List.map_cons, List.map_nil, List.singleton_append, readForms_elements, List.append_nil, closedList,
      List.reverse_reverse, Form.datum]
  | .sigil s pos operand =>
    rw [Form.tokens, List.map_cons, List.cons_append, readForms_sigil, readForms_form operand, resume_sigil, sigilForm,
      Form.datum]

/-- elements are read onto those of their list, up to its close parenthesis -/
theorem readForms_elements (es : Elements) (start stop : Pos) (front : List Datum) (stack : List Opening)
    (events : List Event) :
    (readForms ending (.list start front :: stack) (es.tokens.map .ok ++ .ok ⟨.rightParen, stop⟩ :: events)).1 =
      resume ending (closedList start (es.data.reverse ++ front)) stack events := by
  match es with
  | .nil => exact readForms_rightParen
  | .form f others =>
    rw [Elements.tokens, List.map_append, List.append_assoc, readForms_form f, resume_list, readForms_elements others,
      Elements.data, List.reverse_cons, List.append_assoc, List.singleton_append]
  | .dot pos others =>
    rw [Elements.tokens, List.map_cons, List.cons_append, readForms_dot, readForms_elements others, Elements.data,
      List.reverse_cons, List.append_assoc, List.singleton_append]

end

/-- the tokens of a sequence of forms are read as their data -/
theorem readForms_allTokens (last : Pos) (fs : List Form) :
    (readForms (.finished last) [] ((Form.allTokens fs).map .ok)).1 = .ok (fs.map Form.datum) := by
  induction fs with
  | nil => rfl
  | cons f fs ih =>
    rw [Form.allTokens, List.flatMap_cons, List.map_append, readForms_form]
    change (readForms (.finished last) [] ((Form.allTokens fs).map .ok)).1.map (f.datum :: ·) = _
    rw [ih]
    rfl

end Reader

/-! ## Deriving what is read -/

/-- a lexeme is a parenthesis, a dot, that of a sigil or of an atom, or the end of the text -/
theorem Lexeme.classify (l : Lexeme) :
    l = .leftParen ∨ l = .rightParen ∨ l = .dot ∨ (∃ s : Sigil, l = s.lexeme) ∨ (∃ a : Atom, l = a.lexeme) ∨
      l = .endOfInput := by
  cases l with
  | leftParen => simp
  | rightParen => simp
  | dot => simp
  | endOfInput => simp
  | quote => exact Or.inr (Or.inr (Or.inr (Or.inl ⟨.quote, rfl⟩)))
  | quasiquote => exact Or.inr (Or.inr (Or.inr (Or.inl ⟨.quasiquote, rfl⟩)))
  | unquote => exact Or.inr (Or.inr (Or.inr (Or.inl ⟨.unquote, rfl⟩)))
  | unquoteSplicing => exact Or.inr (Or.inr (Or.inr (Or.inl ⟨.unquoteSplicing, rfl⟩)))
  | boolean b => exact Or.inr (Or.inr (Or.inr (Or.inr (Or.inl ⟨.boolean b, rfl⟩))))
  | integer n => exact Or.inr (Or.inr (Or.inr (Or.inr (Or.inl ⟨.integer n, rfl⟩))))
  | string text => exact Or.inr (Or.inr (Or.inr (Or.inr (Or.inl ⟨.string text, rfl⟩))))
  | identifier name => exact Or.inr (Or.inr (Or.inr (Or.inr (Or.inl ⟨.identifier name, rfl⟩))))

namespace Reader

variable {last : Pos} {ts : List Token} {ds : List Datum}

/-- what must come next for reading to succeed: elements and a close parenthesis for a list, a form for a sigil -/
def Finishes (last : Pos) (opening : Opening) (stack : List Opening) (ts : List Token) (ds : List Datum) : Prop :=
  match opening with
  | .list start front => ∃ (es : Elements) (stop : Pos) (rest : List Token),
      ts = es.tokens ++ ⟨.rightParen, stop⟩ :: rest ∧
        resume (.finished last) (closedList start (es.data.reverse ++ front)) stack (rest.map .ok) = .ok ds
  | .sigil start word => ∃ (f : Form) (rest : List Token), ts = f.tokens ++ rest ∧
      resume (.finished last) (sigilForm start word f.datum) stack (rest.map .ok) = .ok ds

/-- no token of the list is the end of the text -/
def Proper (ts : List Token) : Prop := ∀ t ∈ ts, t.lexeme ≠ .endOfInput

/-- what follows a form has fewer tokens -/
theorem Proper.behind {f : Form} {rest : List Token} (h : Proper ts) (hrest : ts = f.tokens ++ rest) :
    rest.length < ts.length ∧ Proper rest := by
  obtain ⟨t, ts', hf, -⟩ := f.tokens_eq_cons
  refine ⟨?_, fun t' ht' => h t' (hrest ▸ List.mem_append_right _ ht')⟩
  rw [hrest, hf, List.length_append, List.length_cons]
  omega

/-- a token that is neither a close parenthesis nor a dot starts a form, if what it opens is finished -/
theorem exists_form {stack : List Opening} {t : Token} (ht : Proper (t :: ts)) (hclose : t.lexeme ≠ .rightParen)
    (hdot : t.lexeme ≠ .dot)
    (hfinishes : ∀ opening stack, (readForms (.finished last) (opening :: stack) (ts.map .ok)).1 = .ok ds →
      Finishes last opening stack ts ds)
    (h : (readForms (.finished last) stack ((t :: ts).map .ok)).1 = .ok ds) :
    ∃ (f : Form) (rest : List Token), t :: ts = f.tokens ++ rest ∧
      resume (.finished last) f.datum stack (rest.map .ok) = .ok ds := by
  obtain ⟨lexeme, pos⟩ := t
  rw [List.map_cons] at h
  rcases lexeme.classify with rfl | rfl | rfl | ⟨s, rfl⟩ | ⟨a, rfl⟩ | rfl
  · rw [readForms_leftParen] at h
    obtain ⟨es, stop, rest, rfl, hresume⟩ := hfinishes _ _ h
    refine ⟨.list pos es stop, rest, by simp [Form.tokens], ?_⟩
    simpa [Form.datum, closedList] using hresume
  · exact absurd rfl hclose
  · exact absurd rfl hdot
  · rw [readForms_sigil] at h
    obtain ⟨f, rest, rfl, hresume⟩ := hfinishes _ _ h
    exact ⟨.sigil s pos f, rest, rfl, hresume⟩
  · rw [readForms_atom] at h
    exact ⟨.atom a pos, ts, rfl, h⟩
  · exact absurd rfl (ht _ List.mem_cons_self)

/-- **What is open is finished** whenever reading succeeds -/
theorem finishes (hts : Proper ts) (opening : Opening) (stack : List Opening)
    (h : (readForms (.finished last) (opening :: stack) (ts.map .ok)).1 = .ok ds) :
    Finishes last opening stack ts ds := by
  induction hn : ts.length using Nat.strong_induction_on generalizing ts ds opening stack with
  | _ n ih =>
    subst hn
    cases ts with
    | nil => cases opening <;> cases h
    | cons t ts =>
      have hts' : Proper ts := fun t' ht' => hts t' (List.mem_cons_of_mem t ht')
      have hform : t.lexeme ≠ .rightParen → t.lexeme ≠ .dot →
          ∃ (f : Form) (rest : List Token), t :: ts = f.tokens ++ rest ∧
            resume (.finished last) f.datum (opening :: stack) (rest.map .ok) = .ok ds := fun hclose hdot =>
        exists_form hts hclose hdot (fun o s ho => ih ts.length (by simp) hts' o s ho rfl) h
      obtain ⟨lexeme, pos⟩ := t
      cases opening with
      | list start front =>
        by_cases hclose : lexeme = .rightParen
        · subst hclose
          rw [List.map_cons, readForms_rightParen] at h
          exact ⟨.nil, pos, ts, rfl, h⟩
        by_cases hdot : lexeme = .dot
        · subst hdot
          rw [List.map_cons, readForms_dot] at h
          obtain ⟨es, stop, rest, rfl, hresume⟩ := ih ts.length (by simp) hts' _ _ h rfl
          exact ⟨.dot pos es, stop, rest, rfl, by simpa [Elements.data] using hresume⟩
        · -- a form among the elements, and then the rest of them
          obtain ⟨f, rest, hrest, hresume⟩ := hform hclose hdot
          obtain ⟨hlen, hproper⟩ := hts.behind hrest
          rw [resume_list] at hresume
          obtain ⟨es, stop, rest', rfl, hrest'⟩ := ih rest.length hlen hproper _ _ hresume rfl
          refine ⟨.form f es, stop, rest', by rw [hrest, Elements.tokens, List.append_assoc], ?_⟩
          simpa [Elements.data] using hrest'
      | sigil start word =>
        have hclose : lexeme ≠ .rightParen := by
          rintro rfl
          cases h
        have hdot : lexeme ≠ .dot := by
          rintro rfl
          cases h
        obtain ⟨f, rest, hrest, hresume⟩ := hform hclose hdot
        exact ⟨f, rest, hrest, hresume⟩

/-- tokens that are read as data are derived by forms that stand for the data -/
theorem exists_forms (hts : Proper ts) (h : (readForms (.finished last) [] (ts.map .ok)).1 = .ok ds) :
    ∃ fs, ts = Form.allTokens fs ∧ ds = fs.map Form.datum := by
  induction hn : ts.length using Nat.strong_induction_on generalizing ts ds with
  | _ n ih =>
    subst hn
    cases ts with
    | nil =>
      cases h
      exact ⟨[], rfl, rfl⟩
    | cons t ts =>
      have hts' : Proper ts := fun t' ht' => hts t' (List.mem_cons_of_mem t ht')
      have hclose : t.lexeme ≠ .rightParen := by
        intro hlexeme
        rw [List.map_cons, readForms, step, hlexeme] at h
        cases h
      have hdot : t.lexeme ≠ .dot := by
        intro hlexeme
        rw [List.map_cons, readForms, step, hlexeme] at h
        cases h
      obtain ⟨f, rest, hrest, hresume⟩ := exists_form hts hclose hdot (fun o s => finishes hts' o s) h
      obtain ⟨hlen, hproper⟩ := hts.behind hrest
      obtain ⟨ds', hds', rfl⟩ := except_map_eq_ok.1 hresume
      obtain ⟨fs, rfl, rfl⟩ := ih rest.length hlen hproper hds' rfl
      exact ⟨f :: fs, hrest, rfl⟩

/-- if reading succeeds there was no fault among the events, and the text was at its end -/
theorem events_of_readForms {ending : Ending} {events : List Event} {stack : List Opening}
    (h : (readForms ending stack events).1 = .ok ds) :
    ∃ (ts : List Token) (last : Pos), events = ts.map .ok ∧ ending = .finished last := by
  induction events generalizing stack ds with
  | nil =>
    cases ending with
    | finished last => exact ⟨[], last, rfl, rfl⟩
    | stuck fault => cases stack <;> cases h
  | cons event events ih =>
    cases event with
    | error fault => cases h
    | ok t =>
      have hrest : ∃ stack ds, (readForms ending stack events).1 = .ok ds := by
        rw [readForms] at h
        split at h
        · exact ⟨_, _, h⟩
        · obtain ⟨ds', hds', -⟩ := except_map_eq_ok.1 h
          exact ⟨_, _, hds'⟩
        · cases h
      obtain ⟨stack, ds, hrest⟩ := hrest
      obtain ⟨ts, last, rfl, hending⟩ := ih hrest
      exact ⟨t :: ts, last, rfl, hending⟩

end Reader

/-! ## Texts -/

namespace Cursor

theorem feed_lexeme {c : Cursor} {lexeme : Lexeme} {run rest : List Char}
    (h : munch c.skipTrivia.rest = .lexeme lexeme run rest) :
    c.feed = (c.skipTrivia.pass run rest).feed.cons (.ok ⟨lexeme, c.skipTrivia.pos⟩) := by
  rw [feed]
  split <;> simp_all

theorem feed_fault {c : Cursor} {cause : Cause} {run rest : List Char}
    (h : munch c.skipTrivia.rest = .fault cause run rest) :
    c.feed = (c.skipTrivia.pass run rest).feed.cons (.error (.ofToken cause c.skipTrivia.pos)) := by
  rw [feed]
  split <;> simp_all

theorem feed_stuck {c : Cursor} {ch : Char} (h : munch c.skipTrivia.rest = .stuck ch) :
    c.feed = ⟨[], .stuck (.atPos (.invalidCharacter (some ch.toString)) c.skipTrivia.pos)⟩ := by
  rw [feed]
  split <;> simp_all

theorem feed_finished {c : Cursor} (h : munch c.skipTrivia.rest = .finished) :
    c.feed = ⟨[], .finished c.skipTrivia.pos⟩ := by
  rw [feed]
  split <;> simp_all

/-- a scan yields tokens if and only if its events are those tokens and it comes to the end of the text -/
theorem drain_eq_ok_iff_feed {c : Cursor} {ts : List Token} :
    c.drain.1 = .ok ts ↔ c.feed.events = ts.map .ok ∧ ∃ last, c.feed.ending = .finished last := by
  induction c using scanInduct generalizing ts with
  | lexeme c lexeme run rest hmunch ih =>
    rw [drain_lexeme hmunch, feed_lexeme hmunch, except_map_eq_ok]
    constructor
    · rintro ⟨ts', hts', rfl⟩
      obtain ⟨hevents, hending⟩ := ih.1 hts'
      exact ⟨by rw [List.map_cons, ← hevents]; rfl, hending⟩
    · rintro ⟨hevents, hending⟩
      obtain ⟨t, ts', rfl, ht, hts'⟩ := List.map_eq_cons_iff.1 hevents.symm
      cases ht
      exact ⟨ts', ih.2 ⟨hts'.symm, hending⟩, rfl⟩
  | fault c cause run rest hmunch _ =>
    rw [drain_fault hmunch, feed_fault hmunch]
    cases ts <;> simp [Feed.cons]
  | stuck c ch hmunch =>
    rw [drain_stuck hmunch, feed_stuck hmunch]
    simp
  | finished c hmunch =>
    rw [drain_finished hmunch, feed_finished hmunch]
    cases ts <;> simp

end Cursor

theorem Spells.ne_endOfInput {run : List Char} {lexeme : Lexeme} (h : Spells run lexeme) : lexeme ≠ .endOfInput := by
  cases h <;> nofun

theorem Tiles.proper {before text : List Char} {ts : List Token} (h : Tiles Spells before text ts) :
    Reader.Proper ts := by
  induction h with
  | finished _ => nofun
  | token _ hspells _ _ ih =>
    intro t ht
    rcases List.mem_cons.1 ht with rfl | ht
    · exact hspells.ne_endOfInput
    · exact ih t ht

theorem readText_eq_ok_readForms {text : String} {ds : List Datum} :
    readText text = .ok ds ↔ (Reader.readForms (Feed.ofText text).ending [] (Feed.ofText text).events).1 = .ok ds := by
  unfold readText Feed.readForms
  cases (Reader.readForms (Feed.ofText text).ending [] (Feed.ofText text).events).1 <;> simp [Except.mapError]

/-- a text is read as the data of the forms that derive its tokens -/
theorem readText_eq_ok_iff {text : String} {ds : List Datum} :
    readText text = .ok ds ↔ ∃ fs, tokens text = .ok (Form.allTokens fs) ∧ ds = fs.map Form.datum := by
  rw [readText_eq_ok_readForms]
  constructor
  · intro h
    obtain ⟨ts, last, hevents, hending⟩ := Reader.events_of_readForms h
    have hdrain : (Cursor.ofText text).drain.1 = .ok ts := Cursor.drain_eq_ok_iff_feed.2 ⟨hevents, last, hending⟩
    have htiles : Tiles Spells [] (Cursor.ofText text).rest ts := Cursor.tiles_of_drain rfl hdrain
    have hproper := htiles.proper
    rw [hevents, hending] at h
    obtain ⟨fs, rfl, hds⟩ := Reader.exists_forms hproper h
    exact ⟨fs, tokens_eq_ok_drain.2 hdrain, hds⟩
  · rintro ⟨fs, htokens, rfl⟩
    obtain ⟨hevents, last, hending⟩ := Cursor.drain_eq_ok_iff_feed.1 (tokens_eq_ok_drain.1 htokens)
    rw [Feed.ofText, hevents, hending]
    exact Reader.readForms_allTokens last fs

/-- **The reader accepts exactly its grammar and builds its tree.** A text is read as some data if and only if its
tokens are those of a sequence of forms that stand for the data; no tokens have two derivations; and the datum of a
form has the place of its first token, unless it is the empty list -/
theorem readText_grammar (text : String) :
    (∀ ds, readText text = .ok ds ↔ ∃ fs, tokens text = .ok (Form.allTokens fs) ∧ ds = fs.map Form.datum) ∧
    Function.Injective Form.allTokens ∧
    ∀ f : Form, ∃ t ts, f.tokens = t :: ts ∧ (f.datum = .nil ∨ f.datum.mark = t.pos.mark) := by
  refine ⟨fun ds => readText_eq_ok_iff, Form.allTokens_injective, fun f => ?_⟩
  obtain ⟨t, ts, hf, -, -, hmark⟩ := f.tokens_eq_cons
  exact ⟨t, ts, hf, hmark⟩

end SchemeStack
