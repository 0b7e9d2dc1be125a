/-
Two texts with a line feed between them are read as the first and then the second, further down.

`moveDown` moves a place, a mark, a token or a datum down by some lines; columns stay. `readText_join`: if two texts
are read, so is the text with a line feed between them, as the data of the first and those of the second, moved down
by the lines of the first.

The line feed is where the texts meet: it ends a comment that is open, it is a blank, and no lexeme goes on in it
(`FinalGap.lineFeed`, `Delimited.lineFeed`). So the tokens of the first text tile it also in front of another
(`Tiles.join`). Behind a line feed, columns do not depend on what came before (`placeAfter_lineFeed`).
-/
import SchemeStack.Proofs.MarkIndependence
import SchemeStack.Proofs.ReaderGrammar

namespace SchemeStack

open SchemeStack.Source SchemeStack.Text

/-! ## Moving down -/

/-- the place some lines further down -/
def Source.Pos.moveDown (lines : Nat) (p : Pos) : Pos := ⟨p.line + lines, p.column⟩

/-- the mark some lines further down, if it knows its line -/
def Source.Mark.moveDown (lines : Nat) (m : Mark) : Mark := ⟨m.line.map (· + lines), m.column⟩

def Token.moveDown (lines : Nat) (t : Token) : Token := ⟨t.lexeme, t.pos.moveDown lines⟩

def Datum.moveDown (lines : Nat) : Datum → Datum := mapMarks (Mark.moveDown lines)

theorem Source.Pos.mark_moveDown (lines : Nat) (p : Pos) : (p.moveDown lines).mark = p.mark.moveDown lines := by
  simp [Pos.mark, Pos.moveDown, Mark.moveDown]

namespace Datum

variable (lines : Nat)

theorem moveDown_withMark (m : Mark) (d : Datum) :
    (d.withMark m).moveDown lines = (d.moveDown lines).withMark (m.moveDown lines) := by
  cases d <;> rfl

theorem moveDown_ofList (es : List Datum) : (ofList es).moveDown lines = ofList (es.map (moveDown lines)) := by
  induction es with
  | nil => rfl
  | cons e es ih => exact congrArg (pair (e.moveDown lines) · .unknown) ih

theorem moveDown_ofIdentifier (name : String) (m : Mark) :
    (ofIdentifier name m).moveDown lines = ofIdentifier name (m.moveDown lines) := by
  unfold ofIdentifier
  cases Keyword.ofName? name <;> rfl

end Datum

/-! ## Gaps -/

section Gaps

variable {gap gap' : List Char}

theorem Gap.append (h : Gap gap) (h' : Gap gap') : Gap (gap ++ gap') := by
  induction h with
  | nil => exact h'
  | blank hc _ ih => exact .blank hc ih
  | comment hbody _ ih =>
    have hcomment := Gap.comment hbody ih
    simpa only [List.cons_append, List.append_assoc] using hcomment

theorem Gap.append_final (h : Gap gap) (h' : FinalGap gap') : FinalGap (gap ++ gap') := by
  cases h' with
  | closed h' => exact .closed (h.append h')
  | comment h' hbody =>
    rw [← List.append_assoc]
    exact .comment (h.append h') hbody

/-- a line feed ends the comment in which a text may end -/
theorem FinalGap.lineFeed (h : FinalGap gap) : Gap (gap ++ ['\n']) := by
  cases h with
  | closed h => exact h.append (.blank (by decide) .nil)
  | comment h hbody =>
    rw [List.append_assoc]
    exact h.append (.comment hbody .nil)

end Gaps

/-! ## Tokens -/

theorem Delimited.lineFeed {lexeme : Lexeme} {rest : List Char} (h : Delimited lexeme rest) (more : List Char) :
    Delimited lexeme (rest ++ '\n' :: more) := by
  cases rest with
  | nil =>
    intro c hc
    cases hc
    cases lexeme <;> rfl
  | cons c rest => exact h

theorem placeAfter_lineFeed (front before : List Char) :
    placeAfter (front ++ '\n' :: before) = (placeAfter before).moveDown (front.count '\n' + 1) := by
  have hline : (front ++ '\n' :: before).count '\n' = before.count '\n' + (front.count '\n' + 1) := by
    rw [List.count_append, List.count_cons_self]
    omega
  have hcolumn : ((front ++ '\n' :: before).reverse.takeWhile (· != '\n')) = before.reverse.takeWhile (· != '\n') := by
    rw [List.reverse_append, List.reverse_cons, List.append_assoc, List.takeWhile_append]
    split
    · rename_i hall
      have hfull := (List.takeWhile_prefix (· != '\n')).eq_of_length hall
      rw [List.singleton_append, List.takeWhile_cons_of_neg (by simp), List.append_nil, hfull]
    · rfl
  rw [placeAfter, placeAfter, hline, hcolumn]
  rfl

namespace Tiles

variable {before gap text more : List Char} {ts ts' : List Token}

theorem behind_gap (hgap : Gap gap) (h : Tiles Spells (before ++ gap) text ts) :
    Tiles Spells before (gap ++ text) ts := by
  cases h with
  | finished h => exact .finished (hgap.append_final h)
  | @token _ gap' run rest lexeme ts h hspells hends hrest =>
    have htoken := Tiles.token (hgap.append h) hspells hends (by simpa only [List.append_assoc] using hrest)
    simpa only [List.append_assoc] using htoken

/-- the tokens of two texts with a line feed between them -/
theorem join (h : Tiles Spells before text ts) (h' : Tiles Spells (before ++ text ++ ['\n']) more ts') :
    Tiles Spells before (text ++ '\n' :: more) (ts ++ ts') := by
  induction h with
  | finished hgap =>
    rw [List.append_cons, List.nil_append]
    exact behind_gap hgap.lineFeed (by rwa [List.append_assoc] at h')
  | token hgap hspells hends _ ih =>
    have htoken := Tiles.token hgap hspells (hends.lineFeed more) (ih (by simpa only [List.append_assoc] using h'))
    simpa only [List.append_assoc, List.cons_append] using htoken

/-- behind a line feed that follows `front`, tokens are further down by the lines of `front` -/
theorem moveDown (front : List Char) (h : Tiles Spells before text ts) :
    Tiles Spells (front ++ '\n' :: before) text (ts.map (Token.moveDown (front.count '\n' + 1))) := by
  induction h with
  | finished hgap => exact .finished hgap
  | @token before gap run rest lexeme ts hgap hspells hends _ ih =>
    have hrest : Tiles Spells (front ++ '\n' :: before ++ gap ++ run) rest
        (ts.map (Token.moveDown (front.count '\n' + 1))) := by
      simpa only [List.append_assoc, List.cons_append] using ih
    have htoken := Tiles.token hgap hspells hends hrest
    rw [List.append_assoc front, List.cons_append, placeAfter_lineFeed] at htoken
    exact htoken

end Tiles

/-- the tokens of a text are those of the first, and those of the second further down -/
theorem tokens_join {first second : String} {ts ts' : List Token} (h : tokens first = .ok ts)
    (h' : tokens second = .ok ts') :
    tokens (first ++ "\n" ++ second) = .ok (ts ++ ts'.map (Token.moveDown (first.toList.count '\n' + 1))) := by
  have htiles : Tiles Spells [] first.toList ts :=
    Cursor.tiles_of_drain (c := .ofText first) rfl (tokens_eq_ok_drain.1 h)
  have htiles' : Tiles Spells [] second.toList ts' :=
    Cursor.tiles_of_drain (c := .ofText second) rfl (tokens_eq_ok_drain.1 h')
  have hrest : (Cursor.ofText (first ++ "\n" ++ second)).rest = first.toList ++ '\n' :: second.toList := by
    simp [Cursor.ofText]
  have hjoined := htiles.join (htiles'.moveDown first.toList)
  rw [← hrest] at hjoined
  exact tokens_eq_ok_drain.2 (Cursor.drain_of_tiles rfl hjoined)

/-! ## Data -/

mutual

def Form.moveDown (lines : Nat) : Form → Form
  | .atom a pos => .atom a (pos.moveDown lines)
  | .list start elements stop => .list (start.moveDown lines) (elements.moveDown lines) (stop.moveDown lines)
  | .sigil s pos operand => .sigil s (pos.moveDown lines) (operand.moveDown lines)

def Elements.moveDown (lines : Nat) : Elements → Elements
  | .nil => .nil
  | .form f others => .form (f.moveDown lines) (others.moveDown lines)
  | .dot pos others => .dot (pos.moveDown lines) (others.moveDown lines)

end

section Derivations

variable (lines : Nat)

mutual

theorem Form.tokens_moveDown (f : Form) : (f.moveDown lines).tokens = f.tokens.map (Token.moveDown lines) := by
  match f with
  | .atom a pos => rfl
  | .list start elements stop =>
    rw [Form.moveDown, Form.tokens, elements.tokens_moveDown, Form.tokens, List.map_cons, List.map_append]
    rfl
  | .sigil s pos operand =>
    rw [Form.moveDown, Form.tokens, operand.tokens_moveDown, Form.tokens, List.map_cons]
    rfl

theorem Elements.tokens_moveDown (es : Elements) :
    (es.moveDown lines).tokens = es.tokens.map (Token.moveDown lines) := by
  match es with
  | .nil => rfl
  | .form f others =>
    rw [Elements.moveDown, Elements.tokens, f.tokens_moveDown, others.tokens_moveDown, Elements.tokens, List.map_append]
  | .dot pos others =>
    rw [Elements.moveDown, Elements.tokens, others.tokens_moveDown, Elements.tokens, List.map_cons]
    rfl

end

theorem Atom.datum_moveDown (a : Atom) (m : Mark) : (a.datum m).moveDown lines = a.datum (m.moveDown lines) := by
  cases a with
  | identifier name => exact Datum.moveDown_ofIdentifier lines name m
  | _ => rfl

mutual

theorem Form.datum_moveDown (f : Form) : (f.moveDown lines).datum = f.datum.moveDown lines := by
  match f with
  | .atom a pos => rw [Form.moveDown, Form.datum, Form.datum, a.datum_moveDown, pos.mark_moveDown]
  | .list start elements stop =>
    rw [Form.moveDown, Form.datum, Form.datum, Datum.moveDown_withMark, Datum.moveDown_ofList, elements.data_moveDown,
      start.mark_moveDown]
  | .sigil s pos operand =>
    rw [Form.moveDown, Form.datum, Form.datum, Datum.moveDown_withMark, Datum.moveDown_ofList, operand.datum_moveDown,
      pos.mark_moveDown]
    rfl

theorem Elements.data_moveDown (es : Elements) : (es.moveDown lines).data = es.data.map (Datum.moveDown lines) := by
  match es with
  | .nil => rfl
  | .form f others =>
    rw [Elements.moveDown, Elements.data, f.datum_moveDown, others.data_moveDown, Elements.data, List.map_cons]
  | .dot pos others =>
    rw [Elements.moveDown, Elements.data, others.data_moveDown, pos.mark_moveDown, Elements.data, List.map_cons]
    rfl

end

end Derivations

/-- **A text is read as the first, and then the second further down.** If both texts are read, so is the text with a
line feed between them: as the data of the first, and those of the second moved down by one line more than the first
has line feeds -/
theorem readText_join {first second : String} {ds ds' : List Datum} (h : readText first = .ok ds)
    (h' : readText second = .ok ds') :
    readText (first ++ "\n" ++ second) = .ok (ds ++ ds'.map (Datum.moveDown (first.toList.count '\n' + 1))) := by
  obtain ⟨fs, htokens, rfl⟩ := readText_eq_ok_iff.1 h
  obtain ⟨fs', htokens', rfl⟩ := readText_eq_ok_iff.1 h'
  let lines := first.toList.count '\n' + 1
  have hmoved : Form.allTokens (fs'.map (Form.moveDown lines)) = (Form.allTokens fs').map (Token.moveDown lines) := by
    simp only [Form.allTokens, List.flatMap_map, List.map_flatMap, Form.tokens_moveDown]
  refine readText_eq_ok_iff.2 ⟨fs ++ fs'.map (Form.moveDown lines), ?_, ?_⟩
  · rw [Form.allTokens, List.flatMap_append, ← Form.allTokens, ← Form.allTokens, hmoved]
    exact tokens_join htokens htokens'
  · simp only [List.map_append, List.map_map, lines, Function.comp_def, Form.datum_moveDown]

end SchemeStack
