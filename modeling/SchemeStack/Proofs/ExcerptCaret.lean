/-
An excerpt ends with the line of its place and a caret below the place.

The lines of a text are what stands between its line feeds, so texts are taken apart and put together line by line
(`linesOf_append`, `linesOf_joinLines`). Behind the characters `before` the line with the number of their line feeds
goes on: it is `lineStart before`, the characters since the last line feed, with what comes behind up to the next one
(`getElem?_linesOf`).

`render_lines`: whatever number of lines leads up to it, a diagnostic of a place in its text ends with that line under
its number, and with a line of spaces and a caret. The spaces are as many as the characters that are shown in front of
the place: the label of the line, whose width depends on the number, and the start of the line (`shownBefore`).
-/
import SchemeStack.Proofs.ScannerTiling

namespace SchemeStack

open SchemeStack.Source SchemeStack.Text

/-! ## Lines -/

theorem linesOf_eq_splitOnP (cs : List Char) : linesOf cs = cs.splitOnP (· == '\n') := by
  induction cs with
  | nil => rfl
  | cons c cs ih =>
    rw [List.splitOnP_cons_eq_if_modifyHead, ← ih]
    by_cases hc : c = '\n'
    · subst hc
      rfl
    · obtain ⟨line, more, hlines⟩ : ∃ line more, linesOf cs = line :: more :=
        List.exists_cons_of_ne_nil (ih ▸ List.splitOnP_ne_nil _ cs)
      simp [linesOf, hc, hlines]

theorem linesOf_append (a b : List Char) : linesOf (a ++ '\n' :: b) = linesOf a ++ linesOf b := by
  simp only [linesOf_eq_splitOnP]
  exact List.splitOnP_append_cons a b rfl

theorem linesOf_eq_singleton {cs : List Char} (h : '\n' ∉ cs) : linesOf cs = [cs] := by
  rw [linesOf_eq_splitOnP]
  exact List.splitOn_eq_singleton h

/-- a line for each line feed, and one more -/
theorem length_linesOf (cs : List Char) : (linesOf cs).length = cs.count '\n' + 1 := by
  rw [linesOf_eq_splitOnP]
  induction cs with
  | nil => rfl
  | cons c cs ih =>
    rw [List.splitOnP_cons_eq_if_modifyHead]
    by_cases hc : c = '\n' <;> simp [hc, ih]

/-- the first line goes up to the first line feed -/
theorem head?_linesOf (cs : List Char) : (linesOf cs).head? = some (cs.takeWhile (· != '\n')) := by
  rw [linesOf_eq_splitOnP]
  induction cs with
  | nil => rfl
  | cons c cs ih =>
    rw [List.splitOnP_cons_eq_if_modifyHead]
    by_cases hc : c = '\n' <;> simp [hc, ih]

/-- the lines of texts that are put together are the lines of each -/
theorem linesOf_joinLines {lines : List String} (h : lines ≠ []) :
    linesOf (joinLines lines).toList = lines.flatMap fun line => linesOf line.toList := by
  rw [joinLines, String.toList_intercalate]
  induction lines with
  | nil => exact absurd rfl h
  | cons line lines ih =>
    cases lines with
    | nil => simp
    | cons next lines =>
      have hjoin := ih (by simp)
      rw [List.map_cons, List.map_cons, List.intercalate_cons_cons, List.append_assoc, List.flatMap_cons, ← hjoin]
      exact linesOf_append _ _

/-! ## The line of a place -/

/-- the characters since the last line feed -/
def lineStart (before : List Char) : List Char := (before.reverse.takeWhile (· != '\n')).reverse

theorem not_mem_takeWhile (cs : List Char) : '\n' ∉ cs.takeWhile (· != '\n') := by
  intro hmem
  simpa using List.mem_takeWhile_imp hmem

theorem not_mem_lineStart (before : List Char) : '\n' ∉ lineStart before := by
  rw [lineStart, List.mem_reverse]
  exact not_mem_takeWhile _

/-- in front of the start of a line are a line feed and the lines above, or nothing -/
theorem lineStart_cases (before : List Char) :
    before = lineStart before ∨ ∃ above, before = above ++ '\n' :: lineStart before := by
  have hcut : before = (before.reverse.dropWhile (· != '\n')).reverse ++ lineStart before := by
    rw [lineStart, ← List.reverse_append, List.takeWhile_append_dropWhile, List.reverse_reverse]
  cases hdrop : before.reverse.dropWhile (· != '\n') with
  | nil =>
    rw [hdrop] at hcut
    exact Or.inl hcut
  | cons c above =>
    have hc := head?_dropWhile (· != '\n') before.reverse c (by rw [hdrop]; rfl)
    rw [hdrop, show c = '\n' by simpa using hc] at hcut
    exact Or.inr ⟨above.reverse, by simpa using hcut⟩

/-- the line in which some characters end goes on up to the next line feed behind them -/
theorem getElem?_linesOf (before rest : List Char) :
    (linesOf (before ++ rest))[before.count '\n']? = some (lineStart before ++ rest.takeWhile (· != '\n')) := by
  have hfirst : (linesOf (lineStart before ++ rest))[0]? = some (lineStart before ++ rest.takeWhile (· != '\n')) := by
    rw [← List.head?_eq_getElem?, head?_linesOf, List.takeWhile_append_of_pos]
    intro c hc
    simp only [bne_iff_ne]
    rintro rfl
    exact not_mem_lineStart before hc
  have hnone : (lineStart before).count '\n' = 0 := List.count_eq_zero.2 (not_mem_lineStart before)
  rcases lineStart_cases before with hbefore | ⟨above, habove⟩
  · have hcount : before.count '\n' = 0 := by
      rw [hbefore]
      exact hnone
    rw [hcount]
    rwa [← hbefore] at hfirst ⊢
  · have hcount : before.count '\n' = (linesOf above).length := by
      rw [length_linesOf, habove, List.count_append, List.count_cons_self, hnone]
    have hlines : linesOf (before ++ rest) = linesOf above ++ linesOf (lineStart before ++ rest) := by
      rw [← linesOf_append, ← List.cons_append, ← List.append_assoc, ← habove]
    rw [hlines, hcount, List.getElem?_append_right (Nat.le_refl _), Nat.sub_self, hfirst]

/-! ## The end of an excerpt -/

/-- what is shown in front of a place on its line: the number of the line between bars, a space, the start of the line
-/
def shownBefore (before : List Char) : List Char :=
  '|' :: (toString (before.count '\n' + 1)).toList ++ ['|', ' '] ++ lineStart before

theorem not_mem_shownBefore (before : List Char) : '\n' ∉ shownBefore before := by
  have hnumber : '\n' ∉ Nat.toDigits 10 (before.count '\n' + 1) := by
    intro hmem
    cases Nat.isDigit_of_mem_toDigits (by omega) (by omega) hmem
  simp [shownBefore, hnumber, not_mem_lineStart]

/-- an excerpt ends with the line of the place, whose number fills its column, and the caret -/
theorem excerpt_ends (text : String) (line column n : Nat) :
    ∃ above, excerpt text line column n .plain = joinLines (above ++
      ["|" ++ toString (line + 1) ++ "| " ++ String.ofList ((linesOf text.toList).getD line []),
        spaces ((toString (line + 1)).length + 3 + column) ++ "^"]) := by
  have hnumber : toString ((line : Int) + 1) = toString (line + 1) := rfl
  obtain ⟨first, hfirst⟩ : ∃ first, ((line : Int) - n).toNat = first := ⟨_, rfl⟩
  obtain ⟨k, hk⟩ : ∃ k, line = first + k := ⟨line - first, by omega⟩
  have hcount : ((line : Int) + 1 - (first : Int)).toNat = k + 1 := by omega
  have hspaces (w : Nat) : ((w : Int) + 3 + (column : Int)).toNat = w + 3 + column := by omega
  have hunpadded : alignRight (toString (line + 1)).length (toString (line + 1)) = toString (line + 1) := by
    simp [alignRight, spaces]
  refine ⟨(List.range k).map fun i => excerptLine (toString (line + 1)).length (first + i + 1)
    ((linesOf text.toList).getD (first + i) []), ?_⟩
  simp only [excerpt, hnumber, hfirst, hcount, hspaces, List.range_succ, List.map_append, List.map_cons, List.map_nil,
    ← hk, excerptLine, hunpadded, CaretStyle.plain]
  simp

section Place

variable {text : String} {before after : List Char} {c : Char}

/-- an excerpt at a place in front of `c` has the line of `c`, and the caret in the column of `c` -/
theorem linesOf_excerpt (htext : text.toList = before ++ c :: after) (hc : c ≠ '\n') (n : Nat) :
    ∃ above, linesOf (excerpt text (placeAfter before).line (placeAfter before).column n .plain).toList = above ++
      [shownBefore before ++ c :: after.takeWhile (· != '\n'),
        List.replicate (shownBefore before).length ' ' ++ ['^']] := by
  obtain ⟨above, habove⟩ := excerpt_ends text (placeAfter before).line (placeAfter before).column n
  have hline : (linesOf text.toList)[before.count '\n']? =
      some (lineStart before ++ c :: after.takeWhile (· != '\n')) := by
    have hkeep : (c != '\n') = true := by simpa using hc
    rw [htext, getElem?_linesOf, List.takeWhile_cons, if_pos hkeep]
  have hshown : ("|" ++ toString ((placeAfter before).line + 1) ++ "| " ++
      String.ofList ((linesOf text.toList).getD (placeAfter before).line [])).toList =
        shownBefore before ++ c :: after.takeWhile (· != '\n') := by
    simp [placeAfter, hline, shownBefore]
  have hwidth : (toString ((placeAfter before).line + 1)).length + 3 + (placeAfter before).column =
      (shownBefore before).length := by
    simp only [shownBefore, lineStart, placeAfter, List.length_append, List.length_cons, List.length_nil,
      List.length_reverse, String.length_toList]
  have hcaret : (spaces (shownBefore before).length ++ "^").toList =
      List.replicate (shownBefore before).length ' ' ++ ['^'] := by
    simp [spaces]
  have hplain : '\n' ∉ shownBefore before ++ c :: after.takeWhile (· != '\n') := by
    simp [not_mem_shownBefore, not_mem_takeWhile, Ne.symm hc]
  refine ⟨above.flatMap fun line => linesOf line.toList, ?_⟩
  rw [habove, linesOf_joinLines (by simp), List.flatMap_append, List.flatMap_cons, List.flatMap_cons, List.flatMap_nil,
    hshown, hwidth, hcaret, linesOf_eq_singleton hplain, linesOf_eq_singleton (by simp)]
  rfl

/-- **The caret stands below the place.** A diagnostic at a place in its text, in front of a character that ends no
line, is shown on lines of which the last two are the numbered line with that character, and a caret in the column of
the character -/
theorem render_lines {d : Diagnostic} (hsource : d.source = some text) (htext : text.toList = before ++ c :: after)
    (hmark : d.mark = (placeAfter before).mark) (hc : c ≠ '\n') (n : Nat) :
    ∃ above, linesOf (d.render n).toList = above ++
      [shownBefore before ++ c :: after.takeWhile (· != '\n'),
        List.replicate (shownBefore before).length ' ' ++ ['^']] := by
  have hrender : d.render n = d.brief ++ "\n" ++ excerpt text (placeAfter before).line
      (placeAfter before).column n .plain := by
    rw [Diagnostic.render, Diagnostic.excerpt?, hsource, hmark]
    rfl
  obtain ⟨above, habove⟩ := linesOf_excerpt htext hc n
  refine ⟨linesOf d.brief.toList ++ above, ?_⟩
  rw [hrender, String.toList_append, String.toList_append, show "\n".toList = ['\n'] from rfl, List.append_assoc,
    List.singleton_append, linesOf_append, habove, List.append_assoc]

end Place

end SchemeStack
