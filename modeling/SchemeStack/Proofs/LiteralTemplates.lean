/-
A template in which nothing is to be evaluated is a quotation.

The two expansions go through a datum in different ways. A quotation splits a list at its dot and builds it at once. A
template first looks for a keyword at the head of the list: behind an unquote or a quasiquote it goes on with the rest
of the list as a list of its own, one level lower or higher. `Datum.visits` lists what a template comes to on its way,
each with its level and with whether it is an element of a list; `Visit.isActive` singles out the unquotes at level
one, and the unquote-splicings there that are elements.

`template_quotes`: if no visit is active and the template can be expanded, then the datum can be quoted, and both are
the same expression. The proof is by induction on the size of the datum (`literal`), for a datum as a whole and as the
rest of a list. The list behind a keyword is built alike by both, since it has one element, which is no dot
(`quote_nested`).
-/
import SchemeStack.Proofs.TemplateMeaning

namespace SchemeStack

open SchemeStack.Source

/-! ## What a template comes to -/

/-- a datum that the expansion of a template comes to -/
structure Visit where
  datum : Datum
  level : Nat
  /-- the datum is an element of a list -/
  inList : Bool

namespace Datum

/-- a list with the keyword at its head -/
def isForm (word : Keyword) : Datum → Bool
  | pair (kw w _) _ _ => w == word
  | _ => false

mutual

/-- what the expansion of a datum at a level comes to, the datum first; the operand of an unquote at level one is no
part of it -/
def visits : Datum → (level : Nat) → (inList : Bool) → List Visit
  | pair (kw .unquote k) args m, level, inList =>
    ⟨pair (kw .unquote k) args m, level, inList⟩ :: if level = 1 then [] else args.visits (level - 1) false
  | pair (kw .unquoteSplicing k) args m, level, inList =>
    ⟨pair (kw .unquoteSplicing k) args m, level, inList⟩ :: if level = 1 then [] else args.visits (level - 1) false
  | pair (kw .quasiquote k) args m, level, inList =>
    ⟨pair (kw .quasiquote k) args m, level, inList⟩ :: args.visits (level + 1) false
  | pair head tail m, level, inList =>
    ⟨pair head tail m, level, inList⟩ :: (head.visits level true ++ tail.visitsRest level)
  | d, level, inList => [⟨d, level, inList⟩]

/-- what the expansion of the rest of a list comes to; what follows a dot is its end -/
def visitsRest : Datum → (level : Nat) → List Visit
  | pair (kw .dot _) (pair last nil _) _, level => last.visits level false
  | pair head tail _, level => head.visits level true ++ tail.visitsRest level
  | _, _ => []

end

end Datum

/-- an unquote at level one, or an unquote-splicing at level one that is an element of a list -/
def Visit.isActive (v : Visit) : Bool :=
  v.level == 1 && (v.datum.isForm .unquote || v.inList && v.datum.isForm .unquoteSplicing)

/-- nothing that the visits come to is to be evaluated -/
def Inactive (visits : List Visit) : Prop := ∀ v ∈ visits, v.isActive = false

instance (visits : List Visit) : Decidable (Inactive visits) := inferInstanceAs (Decidable (∀ v ∈ visits, _))

theorem Inactive.head {v : Visit} {visits : List Visit} (h : Inactive (v :: visits)) : v.isActive = false :=
  h v List.mem_cons_self

theorem Inactive.tail {v : Visit} {visits : List Visit} (h : Inactive (v :: visits)) : Inactive visits :=
  fun v' hv' => h v' (List.mem_cons_of_mem v hv')

theorem inactive_append {vs vs' : List Visit} : Inactive (vs ++ vs') ↔ Inactive vs ∧ Inactive vs' :=
  List.forall_mem_append

/-! ## Lists behind a keyword -/

theorem Part.onto_element {p : Part} (h : p.isSplice = false) (rest : Expr) : p.onto rest = .consCall p.expr rest := by
  cases p with
  | element e => rfl
  | splice e => cases h

namespace Datum

variable {x : Datum} {word : Keyword} {k m m' : Mark} {e : Expr}

/-- a list of one element is quoted alike as a whole and as the rest of a list, and its element is no dot -/
theorem quoteRest_single (h : (pair x nil m).quote = .ok e) : (pair x nil m).quoteRest = .ok e ∧ x.isDot = false := by
  rw [quote] at h
  split at h
  · cases h
  · rename_i hnone
    refine ⟨?_, ?_⟩
    · rw [quoteRest]
      · exact h
      · intro _ _ _ _ hcons
        cases hcons
    · cases hdot : x.isDot with
      | false => rfl
      | true => simp [dottedFault?_eq, elements, List.findIdx?_cons, hdot] at hnone

/-- a keyword in front of a list of one element -/
theorem quote_nested (hword : word ≠ .dot) (h : (pair x nil m).quote = .ok e) :
    (pair (kw word k) (pair x nil m) m').quote = .ok (.consCall (.quotation (kw word k)) e) := by
  obtain ⟨hrest, hdot⟩ := quoteRest_single h
  have hhead : (kw word k).isDot = false := by
    cases word with
    | dot => exact absurd rfl hword
    | _ => rfl
  have hnone : (pair (kw word k) (pair x nil m) m').dottedFault? = none := by
    simp [dottedFault?_eq, elements, List.findIdx?_cons, hhead, hdot]
  rw [quote, hnone, hrest]
  rfl

end Datum

/-! ## Expansion -/

namespace Analysis

/-- where nothing is to be evaluated, the template of the datum is its quotation, as a whole and as the rest of a list
-/
structure Literal (d : Datum) : Prop where
  template : ∀ level inList, Inactive (d.visits level inList) →
    Ensures (fun p : Part => p.isSplice = false ∧ d.quote = .ok p.expr) (template d level inList).outcome
  templateRest : ∀ level, Inactive (d.visitsRest level) →
    Ensures (fun e => d.quoteRest = .ok e) (templateRest d level).outcome

/-- behind a keyword the expansion goes on with the rest of the list -/
theorem nested_literal {word : Keyword} (hword : word ≠ .dot) {x : Datum} {k m m' : Mark} {level : Nat}
    (ih : Literal (.pair x .nil m)) (h : Inactive ((Datum.pair x .nil m).visits level false)) :
    Ensures (fun p : Part => p.isSplice = false ∧ (Datum.pair (.kw word k) (.pair x .nil m) m').quote = .ok p.expr)
      (template (.pair x .nil m) level false >>= fun part =>
        pure (.element (.consCall (.quotation (.kw word k)) part.expr))).outcome := by
  refine .andThen (ih.template level false h) fun part hpart => .ok ⟨rfl, ?_⟩
  exact Datum.quote_nested hword hpart.2

/-- a list without such a keyword: its parts are quoted, whatever is then made of the call that joins them -/
theorem listed_literal {β : Type} (make : Expr → β) {head tail : Datum} {level : Nat} (ihhead : Literal head)
    (ihtail : Literal tail) (hhead : Inactive (head.visits level true)) (htail : Inactive (tail.visitsRest level)) :
    Ensures (fun b => ∃ first rest, head.quote = .ok first ∧ tail.quoteRest = .ok rest ∧
      b = make (.consCall first rest))
      (templateRest tail level >>= fun rest => template head level true >>= fun part =>
        pure (make (part.onto rest))).outcome := by
  refine .andThen (ihtail.templateRest level htail) fun rest hrest => ?_
  refine .andThen (ihhead.template level true hhead) fun part hpart => .ok ⟨part.expr, rest, hpart.2, hrest, ?_⟩
  rw [Part.onto_element hpart.1]

theorem template_literal {d : Datum} (ih : d.Below Literal) (level : Nat) (inList : Bool)
    (h : Inactive (d.visits level inList)) :
    Ensures (fun p : Part => p.isSplice = false ∧ d.quote = .ok p.expr) (template d level inList).outcome := by
  rw [template_eq]
  split
  · split
    · exact .error _
    · rename_i hnone
      obtain ⟨x, m, rfl⟩ := single_of_operandFault? hnone
      rw [Datum.visits] at h
      split
      · -- an unquote at level one is active
        rename_i hlevel
        subst hlevel
        cases h.head
      · rename_i hlevel
        have hargs := h.tail
        rw [if_neg hlevel] at hargs
        exact nested_literal (by simp) ih.tail hargs
  · split
    · exact .error _
    · rename_i hnone
      obtain ⟨x, m, rfl⟩ := single_of_operandFault? hnone
      rw [Datum.visits] at h
      split
      · rename_i hlevel
        subst hlevel
        split
        · rename_i hlist
          subst hlist
          cases h.head
        · exact .error _
      · rename_i hlevel
        have hargs := h.tail
        rw [if_neg hlevel] at hargs
        exact nested_literal (by simp) ih.tail hargs
  · split
    · exact .error _
    · rename_i hnone
      obtain ⟨x, m, rfl⟩ := single_of_operandFault? hnone
      rw [Datum.visits] at h
      exact nested_literal (by simp) ih.tail h.tail
  · rename_i head tail m hunquote hsplice hquasi
    split
    · exact .error _
    · rename_i hnone
      rw [Datum.visits] at h
      · obtain ⟨hhead, htail⟩ := inactive_append.1 h.tail
        refine .imp (listed_literal Part.element ih.head ih.tail hhead htail) ?_
        rintro _ ⟨first, rest, hfirst, hrest, rfl⟩
        rw [Datum.quote, hnone, hrest, hfirst]
        exact ⟨rfl, rfl⟩
      · exact hunquote
      · exact hsplice
      · exact hquasi
  · rename_i hpair
    cases d with
    | pair head tail m => exact (hpair _ _ _ rfl).elim
    | _ => exact .ok ⟨rfl, rfl⟩

theorem templateRest_literal {d : Datum} (ih : d.Below Literal) (level : Nat) (h : Inactive (d.visitsRest level)) :
    Ensures (fun e => d.quoteRest = .ok e) (templateRest d level).outcome := by
  rw [templateRest.eq_def]
  split
  · refine .andThen (ih.inTail.head.template level false h) fun part hpart => .ok ?_
    exact hpart.2
  · rename_i head tail m hdot
    rw [Datum.visitsRest] at h
    · obtain ⟨hhead, htail⟩ := inactive_append.1 h
      refine .imp (listed_literal (fun e => e) ih.head ih.tail hhead htail) ?_
      rintro _ ⟨first, rest, hfirst, hrest, rfl⟩
      rw [Datum.quoteRest, hrest, hfirst]
      · rfl
      · exact hdot
    · exact hdot
  · rename_i hpair
    cases d with
    | pair head tail m => exact (hpair _ _ _ rfl).elim
    | _ => exact .ok rfl

theorem literal (d : Datum) : Literal d := d.below_induct fun _ ih => ⟨template_literal ih, templateRest_literal ih⟩

end Analysis

/-- **A template in which nothing is to be evaluated is a quotation.** If no unquote, and no unquote-splicing that is
an element of a list, is met at level one when the datum is expanded from a level on, and the expansion succeeds, then
quoting the datum succeeds and yields the same expression -/
theorem template_quotes (d : Datum) (level : Nat) (h : Inactive (d.visits level false)) (part : Part)
    (hpart : (Analysis.template d level false).outcome = .ok part) : d.quote = .ok part.expr :=
  ((Analysis.literal d).template level false h part hpart).2

/-- a nested template with an unquote and a splice, of which one level is left, and another behind the dot -/
theorem nested_template_quoted :
    let w := fun word => Datum.kw word .unknown
    let s := fun name => Datum.sym name .unknown
    let d := Datum.ofList [s "a", .ofList [w .quasiquote, .ofList [s "b", .ofList [w .unquote, .ofList [s "c", .nil]],
      .ofList [w .unquoteSplicing, s "d"]]], w .dot, .ofList [w .quasiquote, .ofList [w .unquote, s "e"]]]
    Inactive (d.visits 1 false) ∧ ∃ e, (Analysis.template d 1 false).outcome = .ok (.element e) ∧ d.quote = .ok e := by
  intro w s d
  have hinactive : Inactive (d.visits 1 false) := by decide
  exact ⟨hinactive, _, rfl, template_quotes d 1 hinactive (.element _) rfl⟩

end SchemeStack
