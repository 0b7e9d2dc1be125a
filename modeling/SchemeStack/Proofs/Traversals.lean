/-
Walking over an expression with a stack comes to the same as recursion.

An occurrence of a node is the node with its address: for each step down from the root, the number of the part to go
to, where the parts are numbered in the order of their evaluation (`OccursAt`). `occurrences` lists all of them by
recursion, each node before what is inside it. So the addresses increase in lexicographic order, where an address is
before those that go on from it; no occurrence is listed twice, and none is missing (`occurrences_increasing`,
`mem_occurrences`).

`traversals_recursive` compares this with what works off a stack.
- The walk over all nodes yields the nodes of the occurrences, in order.
- There is an effect if an assignment occurs anywhere or, with calls counted, if a call occurs outside of procedures:
  the address of the call goes through none.
- Interning the names of an expression puts the names that are new behind those of the table, once each, in the order
  in which they first appear in the walk. No number changes.

Occurrences are said for each construct, the traversals go by children. The two meet in one step, from an expression
to its children (`occurrences_eq`, `occursAt_cons`, `outside_cons`); all else is induction over children.
-/
import SchemeStack.Proofs.Effects
import SchemeStack.Proofs.TableRuns

namespace SchemeStack

namespace Core

/-! ## Occurrences -/

/-- the node occurs in the expression at the address -/
inductive OccursAt : (e : Core) → (address : List Nat) → (n : Core) → Prop
  | root (e : Core) : OccursAt e [] e
  | value {x : String} {v b n : Core} {p : List Nat} : OccursAt v p n → OccursAt (letIn x v b) (0 :: p) n
  | body {x : String} {v b n : Core} {p : List Nat} : OccursAt b p n → OccursAt (letIn x v b) (1 :: p) n
  | procedure {ps : List String} {r : Option String} {b n : Core} {p : List Nat} :
    OccursAt b p n → OccursAt (lambda ps r b) (0 :: p) n
  | operand {f a n : Core} {as : List Core} {i : Nat} {p : List Nat} :
    as[i]? = some a → OccursAt a p n → OccursAt (app f as) (i :: p) n
  | operator {f n : Core} {as : List Core} {p : List Nat} : OccursAt f p n → OccursAt (app f as) (as.length :: p) n
  | test {t c n : Core} {a : Option Core} {p : List Nat} : OccursAt t p n → OccursAt (branch t c a) (0 :: p) n
  | consequent {t c n : Core} {a : Option Core} {p : List Nat} : OccursAt c p n → OccursAt (branch t c a) (1 :: p) n
  | alternative {t c a n : Core} {p : List Nat} : OccursAt a p n → OccursAt (branch t c (some a)) (2 :: p) n
  | assigned {x : String} {v n : Core} {p : List Nat} : OccursAt v p n → OccursAt (assign x v) (0 :: p) n

/-- the occurrences in a part, seen from the expression that has it at this number -/
def inPart (i : Nat) (part : List (List Nat × Core)) : List (List Nat × Core) := part.map fun o => (i :: o.1, o.2)

mutual

/-- the nodes of an expression with their addresses: the root, then those of each part in the order of evaluation -/
def occurrences : Core → List (List Nat × Core)
  | var name => [([], var name)]
  | val v => [([], val v)]
  | quote v => [([], quote v)]
  | letIn name value body => ([], letIn name value body) :: (inPart 0 value.occurrences ++ inPart 1 body.occurrences)
  | lambda params rest body => ([], lambda params rest body) :: inPart 0 body.occurrences
  | app operator operands =>
    ([], app operator operands) :: (occurrencesFrom 0 operands ++ inPart operands.length operator.occurrences)
  | branch test consequent none =>
    ([], branch test consequent none) :: (inPart 0 test.occurrences ++ inPart 1 consequent.occurrences)
  | branch test consequent (some alternative) =>
    ([], branch test consequent (some alternative)) ::
      (inPart 0 test.occurrences ++ inPart 1 consequent.occurrences ++ inPart 2 alternative.occurrences)
  | assign name value => ([], assign name value) :: inPart 0 value.occurrences

/-- the occurrences in several parts, numbered from `first` on -/
def occurrencesFrom (first : Nat) : List Core → List (List Nat × Core)
  | [] => []
  | e :: es => inPart first e.occurrences ++ occurrencesFrom (first + 1) es

end

variable {e n : Core} {p q : List Nat} {i first : Nat} {cs : List Core}

theorem occurrencesFrom_append (as bs : List Core) :
    occurrencesFrom first (as ++ bs) = occurrencesFrom first as ++ occurrencesFrom (first + as.length) bs := by
  induction as generalizing first with
  | nil => rfl
  | cons a as ih =>
    rw [List.cons_append, occurrencesFrom, occurrencesFrom, ih, List.append_assoc, List.length_cons,
      Nat.add_comm as.length, Nat.add_assoc]

theorem occurrencesFrom_single (c : Core) : occurrencesFrom first [c] = inPart first c.occurrences := List.append_nil _

/-- the occurrences are the root and those in its children -/
theorem occurrences_eq (e : Core) : e.occurrences = ([], e) :: occurrencesFrom 0 e.children := by
  cases e with
  | var name => rfl
  | val v => rfl
  | quote v => rfl
  | letIn name value body => rw [occurrences, children, occurrencesFrom, occurrencesFrom_single]
  | lambda params rest body => rw [occurrences, children, occurrencesFrom_single]
  | app operator operands =>
    rw [occurrences, children, occurrencesFrom_append, occurrencesFrom_single, Nat.zero_add]
  | branch test consequent alternative =>
    cases alternative with
    | none => rw [occurrences, children, occurrencesFrom, occurrencesFrom_single]
    | some alternative =>
      rw [occurrences, children, occurrencesFrom, occurrencesFrom, occurrencesFrom_single, List.append_assoc]
  | assign name value => rw [occurrences, children, occurrencesFrom_single]

theorem occursAt_nil : e.OccursAt [] n ↔ n = e := by
  constructor
  · intro h
    cases h
    rfl
  · rintro rfl
    exact .root n

/-- what occurs deeper occurs in a child, the one that the address names first -/
theorem occursAt_cons : e.OccursAt (i :: p) n ↔ ∃ c, e.children[i]? = some c ∧ c.OccursAt p n := by
  constructor
  · intro h
    cases h with
    | value h => exact ⟨_, rfl, h⟩
    | body h => exact ⟨_, rfl, h⟩
    | procedure h => exact ⟨_, rfl, h⟩
    | operand hi h =>
      obtain ⟨hlt, -⟩ := List.getElem?_eq_some_iff.1 hi
      exact ⟨_, (List.getElem?_append_left hlt).trans hi, h⟩
    | operator h => exact ⟨_, List.getElem?_concat_length, h⟩
    | @test _ _ _ a _ h => cases a <;> exact ⟨_, rfl, h⟩
    | @consequent _ _ _ a _ h => cases a <;> exact ⟨_, rfl, h⟩
    | alternative h => exact ⟨_, rfl, h⟩
    | assigned h => exact ⟨_, rfl, h⟩
  · rintro ⟨c, hc, h⟩
    cases e with
    | var name => cases hc
    | val v => cases hc
    | quote v => cases hc
    | letIn name value body =>
      rcases i with _ | _ | i
      · cases hc; exact .value h
      · cases hc; exact .body h
      · cases hc
    | lambda params rest body =>
      rcases i with _ | i
      · cases hc; exact .procedure h
      · cases hc
    | app operator operands =>
      change (operands ++ [operator])[i]? = some c at hc
      rcases Nat.lt_or_ge i operands.length with hi | hi
      · exact .operand ((List.getElem?_append_left hi).symm.trans hc) h
      · rw [List.getElem?_append_right hi, List.getElem?_singleton] at hc
        split at hc
        · obtain rfl : i = operands.length := by omega
          cases hc
          exact .operator h
        · cases hc
    | branch test consequent alternative =>
      cases alternative with
      | none =>
        rcases i with _ | _ | i
        · cases hc; exact .test h
        · cases hc; exact .consequent h
        · cases hc
      | some alternative =>
        rcases i with _ | _ | _ | i
        · cases hc; exact .test h
        · cases hc; exact .consequent h
        · cases hc; exact .alternative h
        · cases hc
    | assign name value =>
      rcases i with _ | i
      · cases hc; exact .assigned h
      · cases hc

/-! ## The walk -/

theorem mem_inPart {part : List (List Nat × Core)} : (p, n) ∈ inPart i part ↔ ∃ q, p = i :: q ∧ (q, n) ∈ part := by
  simp only [inPart, List.mem_map, Prod.exists, Prod.mk.injEq]
  constructor
  · rintro ⟨q, m, hmem, rfl, rfl⟩
    exact ⟨q, rfl, hmem⟩
  · rintro ⟨q, rfl, hmem⟩
    exact ⟨q, n, hmem, rfl, rfl⟩

theorem mem_occurrencesFrom :
    (p, n) ∈ occurrencesFrom first cs ↔ ∃ i c q, cs[i]? = some c ∧ p = (first + i) :: q ∧ (q, n) ∈ c.occurrences := by
  induction cs generalizing first with
  | nil => simp [occurrencesFrom]
  | cons c cs ih =>
    rw [occurrencesFrom, List.mem_append, mem_inPart, ih]
    constructor
    · rintro (⟨q, rfl, hmem⟩ | ⟨i, d, q, hd, rfl, hmem⟩)
      · exact ⟨0, c, q, rfl, rfl, hmem⟩
      · exact ⟨i + 1, d, q, hd, by rw [Nat.add_assoc, Nat.add_comm 1], hmem⟩
    · rintro ⟨i, d, q, hd, rfl, hmem⟩
      cases i with
      | zero =>
        cases hd
        exact Or.inl ⟨q, rfl, hmem⟩
      | succ i => exact Or.inr ⟨i, d, q, hd, by rw [Nat.add_assoc, Nat.add_comm 1], hmem⟩

/-- **Every occurrence is listed,** and nothing else -/
theorem mem_occurrences : (p, n) ∈ e.occurrences ↔ e.OccursAt p n := by
  induction e using children_induct generalizing p n with
  | step e ih =>
    rw [occurrences_eq, List.mem_cons, mem_occurrencesFrom, Prod.mk.injEq]
    cases p with
    | nil => simp [occursAt_nil]
    | cons i p =>
      rw [occursAt_cons]
      constructor
      · rintro (⟨h, -⟩ | ⟨j, c, q, hc, heq, hmem⟩)
        · cases h
        · rw [Nat.zero_add, List.cons.injEq] at heq
          obtain ⟨rfl, rfl⟩ := heq
          exact ⟨c, hc, (ih c (List.mem_of_getElem? hc)).1 hmem⟩
      · rintro ⟨c, hc, h⟩
        exact Or.inr ⟨i, c, p, hc, by rw [Nat.zero_add], (ih c (List.mem_of_getElem? hc)).2 h⟩

/-- one occurrence has its address before that of another -/
def Precedes (o o' : List Nat × Core) : Prop := List.Lex (· < ·) o.1 o'.1

theorem inPart_increasing {part : List (List Nat × Core)} (h : part.Pairwise Precedes) :
    (inPart i part).Pairwise Precedes :=
  List.pairwise_map.2 (h.imp fun h => .cons h)

theorem occurrencesFrom_increasing (hcs : ∀ c ∈ cs, c.occurrences.Pairwise Precedes) :
    (occurrencesFrom first cs).Pairwise Precedes := by
  induction cs generalizing first with
  | nil => exact .nil
  | cons c cs ih =>
    rw [occurrencesFrom, List.pairwise_append]
    refine ⟨inPart_increasing (hcs c List.mem_cons_self), ih fun d hd => hcs d (List.mem_cons_of_mem c hd), ?_⟩
    -- all of the first part is before the others, whose addresses start with a greater number
    rintro ⟨p, m⟩ hp ⟨p', m'⟩ hp'
    obtain ⟨q, rfl, -⟩ := mem_inPart.1 hp
    obtain ⟨j, d, q', -, rfl, -⟩ := mem_occurrencesFrom.1 hp'
    exact .rel (by omega)

/-- **Occurrences are listed in the order of their addresses** -/
theorem occurrences_increasing (e : Core) : e.occurrences.Pairwise Precedes := by
  induction e using children_induct with
  | step e ih =>
    rw [occurrences_eq, List.pairwise_cons]
    refine ⟨?_, occurrencesFrom_increasing ih⟩
    rintro ⟨p, m⟩ hp
    obtain ⟨j, d, q, -, rfl, -⟩ := mem_occurrencesFrom.1 hp
    exact .nil

theorem nodes_occurrencesFrom (hcs : ∀ c ∈ cs, c.nodes = c.occurrences.map Prod.snd) :
    cs.flatMap nodes = (occurrencesFrom first cs).map Prod.snd := by
  induction cs generalizing first with
  | nil => rfl
  | cons c cs ih =>
    have hpart : (inPart first c.occurrences).map Prod.snd = c.nodes := by
      rw [inPart, List.map_map, hcs c List.mem_cons_self]
      rfl
    rw [List.flatMap_cons, occurrencesFrom, List.map_append, hpart, ← ih fun d hd => hcs d (List.mem_cons_of_mem c hd)]

/-- **The walk yields the nodes of the occurrences,** in order -/
theorem nodes_eq_occurrences (e : Core) : e.nodes = e.occurrences.map Prod.snd := by
  induction e using children_induct with
  | step e ih => rw [nodes_eq, occurrences_eq, List.map_cons, nodes_occurrencesFrom ih]

/-- the operands come before the operator, and what is inside an operand before the next one -/
example : (app (var "f") [assign "x" (var "y"), var "z"]).nodes =
    [app (var "f") [assign "x" (var "y"), var "z"], assign "x" (var "y"), var "y", var "z", var "f"] := by cbv

/-! ## Effects -/

/-- the address, up to its end, leads into no procedure -/
def Outside (e : Core) (p : List Nat) : Prop := ∀ q, q <+: p → ∀ ps r b, ¬ e.OccursAt q (lambda ps r b)

theorem isLambda_eq_false : e.isLambda = false ↔ ∀ ps r b, lambda ps r b ≠ e := by
  constructor
  · rintro h ps r b rfl
    cases h
  · intro h
    cases e with
    | lambda ps r b => exact absurd rfl (h ps r b)
    | _ => rfl

theorem outside_nil : e.Outside [] ↔ e.isLambda = false := by
  simp only [Outside, List.prefix_nil, forall_eq, occursAt_nil, isLambda_eq_false, ne_eq]

/-- an address leads into no procedure if the root is none and, in the child, the rest of it does not either -/
theorem outside_cons {c : Core} (hc : e.children[i]? = some c) :
    e.Outside (i :: p) ↔ e.isLambda = false ∧ c.Outside p := by
  constructor
  · intro h
    refine ⟨outside_nil.1 fun q hq => h q (hq.trans List.nil_prefix), fun q hq ps r b hocc => ?_⟩
    exact h (i :: q) ((List.prefix_cons_inj i).2 hq) ps r b (occursAt_cons.2 ⟨c, hc, hocc⟩)
  · rintro ⟨hroot, h⟩ q hq ps r b hocc
    cases q with
    | nil => exact outside_nil.2 hroot [] List.prefix_rfl ps r b hocc
    | cons j q =>
      obtain ⟨rfl, hqp⟩ := List.cons_prefix_cons.1 hq
      obtain ⟨d, hd, hocc⟩ := occursAt_cons.1 hocc
      obtain rfl : c = d := Option.some.inj (hc.symm.trans hd)
      exact h q hqp ps r b hocc

theorem isEffect_iff {calls : Bool} :
    e.isEffect calls = true ↔ (∃ x v, e = assign x v) ∨ calls = true ∧ ∃ f as, e = app f as := by
  cases e with
  | assign name value => simp [isEffect]
  | app operator operands => simp [isEffect]
  | _ => simp [isEffect]

/-- an expression acts if an assignment occurs in it, or a call that is neither in a procedure of it nor in one around
it -/
theorem actsIn_iff (calls inLambda : Bool) (e : Core) :
    e.actsIn calls inLambda = true ↔ (∃ p x v, e.OccursAt p (assign x v)) ∨
      (calls = true ∧ inLambda = false) ∧ ∃ p f as, e.OccursAt p (app f as) ∧ e.Outside p := by
  induction e using children_induct generalizing inLambda with
  | step e ih =>
    rw [actsIn_eq, Bool.or_eq_true, isEffect_iff, List.any_eq_true, Bool.and_eq_true, Bool.not_eq_true']
    constructor
    · rintro ((⟨x, v, rfl⟩ | ⟨hcalls, f, as, rfl⟩) | ⟨c, hc, hacts⟩)
      · exact Or.inl ⟨[], x, v, .root _⟩
      · exact Or.inr ⟨hcalls, [], f, as, .root _, outside_nil.2 rfl⟩
      · obtain ⟨i, hi⟩ := List.mem_iff_getElem?.1 hc
        rcases (ih c hc _).1 hacts with ⟨p, x, v, hocc⟩ | ⟨⟨hcalls, hin⟩, p, f, as, hocc, hout⟩
        · exact Or.inl ⟨i :: p, x, v, occursAt_cons.2 ⟨c, hi, hocc⟩⟩
        · obtain ⟨hin, hroot⟩ := Bool.or_eq_false_iff.1 hin
          exact Or.inr ⟨⟨hcalls, hin⟩, i :: p, f, as, occursAt_cons.2 ⟨c, hi, hocc⟩, (outside_cons hi).2 ⟨hroot, hout⟩⟩
    · rintro (⟨p, x, v, hocc⟩ | ⟨⟨hcalls, hin⟩, p, f, as, hocc, hout⟩)
      · cases p with
        | nil => exact Or.inl (Or.inl ⟨x, v, (occursAt_nil.1 hocc).symm⟩)
        | cons i p =>
          obtain ⟨c, hi, hocc⟩ := occursAt_cons.1 hocc
          have hc := List.mem_of_getElem? hi
          exact Or.inr ⟨c, hc, (ih c hc _).2 (Or.inl ⟨p, x, v, hocc⟩)⟩
      · cases p with
        | nil => exact Or.inl (Or.inr ⟨⟨hcalls, hin⟩, f, as, (occursAt_nil.1 hocc).symm⟩)
        | cons i p =>
          obtain ⟨c, hi, hocc⟩ := occursAt_cons.1 hocc
          obtain ⟨hroot, hout⟩ := (outside_cons hi).1 hout
          have hc := List.mem_of_getElem? hi
          refine Or.inr ⟨c, hc, (ih c hc _).2 (Or.inr ⟨⟨hcalls, ?_⟩, p, f, as, hocc, hout⟩)⟩
          rw [hin, hroot]
          rfl

/-! ## Names -/

/-- the names that are written at a node, in the order of writing -/
def namesWritten : Core → List String
  | var name => [name]
  | assign name _ => [name]
  | letIn name _ _ => [name]
  | lambda params none _ => params
  | lambda params (some rest) _ => params ++ [rest]
  | _ => []

/-- the names of an expression as they appear, occurrence by occurrence -/
def appearances (e : Core) : List String := e.occurrences.flatMap fun o => o.2.namesWritten

theorem nodeNames_eq_namesWritten (n : Core) : n.nodeNames = n.namesWritten := by
  cases n with
  | lambda params rest body =>
    cases rest with
    | none => exact List.append_nil params
    | some rest => rfl
  | _ => rfl

theorem allNames_eq_appearances (e : Core) : e.allNames = e.appearances := by
  rw [allNames, nodes_eq_occurrences, List.flatMap_map, appearances]
  exact List.flatMap_congr fun o _ => nodeNames_eq_namesWritten o.2

end Core

/-- names that are put behind those of a table get the numbers that follow -/
theorem SymbolTable.register_append {t t' : SymbolTable} {new : List String} (hnames : t'.names = t.names ++ new)
    (hminted : t'.minted = t.minted) :
    t'.toNameRegister = ⟨t.names ++ new, t.numbers ++ new.zipIdx t.size, t.minted⟩ := by
  have hnumbers : t.numbers = t.names.zipIdx := t.inStep
  have hstep : NameRegister.InStep ⟨t.names ++ new, t.numbers ++ new.zipIdx t.size, t.minted⟩ := by
    rw [NameRegister.InStep, hnumbers, List.zipIdx_append, Nat.zero_add]
    rfl
  have hself : t' = ⟨_, hstep⟩ := ext_names hnames hminted
  rw [hself]

/-- **What interning names one after the other puts into a table:** those that it does not have, in the order in which
they are first given -/
theorem SymbolTable.internAll_appends (t : SymbolTable) (names : List String) :
    ∃ new, ((t.internAll names).names = t.names ++ new ∧ (t.internAll names).minted = t.minted) ∧
      (∀ x, x ∈ new ↔ x ∈ names ∧ x ∉ t.names) ∧ new.Pairwise fun x y => names.idxOf x < names.idxOf y := by
  induction names generalizing t with
  | nil => exact ⟨[], ⟨(List.append_nil _).symm, rfl⟩, fun x => by simp, .nil⟩
  | cons name names ih =>
    obtain ⟨new, ⟨hnames, hminted⟩, hmem, hordered⟩ := ih (t.intern name)
    rw [minted_intern] at hminted
    -- the names that follow are other ones, so each is given one place later than in the rest of the list
    have hother : ∀ x ∈ new, name ≠ x := by
      rintro x hx rfl
      exact ((hmem name).1 hx).2 (mem_intern.2 (Or.inr rfl))
    have hlater : new.Pairwise fun x y => (name :: names).idxOf x < (name :: names).idxOf y := by
      refine hordered.imp_of_mem fun hx hy hlt => ?_
      rw [List.idxOf_cons_ne names (hother _ hx), List.idxOf_cons_ne names (hother _ hy)]
      omega
    have hcons : t.internAll (name :: names) = (t.intern name).internAll names := rfl
    by_cases hname : name ∈ t.names
    · rw [intern_of_mem hname] at hnames hmem
      refine ⟨new, ⟨by rw [hcons, intern_of_mem hname, hnames], hcons ▸ hminted⟩, fun x => ?_, hlater⟩
      rw [hmem, List.mem_cons]
      exact ⟨fun h => ⟨Or.inr h.1, h.2⟩, fun h => ⟨h.1.resolve_left fun hx => h.2 (hx ▸ hname), h.2⟩⟩
    · refine ⟨name :: new, ⟨?_, hcons ▸ hminted⟩, fun x => ?_, List.pairwise_cons.2 ⟨fun x hx => ?_, hlater⟩⟩
      · rw [hcons, hnames, names_intern, if_neg hname, List.append_assoc, List.singleton_append]
      · rw [List.mem_cons, hmem, mem_intern, List.mem_cons]
        by_cases hx : x = name
        · simp [hx, hname]
        · simp [hx]
      · rw [List.idxOf_cons_self, List.idxOf_cons_ne names (hother x hx)]
        omega

namespace Core

/-- **Traversals with a stack come to the same as recursion.** - The walk yields the node of every occurrence, once
each and in the order of their addresses. - There is an effect if an assignment occurs anywhere or, with calls
counted, a call occurs outside of procedures. - Interning the names of an expression keeps all numbers, and puts
behind the names of the table those that it does not have, once each, in the order in which they first appear in the
walk. -/
theorem traversals_recursive (e : Core) (calls : Bool) (t : SymbolTable) :
    (e.nodes = e.occurrences.map Prod.snd ∧ (∀ p n, (p, n) ∈ e.occurrences ↔ e.OccursAt p n) ∧
      e.occurrences.Pairwise fun o o' => List.Lex (· < ·) o.1 o'.1) ∧
    (e.hasEffect calls = true ↔ (∃ p x v, e.OccursAt p (assign x v)) ∨
      calls = true ∧ ∃ p f as, e.OccursAt p (app f as) ∧ ∀ q, q <+: p → ∀ ps r b, ¬ e.OccursAt q (lambda ps r b)) ∧
    (∀ x i, t.indexOf? x = some i → (e.internNames t).indexOf? x = some i) ∧
    ∃ new, (e.internNames t).toNameRegister = ⟨t.names ++ new, t.numbers ++ new.zipIdx t.size, t.minted⟩ ∧ new.Nodup ∧
      (∀ x, x ∈ new ↔ x ∈ e.appearances ∧ x ∉ t.names) ∧
      new.Pairwise fun x y => e.appearances.idxOf x < e.appearances.idxOf y := by
  refine ⟨⟨nodes_eq_occurrences e, fun _ _ => mem_occurrences, occurrences_increasing e⟩, ?_, ?_⟩
  · rw [hasEffect_eq_actsIn, actsIn_iff, and_iff_left rfl]
    rfl
  · obtain ⟨new, ⟨hnames, hminted⟩, hmem, hordered⟩ := t.internAll_appends e.allNames
    rw [allNames_eq_appearances] at hmem hordered
    refine ⟨fun x i hi => ?_, new, SymbolTable.register_append hnames hminted, ?_, hmem, hordered⟩
    · have hgrown : t.names <+: (e.internNames t).names := hnames ▸ List.prefix_append _ _
      exact t.inStep.indexOf?_of_prefix (e.internNames t).inStep hgrown hi
    · refine hordered.imp ?_
      rintro x y hlt rfl
      exact Nat.lt_irrefl _ hlt

end Core

end SchemeStack
