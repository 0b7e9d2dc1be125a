/-
A symbol table numbers its names one to one, whatever calls it gets, and the names it mints are new.

A run is a list of calls (`TableCall`): a name is interned or looked up, a number is looked up, a name is minted. What
a call does to the register is said once (`perform_register`): it puts names that are new behind those that are there,
at most one of them, in the list and with their numbers in the dictionary, and counts a minted name. From this:
- the list and the dictionary stay in step (`inStep_performAll`);
- names stay different, so names and numbers correspond (`Bijective`), and no number is given away again;
- the names of the register are those that were interned and those that were minted (`mem_performAll`);
- a name that is minted later is none of those that are there, so all minted names are different (`nodup_mintedIn`).

Numbers are looked up in the dictionary and names in the list, so that the two look-ups are inverse needs the two in
step (`bijective_of_inStep`).

Minting tries one spelling after the other (`candidate`). The search ends: of the spellings, which are all different,
the dictionary has finitely many. It ends at the first that it does not have (`freshName_eq_candidate`), even if names
that look like minted ones were interned.
-/
import SchemeStack.Proofs.NameSupply

namespace SchemeStack

inductive TableCall where
  | intern (name : String)
  | lookup (name : String)
  | nameAt (number : Int)
  | mint
  deriving DecidableEq

inductive TableAnswer where
  | number (n : Option Nat)
  | name (name : Option String)
  deriving DecidableEq

namespace NameRegister

/-- makes a call: its answer, and the register after it -/
def perform (r : NameRegister) : TableCall → TableAnswer × NameRegister
  | .intern name => (.number (some (r.handle name).1), (r.handle name).2)
  | .lookup name => (.number (r.indexOf? name), r)
  | .nameAt number => (.name (r.nameAt? number), r)
  | .mint => (.name (some r.mint.1), r.mint.2)

def performAll (r : NameRegister) (calls : List TableCall) : NameRegister :=
  calls.foldl (fun r call => (r.perform call).2) r

/-- the names that are minted by some calls, in order -/
def mintedIn : NameRegister → List TableCall → List String
  | _, [] => []
  | r, .mint :: calls => r.mint.1 :: r.mint.2.mintedIn calls
  | r, call :: calls => (r.perform call).2.mintedIn calls

/-- the spellings that are tried for the next name to mint, one after the other -/
def candidate (r : NameRegister) : Nat → String
  | 0 => "$g" ++ toString r.minted
  | i + 1 => "$g" ++ toString r.minted ++ "~" ++ toString i

/-- names and the numbers below their count correspond one to one; there is no other number, and no number of another
name -/
structure Bijective (r : NameRegister) : Prop where
  distinct : r.names.Nodup
  inverse : ∀ x (n : Nat), r.indexOf? x = some n ↔ r.nameAt? n = some x
  numbers : ∀ i : Int, (r.nameAt? i).isSome = true ↔ 0 ≤ i ∧ i < r.size
  names : ∀ x, (r.indexOf? x).isSome = true ↔ x ∈ r.names

variable {r r' : NameRegister} {x base : String} {n : Nat}

/-! ## The two look-ups -/

theorem lookup_zipIdx (names : List String) (x : String) (k : Nat) :
    (names.zipIdx k).lookup x = (names.idxOf? x).map (· + k) := by
  induction names generalizing k with
  | nil => rfl
  | cons name names ih =>
    rw [List.zipIdx_cons, List.idxOf?_cons]
    by_cases hname : name = x
    · simp [hname]
    · have hother : (x == name) = false := by simpa using Ne.symm hname
      simp [List.lookup_cons, hother, hname, ih, Function.comp_def, Nat.add_assoc, Nat.add_comm 1]

/-- in step, the dictionary finds a name where it first stands in the list -/
theorem InStep.indexOf?_eq (h : r.InStep) (x : String) : r.indexOf? x = r.names.idxOf? x := by
  have hnumbers : r.numbers = r.names.zipIdx := h
  rw [indexOf?, hnumbers, lookup_zipIdx]
  exact Option.map_id_apply

theorem nameAt?_natCast (r : NameRegister) (n : Nat) : r.nameAt? n = r.names[n]? := by
  unfold nameAt?
  split
  · rw [Int.toNat_natCast]
  · rw [eq_comm, List.getElem?_eq_none_iff]
    omega

/-- it is enough that the list and the dictionary are in step, and that no name stands twice in the list -/
theorem bijective_of_inStep (hstep : r.InStep) (h : r.names.Nodup) : r.Bijective := by
  refine ⟨h, fun x n => ?_, fun i => ?_, fun x => by rw [hstep.indexOf?_eq]; exact List.isSome_idxOf?⟩
  · rw [nameAt?_natCast, hstep.indexOf?_eq, List.idxOf?_eq_some_iff, List.getElem?_eq_some_iff]
    constructor
    · rintro ⟨hn, hx, -⟩
      exact ⟨hn, hx⟩
    · rintro ⟨hn, hx⟩
      refine ⟨hn, hx, fun j hj hjx => ?_⟩
      have hjn := h.getElem_inj_iff.1 (hjx.trans hx.symm)
      omega
  · by_cases hi : i < 0
    · rw [nameAt?, if_neg (by omega)]
      simp only [Option.isSome_none, Bool.false_eq_true, false_iff]
      omega
    · obtain ⟨n, rfl⟩ := Int.eq_ofNat_of_zero_le (Int.not_lt.1 hi)
      rw [nameAt?_natCast, Option.isSome_iff_ne_none, ne_eq, List.getElem?_eq_none_iff, size]
      omega

/-- a name that has a number keeps it when names are put behind -/
theorem InStep.indexOf?_of_prefix (h : r.InStep) (h' : r'.InStep) (hgrown : r.names <+: r'.names)
    (hx : r.indexOf? x = some n) : r'.indexOf? x = some n := by
  obtain ⟨later, hlater⟩ := hgrown
  rw [h.indexOf?_eq, List.idxOf?] at hx
  rw [h'.indexOf?_eq, ← hlater, List.idxOf?, List.findIdx?_append, hx]
  rfl

/-! ## The search for a fresh name -/

/-- the first suffix that is free, or the last that is tried; all before it are taken -/
theorem suffixed_eq (r : NameRegister) (base : String) (tries i : Nat) :
    ∃ j, i ≤ j ∧ (∀ l, i ≤ l → l < j → base ++ "~" ++ toString l ∈ r.keys) ∧
      r.suffixed base tries i = base ++ "~" ++ toString j := by
  induction tries generalizing i with
  | zero => exact ⟨i, Nat.le_refl i, by omega, rfl⟩
  | succ tries ih =>
    rw [suffixed]
    split
    · rename_i htaken
      obtain ⟨j, hj, hbefore, heq⟩ := ih (i + 1)
      refine ⟨j, by omega, fun l hil hlj => ?_, heq⟩
      by_cases hl : l = i
      · exact hl ▸ contains_iff_mem_keys.1 htaken
      · exact hbefore l (by omega) hlj
    · exact ⟨i, Nat.le_refl i, by omega, rfl⟩

/-- **The search for a fresh name ends,** at the first spelling that the dictionary does not have -/
theorem freshName_eq_candidate (r : NameRegister) :
    ∃ k, (∀ j, j < k → r.candidate j ∈ r.keys) ∧ r.candidate k ∉ r.keys ∧ r.freshName = r.candidate k := by
  by_cases hbase : r.contains (r.candidate 0) = true
  · obtain ⟨j, -, hbefore, heq⟩ := r.suffixed_eq (r.candidate 0) r.numbers.length 0
    have hfresh : r.freshName = r.candidate (j + 1) := by
      rw [← show r.suffixed (r.candidate 0) r.numbers.length 0 = r.candidate (j + 1) from heq]
      exact if_pos hbase
    refine ⟨j + 1, fun l hl => ?_, hfresh ▸ r.freshName_not_mem_keys, hfresh⟩
    cases l with
    | zero => exact contains_iff_mem_keys.1 hbase
    | succ l => exact hbefore l (Nat.zero_le l) (by omega)
  · exact ⟨0, by omega, fun hmem => hbase (contains_iff_mem_keys.2 hmem), if_neg hbase⟩

/-! ## One call -/

/-- the names that a call puts into the register -/
def added (r : NameRegister) : TableCall → List String
  | .intern name => if r.contains name then [] else [name]
  | .mint => [r.freshName]
  | _ => []

/-- **What a call does to a register:** it puts names behind those that are there, in the list and, with the numbers
that follow, in the dictionary, and counts a minted one -/
theorem perform_register (r : NameRegister) (call : TableCall) :
    (r.perform call).2 = ⟨r.names ++ r.added call, r.numbers ++ (r.added call).zipIdx r.names.length,
      r.minted + [call].count .mint⟩ := by
  cases call with
  | intern name =>
    rw [perform, handle_table, added]
    split <;> simp
  | lookup name => simp [perform, added]
  | nameAt number => simp [perform, added]
  | mint =>
    have hfresh : ¬ NameRegister.contains { r with minted := r.minted + 1 } r.freshName = true :=
      fun h => r.freshName_not_mem_keys (contains_iff_mem_keys.1 h)
    rw [perform, mint, handle_table, if_neg hfresh]
    rfl

/-- **A call keeps the list and the dictionary in step** -/
theorem inStep_perform (hstep : r.InStep) (call : TableCall) : (r.perform call).2.InStep := by
  have hnumbers : r.numbers = r.names.zipIdx := hstep
  rw [perform_register, InStep, hnumbers, List.zipIdx_append, Nat.zero_add]

theorem mem_added (hstep : r.InStep) {call : TableCall} :
    x ∈ r.added call ↔ call = .intern x ∧ x ∉ r.names ∨ call = .mint ∧ x = r.freshName := by
  cases call with
  | intern name =>
    rw [added]
    split
    · rename_i hmem
      rw [hstep.contains_iff] at hmem
      simp only [List.not_mem_nil, TableCall.intern.injEq, reduceCtorEq, false_and, or_false, false_iff,
        not_and, not_not]
      rintro rfl
      exact hmem
    · rename_i hmem
      rw [hstep.contains_iff] at hmem
      simp only [List.mem_singleton, TableCall.intern.injEq, reduceCtorEq, false_and, or_false]
      constructor
      · rintro rfl
        exact ⟨rfl, hmem⟩
      · rintro ⟨rfl, -⟩
        rfl
  | lookup name => simp [added]
  | nameAt number => simp [added]
  | mint => simp [added]

/-- what is put into the register was not there -/
theorem not_mem_of_mem_added (hstep : r.InStep) {call : TableCall} (h : x ∈ r.added call) : x ∉ r.names := by
  rcases (mem_added hstep).1 h with ⟨-, hx⟩ | ⟨-, rfl⟩
  · exact hx
  · exact hstep.freshName_not_mem

theorem nodup_perform (hstep : r.InStep) (call : TableCall) (h : r.names.Nodup) :
    (r.perform call).2.names.Nodup := by
  have hadded : (r.added call).Nodup := by
    cases call with
    | intern name =>
      rw [added]
      split <;> simp
    | _ => simp [added]
  rw [perform_register]
  refine List.nodup_append.2 ⟨h, hadded, fun y hy z hz hyz => ?_⟩
  exact not_mem_of_mem_added hstep hz (hyz ▸ hy)

/-- the names of the register are those of before, and the one that was interned or minted -/
theorem mem_perform (hstep : r.InStep) {call : TableCall} :
    x ∈ (r.perform call).2.names ↔ x ∈ r.names ∨ call = .intern x ∨ call = .mint ∧ x = r.freshName := by
  rw [perform_register, List.mem_append, mem_added hstep]
  by_cases hx : x ∈ r.names <;> simp [hx]

/-- interning answers with the number that the name has afterwards -/
theorem perform_intern (r : NameRegister) (x : String) :
    ∃ n, (r.perform (.intern x)).1 = .number (some n) ∧ (r.perform (.intern x)).2.indexOf? x = some n := by
  refine ⟨_, rfl, ?_⟩
  change (r.handle x).2.indexOf? x = some (r.handle x).1
  unfold handle
  split
  · assumption
  · rename_i hnone
    have hlookup : r.numbers.lookup x = none := hnone
    simp [indexOf?, List.lookup_append, hlookup]

/-! ## Runs -/

theorem performAll_cons (r : NameRegister) (call : TableCall) (calls : List TableCall) :
    r.performAll (call :: calls) = (r.perform call).2.performAll calls := rfl

/-- **The list and the dictionary stay in step,** whatever calls are made -/
theorem inStep_performAll (hstep : r.InStep) (calls : List TableCall) : (r.performAll calls).InStep := by
  induction calls generalizing r with
  | nil => exact hstep
  | cons call calls ih => exact ih (inStep_perform hstep call)

theorem nodup_performAll (hstep : r.InStep) (calls : List TableCall) (h : r.names.Nodup) :
    (r.performAll calls).names.Nodup := by
  induction calls generalizing r with
  | nil => exact h
  | cons call calls ih => exact ih (inStep_perform hstep call) (nodup_perform hstep call h)

theorem prefix_performAll (r : NameRegister) (calls : List TableCall) : r.names <+: (r.performAll calls).names := by
  induction calls generalizing r with
  | nil => exact List.prefix_rfl
  | cons call calls ih =>
    have hcall : r.names <+: (r.perform call).2.names := by
      rw [perform_register]
      exact List.prefix_append _ _
    exact hcall.trans (ih _)

theorem minted_performAll (r : NameRegister) (calls : List TableCall) :
    (r.performAll calls).minted = r.minted + calls.count .mint := by
  induction calls generalizing r with
  | nil => rfl
  | cons call calls ih =>
    rw [performAll_cons, ih, perform_register, Nat.add_assoc, ← List.count_append, List.singleton_append]

theorem mintedIn_cons (r : NameRegister) (call : TableCall) (calls : List TableCall) :
    r.mintedIn (call :: calls) =
      (if call = .mint then [r.freshName] else []) ++ (r.perform call).2.mintedIn calls := by
  cases call <;> rfl

/-- the names after a run: those of before, and those that were interned or minted -/
theorem mem_performAll (hstep : r.InStep) {calls : List TableCall} :
    x ∈ (r.performAll calls).names ↔ x ∈ r.names ∨ .intern x ∈ calls ∨ x ∈ r.mintedIn calls := by
  induction calls generalizing r with
  | nil => simp [performAll, mintedIn]
  | cons call calls ih =>
    rw [performAll_cons, ih (inStep_perform hstep call), mem_perform hstep, mintedIn_cons]
    by_cases hcall : call = .mint
    · simp only [hcall, if_true, List.mem_append, List.mem_cons, List.not_mem_nil, or_false, reduceCtorEq, false_or,
        true_and]
      tauto
    · simp only [hcall, if_false, List.nil_append, List.mem_cons, false_and, or_false, eq_comm (a := call)]
      tauto

/-- a name that a run mints was not in the register -/
theorem not_mem_of_mem_mintedIn (hstep : r.InStep) {calls : List TableCall} (h : x ∈ r.mintedIn calls) :
    x ∉ r.names := by
  induction calls generalizing r with
  | nil => cases h
  | cons call calls ih =>
    rw [mintedIn_cons, List.mem_append] at h
    rcases h with h | h
    · split at h
      · rw [List.mem_singleton.1 h]
        exact hstep.freshName_not_mem
      · cases h
    · exact fun hx => ih (inStep_perform hstep call) h ((mem_perform hstep).2 (Or.inl hx))

theorem nodup_mintedIn (hstep : r.InStep) (calls : List TableCall) : (r.mintedIn calls).Nodup := by
  induction calls generalizing r with
  | nil => exact List.nodup_nil
  | cons call calls ih =>
    have hafter := inStep_perform hstep call
    rw [mintedIn_cons]
    split
    · rename_i hcall
      refine List.nodup_cons.2 ⟨fun h => ?_, ih hafter⟩
      exact not_mem_of_mem_mintedIn hafter h ((mem_perform hstep).2 (Or.inr (Or.inr ⟨hcall, rfl⟩)))
    · exact ih hafter

/-- **A symbol table numbers its names one to one, and mints new names.** After any calls of a new table:
- the dictionary has the names of the list, each with its place there;
- names and numbers correspond, the names being those that were interned or minted, and the count is that of minted
  names;
- a number stays with its name, whatever calls follow, and interning answers with the number of the name;
- minting ends at the first spelling that the table does not have, and puts it behind the names, with its number;
- the names that were minted are all different -/
theorem performAll_bijective (calls : List TableCall) :
    let r := empty.performAll calls
    r.InStep ∧ r.Bijective ∧ (∀ x, x ∈ r.names ↔ .intern x ∈ calls ∨ x ∈ empty.mintedIn calls) ∧
    r.minted = calls.count .mint ∧
    (∀ later x n, r.indexOf? x = some n → (r.performAll later).indexOf? x = some n) ∧
    (∀ x, ∃ n, (r.perform (.intern x)).1 = .number (some n) ∧ (r.perform (.intern x)).2.indexOf? x = some n) ∧
    (∃ k, (∀ j, j < k → r.candidate j ∈ r.names) ∧ r.candidate k ∉ r.names ∧
      r.perform .mint = (.name (some (r.candidate k)),
        ⟨r.names ++ [r.candidate k], r.numbers ++ [(r.candidate k, r.size)], r.minted + 1⟩)) ∧
    (empty.mintedIn calls).Nodup := by
  intro r
  have hempty : empty.InStep := rfl
  have hstep : r.InStep := inStep_performAll hempty calls
  have hnodup : r.names.Nodup := nodup_performAll hempty calls List.nodup_nil
  refine ⟨hstep, bijective_of_inStep hstep hnodup, fun x => ?_, ?_, fun later x n h => ?_, r.perform_intern, ?_,
    nodup_mintedIn hempty calls⟩
  · exact (mem_performAll hempty).trans (or_iff_right List.not_mem_nil)
  · rw [minted_performAll]
    exact Nat.zero_add _
  · exact hstep.indexOf?_of_prefix (inStep_performAll hstep later) (r.prefix_performAll later) h
  · obtain ⟨k, hbefore, hfree, hfresh⟩ := r.freshName_eq_candidate
    rw [hstep.keys_eq] at hbefore hfree
    refine ⟨k, hbefore, hfree, Prod.ext ?_ ?_⟩
    · exact congrArg (fun name => TableAnswer.name (some name)) hfresh
    · rw [perform_register, added, hfresh]
      rfl

/-- names that look like minted ones were interned before: the number of one of them stays, and the spelling of the next
minted name has a suffix -/
theorem lookalike_names_keep_numbers :
    let r := empty.performAll [.intern "$g0", .mint, .intern "$g1~0", .intern "$g1"]
    r.indexOf? "$g1~0" = some 2 ∧ (r.performAll [.mint, .intern "$g1", .mint]).indexOf? "$g1~0" = some 2 ∧
      ∃ k, r.candidate k ∉ r.names ∧ (r.perform .mint).1 = .name (some (r.candidate k)) := by
  intro r
  obtain ⟨-, -, -, -, hstays, -, ⟨k, -, hfree, hmint⟩, -⟩ :=
    performAll_bijective [.intern "$g0", .mint, .intern "$g1~0", .intern "$g1"]
  have hnumber : r.indexOf? "$g1~0" = some 2 := by decide +kernel
  exact ⟨hnumber, hstays _ _ _ hnumber, k, hfree, by rw [hmint]⟩

end NameRegister

end SchemeStack
