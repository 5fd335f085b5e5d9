import Mathlib.Algebra.Group.Nat.Defs
import Mathlib.Data.List.Induction
import Mathlib.Data.List.Permutation
import BooleanSteps.Proofs.Soundness

/-!
# Truth tables

The interpretations of a truth table are numbered: the row of a number gives each variable its
binary digit of the number, the first variable the most significant one. So every assignment of
the variables has one row, and as the variables of a formula are those that evaluation may
reach, the formula has a value in every row.
-/

namespace BooleanSteps

namespace Interpretation

variable {names : List String}

/-! ## Assignments -/

theorem assignments_cons (name : String) (names : List String) :
    assignments (name :: names) =
      (assignments names).map ((name, false) :: ·) ++
        (assignments names).map ((name, true) :: ·) := by
  simp [assignments]

/-- The assignment with a number: its binary digits, the first name having the most significant. -/
def numbered (names : List String) (n : Nat) : List (String × Bool) :=
  names.map fun name => (name, n.testBit (names.length - 1 - names.idxOf name))

/-- The first name takes the leading digit, the others the digits behind it. -/
theorem numbered_cons {name : String} (hname : name ∉ names) {m n : Nat}
    (hdigits : ∀ i < names.length, m.testBit i = n.testBit i) :
    numbered (name :: names) m = (name, m.testBit names.length) :: numbered names n := by
  unfold numbered
  rw [List.map_cons, List.idxOf_cons_self, List.length_cons, Nat.add_sub_cancel, Nat.sub_zero]
  congr 1
  apply List.map_congr_left
  intro other hother
  have hne : name ≠ other := fun heq => hname (heq ▸ hother)
  have hlt : names.idxOf other < names.length := List.idxOf_lt_length_of_mem hother
  have hplace : names.length - (names.idxOf other + 1) = names.length - 1 - names.idxOf other := by
    omega
  rw [List.idxOf_cons_ne _ hne, hplace, hdigits _ (by omega)]

/-- The assignments are the numbered ones, in the order of their numbers. -/
theorem assignments_eq_map_numbered (h : names.Nodup) :
    assignments names = (List.range (2 ^ names.length)).map (numbered names) := by
  induction names with
  | nil => rfl
  | cons name names ih =>
      obtain ⟨hname, hnames⟩ := List.nodup_cons.mp h
      -- The numbers below the leading power of two come first, then those from it on.
      have hlow : ∀ n ∈ List.range (2 ^ names.length),
          numbered (name :: names) n = (name, false) :: numbered names n := by
        intro n hn
        rw [numbered_cons hname fun _ _ => rfl, Nat.testBit_lt_two_pow (List.mem_range.mp hn)]
      have hhigh : ∀ n ∈ List.range (2 ^ names.length),
          numbered (name :: names) (2 ^ names.length + n) = (name, true) :: numbered names n := by
        intro n hn
        rw [numbered_cons hname fun i hi => Nat.testBit_two_pow_add_gt hi n,
          Nat.testBit_two_pow_add_eq, Nat.testBit_lt_two_pow (List.mem_range.mp hn), Bool.not_false]
      rw [assignments_cons, ih hnames, List.length_cons, Nat.pow_succ, Nat.mul_two, List.range_add,
        List.map_append, List.map_map, List.map_map, List.map_map]
      exact congrArg₂ _ (List.map_congr_left hlow).symm (List.map_congr_left hhigh).symm

theorem enumerate_eq_map_numbered (h : names.Nodup) :
    enumerate names = (List.range (2 ^ names.length)).map fun n => ⟨numbered names n⟩ := by
  rw [enumerate, assignments_eq_map_numbered h, List.map_map]
  rfl

/-- Whatever values the names have, one assignment gives them these values. -/
theorem count_assignments (names : List String) (v : String → Bool) :
    (assignments names).count (names.map fun name => (name, v name)) = 1 := by
  induction names with
  | nil => rfl
  | cons name names ih =>
      -- Behind the other value of the first name there is no such assignment.
      have hcount (value : Bool) :
          ((assignments names).map ((name, value) :: ·)).count
              ((name, v name) :: names.map fun name => (name, v name)) =
            if value = v name then 1 else 0 := by
        split
        next heq =>
          rw [heq, List.count_map_of_injective _ _ (List.cons_injective), ih]
        next hne =>
          rw [List.count_eq_zero, List.mem_map]
          rintro ⟨others, -, heq⟩
          cases heq
          exact hne rfl
      rw [assignments_cons, List.map_cons, List.count_append, hcount, hcount]
      cases v name <;> rfl

theorem count_enumerate (names : List String) (v : String → Bool) :
    (enumerate names).count ⟨names.map fun name => (name, v name)⟩ = 1 := by
  rw [enumerate, List.count_map_of_injective _ _ (fun _ _ heq => (Interpretation.mk.inj heq))]
  exact count_assignments names v

theorem value?_numbered (n : Nat) {name : String} (h : name ∈ names) :
    value? ⟨numbered names n⟩ name =
      some (n.testBit (names.length - 1 - names.idxOf name)) :=
  List.lookup_graph (fun name => n.testBit (names.length - 1 - names.idxOf name)) h

end Interpretation

namespace Formula

open Interpretation

/-! ## Variables of a formula -/

/-- What is left without repetitions stands in the order of first appearance. -/
theorem pairwise_idxOf_eraseDups (texts : List String) :
    texts.eraseDups.Pairwise fun a b => texts.idxOf a < texts.idxOf b := by
  induction texts using List.reverseRecOn with
  | nil => exact List.Pairwise.nil
  | append_singleton texts text ih =>
      have hold : texts.eraseDups.Pairwise fun a b =>
          (texts ++ [text]).idxOf a < (texts ++ [text]).idxOf b := by
        refine ih.imp_of_mem ?_
        intro a b ha hb hlt
        rwa [List.idxOf_append_of_mem (List.mem_eraseDups.mp ha),
          List.idxOf_append_of_mem (List.mem_eraseDups.mp hb)]
      rw [List.eraseDups_append]
      by_cases hmem : text ∈ texts
      · have hnone : [text].removeAll texts = [] := by simp [List.removeAll, hmem]
        rwa [hnone, List.eraseDups_nil, List.append_nil]
      · -- A text that is new appears behind all others.
        have hnew : [text].removeAll texts = [text] := by simp [List.removeAll, hmem]
        rw [hnew, List.pairwise_append]
        refine ⟨hold, List.pairwise_singleton _ _, ?_⟩
        intro a ha b hb
        have ha' : a ∈ texts := List.mem_eraseDups.mp ha
        rw [List.mem_singleton.mp hb, List.idxOf_append_of_mem ha',
          List.idxOf_append_of_notMem hmem]
        exact Nat.lt_add_right _ (List.idxOf_lt_length_of_mem ha')

theorem pairwise_vars (f : Formula) :
    f.vars.Pairwise fun a b => f.names.idxOf a < f.names.idxOf b :=
  pairwise_idxOf_eraseDups f.names

theorem nodup_vars (f : Formula) : f.vars.Nodup := by
  refine f.pairwise_vars.imp ?_
  rintro a _ hlt rfl
  exact Nat.lt_irrefl _ hlt

/-! ## The table of a formula -/

/-- The variables of a formula are the names in it, each once and in order of first appearance,
and its table has one row for every assignment of them: the row with a number gives each
variable its digit of the number in binary, and the formula has a value in the row. -/
theorem enumerate_vars (f : Formula) :
    (∀ name, name ∈ f.vars ↔ name ∈ f.names) ∧
    (f.vars.Pairwise fun a b => f.names.idxOf a < f.names.idxOf b) ∧
    (enumerate f.vars).length = 2 ^ f.vars.length ∧
    (∀ v : String → Bool,
      (enumerate f.vars).count ⟨f.vars.map fun name => (name, v name)⟩ = 1) ∧
    ∀ (n : Nat) (i : Interpretation), (enumerate f.vars)[n]? = some i →
      i.values.map Prod.fst = f.vars ∧
      (∀ name ∈ f.vars,
        i.value? name = some (n.testBit (f.vars.length - 1 - f.vars.idxOf name))) ∧
      ∃ value, f.evaluate i = .ok value := by
  refine ⟨fun _ => mem_vars, f.pairwise_vars, ?_, count_enumerate f.vars, ?_⟩
  · rw [enumerate_eq_map_numbered f.nodup_vars, List.length_map, List.length_range]
  · intro n i hi
    rw [enumerate_eq_map_numbered f.nodup_vars, List.getElem?_map, Option.map_eq_some_iff] at hi
    obtain ⟨m, hm, rfl⟩ := hi
    obtain ⟨-, rfl⟩ := List.getElem?_eq_some_iff.mp hm
    rw [List.getElem_range]
    have hvalues : ∀ name ∈ f.vars, value? ⟨numbered f.vars n⟩ name =
        some (n.testBit (f.vars.length - 1 - f.vars.idxOf name)) :=
      fun name hname => value?_numbered n hname
    have hbinds : Interpretation.Binds ⟨numbered f.vars n⟩ f.names := by
      intro name hname
      rw [hvalues name (mem_vars.mpr hname)]
      rfl
    refine ⟨?_, hvalues, f.truth (assignment ⟨numbered f.vars n⟩), evaluate_eq_truth hbinds⟩
    simp [numbered, Function.comp_def]

/-- The names are met in the order `b`, `a`, so `b` is the leading digit. -/
theorem enumerate_vars_two :
    let f : Formula := .xor (.nary .and [.var "b", .var "a"]) (.nary .or [.var "b", .const false])
    let i : Interpretation := ⟨[("b", true), ("a", false)]⟩
    f.vars = ["b", "a"] ∧ (enumerate f.vars)[2]? = some i ∧
      i.values.map Prod.fst = f.vars ∧
      (∀ name ∈ f.vars,
        i.value? name = some ((2).testBit (f.vars.length - 1 - f.vars.idxOf name))) ∧
      ∃ value, f.evaluate i = .ok value := by
  intro f i
  have hrow : (enumerate f.vars)[2]? = some i := by decide
  exact ⟨by decide, hrow, (enumerate_vars f).2.2.2.2 2 i hrow⟩

end Formula

end BooleanSteps
