import Mathlib.Data.List.Permutation
import BooleanSteps.Proofs.KeyDecoding
import BooleanSteps.Proofs.Occurrences
import BooleanSteps.Proofs.PrintedPhrases

/-!
# The result is irreducible

A run ends when a pass prints the same text again. Between normal formulas that can be
written this means that the pass changed nothing, so no law was applied in it, and a normal
formula in which no law applies is irreducible. Whatever the names are, a run that starts
with the result ends at once.
-/

namespace BooleanSteps.Formula

/-! ## Quiet normal formulas -/

/-- Constants are removed by laws, from everywhere but the root. -/
theorem IsQuiet.const_or_noConst {f : Formula} (h : f.IsQuiet) :
    (∃ value, f = .const value) ∨ f.Everywhere NoConst := by
  -- A constant operand is ruled out by its parent, where a law would be found.
  induction f with
  | const value => exact .inl ⟨value, rfl⟩
  | var name =>
      right
      exact everywhere_var.mpr nofun
  | not f ih =>
      obtain ⟨hf, hroot⟩ := isQuiet_not.mp h
      right
      refine ⟨nofun, ?_⟩
      rcases ih hf with ⟨value, rfl⟩ | hnone
      · cases hroot
      · exact hnone
  | nary c fs ih =>
      obtain ⟨hfs, hroot⟩ := isQuiet_nary.mp h
      right
      refine everywhere_nary.mpr ⟨nofun, ?_⟩
      intro f hf
      rcases ih f hf (hfs f hf) with ⟨value, rfl⟩ | hnone
      · exact absurd rfl ((connectiveLaw?_eq_none hroot).1 _ hf value)
      · exact hnone
  | xor l r ihl ihr =>
      obtain ⟨hl, hr, hroot⟩ := isQuiet_xor.mp h
      obtain ⟨hlconst, hrconst, -⟩ := xorLaw?_eq_none hroot
      right
      refine ⟨nofun, ?_, ?_⟩
      · rcases ihl hl with ⟨value, rfl⟩ | hnone
        · exact absurd rfl (hlconst value)
        · exact hnone
      · rcases ihr hr with ⟨value, rfl⟩ | hnone
        · exact absurd rfl (hrconst value)
        · exact hnone

theorem irreducibleOperands_of_connectiveLaw? {c : Connective} {fs : List Formula}
    (hnormal : NormalOperands c fs) (hroot : connectiveLaw? c fs = none) :
    IrreducibleOperands c fs := by
  obtain ⟨-, -, hcomplement, habsorption, hdistribution⟩ := connectiveLaw?_eq_none hroot
  refine { hnormal with
    no_complement := ?_, no_absorption := habsorption, no_distribution := hdistribution }
  -- What is equivalent to a negation is a negation itself.
  intro f hf g hg hkey
  obtain ⟨f', rfl, hoperand⟩ := exists_not_of_key_eq hkey
  exact hcomplement f' hg f hf hoperand.symm

theorem IsNormal.everywhere_irreducibleNode {f : Formula} (h : f.IsNormal) (hquiet : f.IsQuiet) :
    f.Everywhere IrreducibleNode := by
  induction f with
  | const value => exact everywhere_const.mpr trivial
  | var name => exact everywhere_var.mpr trivial
  | not f ih =>
      obtain ⟨hf, hroot⟩ := isQuiet_not.mp hquiet
      exact ⟨negationLaw?_eq_none hroot, ih (isNormal_not.mp h) hf⟩
  | nary c fs ih =>
      obtain ⟨hoperands, hnormal⟩ := isNormal_nary.mp h
      obtain ⟨hfs, hroot⟩ := isQuiet_nary.mp hquiet
      refine everywhere_nary.mpr ⟨irreducibleOperands_of_connectiveLaw? hoperands hroot, ?_⟩
      exact fun f hf => ih f hf (hnormal f hf) (hfs f hf)
  | xor l r ihl ihr =>
      obtain ⟨hlnormal, hrnormal⟩ := isNormal_xor.mp h
      obtain ⟨hl, hr, hroot⟩ := isQuiet_xor.mp hquiet
      exact ⟨(xorLaw?_eq_none hroot).2.2, ihl hlnormal hl, ihr hrnormal hr⟩

theorem IsNormal.isIrreducible {f : Formula} (h : f.IsNormal) (hquiet : f.IsQuiet) :
    f.IsIrreducible :=
  ⟨h.everywhere_irreducibleNode hquiet, hquiet.const_or_noConst⟩

/-! ## Where a run settles -/

theorem afterPasses_isNormal {f : Formula} (h : f.IsNormal) (n : Nat) :
    (afterPasses n f).IsNormal := by
  induction n generalizing f with
  | zero => exact h
  | succ n ih => exact ih (isNormal_pass f)

/-- A pass that prints the same text has applied no law. -/
theorem isQuiet_of_render_pass_eq {f : Formula} (h : f.IsNormal) (hf : f.IsWritable)
    (hrender : f.pass.value.render = f.render) : f.IsQuiet := by
  apply (pass_eq_self_iff h).mp
  exact eq_of_render_eq (isNormal_pass f) h hf.step.normalize hf hrender

theorem SettlesAfter.isQuiet {k : Nat} {f : Formula} (h : SettlesAfter k f) (hnormal : f.IsNormal)
    (hf : f.IsWritable) : (Formula.afterPasses k f).IsQuiet := by
  apply isQuiet_of_render_pass_eq (afterPasses_isNormal hnormal k) (hf.afterPasses k)
  rw [pass_afterPasses]
  exact h.settled

/-- The result of a simplification is irreducible: a reduction step leaves it as it is and
applies no law, and its nodes have the form that the laws leave. -/
theorem simplify_isIrreducible {f : Formula} (hf : f.IsWritable) {given : Option Nat}
    {s : Simplification} (h : f.simplify given = .ok s) :
    s.formula.step = s.formula ∧ s.formula.stepDerived.applications = [] ∧
      s.formula.IsIrreducible := by
  obtain ⟨k, hsettles, heq⟩ := exists_afterPasses_of_simplify h
  have hquiet : s.formula.IsQuiet := by
    rw [heq]
    exact hsettles.isQuiet (normalize_isNormal f) hf.normalize
  have hnormal : s.formula.IsNormal := by
    rw [heq]
    exact afterPasses_isNormal (normalize_isNormal f) k
  exact ⟨hquiet.step_eq, hquiet, hnormal.isIrreducible hquiet⟩

theorem simplify_isIrreducible_common_factor :
    let f : Formula :=
      .nary .or [.nary .and [.var "b", .var "a"], .nary .and [.var "c", .var "a"]]
    let s : Simplification :=
      ⟨.nary .and [.var "a", .nary .or [.var "b", .var "c"]],
        [⟨.distribution .or, "a & b | a & c", "a & (b | c)"⟩]⟩
    f.IsWritable ∧ f.simplify none = .ok s ∧
      s.formula.step = s.formula ∧ s.formula.stepDerived.applications = [] ∧
      s.formula.IsIrreducible := by
  have hresult : simplify
      (.nary .or [.nary .and [.var "b", .var "a"], .nary .and [.var "c", .var "a"]]) none =
        .ok ⟨.nary .and [.var "a", .nary .or [.var "b", .var "c"]],
          [⟨.distribution .or, "a & b | a & c", "a & (b | c)"⟩]⟩ := by cbv
  exact ⟨by decide, hresult, simplify_isIrreducible (by decide) hresult⟩

/-! ## Simplifying the result -/

/-- The result of a simplification is its own result, without any step and under every
limit. Names may be of any kind here: that the last pass printed the same text is enough. -/
theorem simplify_simplified {f : Formula} {given : Option Nat} {s : Simplification}
    (h : f.simplify given = .ok s) (given' : Option Nat) :
    s.formula.simplify given' = .ok ⟨s.formula, []⟩ := by
  obtain ⟨k, hsettles, heq⟩ := exists_afterPasses_of_simplify h
  have hnormal : s.formula.IsNormal := by
    rw [heq]
    exact afterPasses_isNormal (normalize_isNormal f) k
  have hrender : s.formula.pass.value.render = s.formula.render := by
    rw [heq, pass_afterPasses]
    exact hsettles.settled
  have hagain : SettlesAfter 0 s.formula.normalize := by
    rw [hnormal.normalize_eq]
    exact settlesAfter_zero hrender
  rw [hagain.simplify_eq, if_pos (Nat.zero_le _), afterPasses, passLaws,
    hnormal.normalize_eq, hnormal.normalizeDerived_eq]
  rfl

theorem simplify_simplified_strange_names :
    let f : Formula := .not (.nary .and [.var "x | y", .not (.var ")")])
    let g : Formula := .nary .or [.var ")", .not (.var "x | y")]
    let steps : List Step := [⟨.deMorgan .and, "~(x | y & ~))", "~x | y | ~~)"⟩,
      ⟨.doubleNegation, "~~)", ")"⟩]
    f.simplify (some 2) = .ok ⟨g, steps⟩ ∧ g.simplify (some 0) = .ok ⟨g, []⟩ := by
  intro f g steps
  have hresult : f.simplify (some 2) = .ok ⟨g, steps⟩ := by cbv
  exact ⟨hresult, simplify_simplified hresult (some 0)⟩

end BooleanSteps.Formula
