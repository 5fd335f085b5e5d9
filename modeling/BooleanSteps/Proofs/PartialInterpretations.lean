import BooleanSteps.Proofs.Soundness

/-!
# Evaluation under partial interpretations

Evaluation reads operands from the left and stops at the first that decides, so it can give a
value although variables have none, and it can fail although the value is decided. Either outcome
stays when more variables get values: a value is the truth value whatever the others are, and a
failure names a variable that is missing and goes on to fail until this variable has a value.
-/

namespace BooleanSteps.Formula

variable {f l r : Formula} {c : Connective} {fs : List Formula} {i j : Interpretation}
variable {name : String} {value : Bool} {e : EvaluationError}

/-! ## Outcomes of a node -/

theorem evaluate_var_eq_ok_iff :
    evaluate i (.var name) = .ok value ↔ i.value? name = some value := by
  rw [evaluate]
  cases i.value? name <;> simp

theorem evaluate_var_eq_error_iff :
    evaluate i (.var name) = .error e ↔ i.value? name = none ∧ e = .unbound name := by
  rw [evaluate]
  cases i.value? name <;> simp [eq_comm]

theorem evaluate_not_eq_ok_iff :
    evaluate i (.not f) = .ok value ↔ f.evaluate i = .ok !value := by
  rw [evaluate]
  cases f.evaluate i with
  | error e => simp [bind, Except.bind]
  | ok operand => cases operand <;> cases value <;> simp [bind, Except.bind, pure, Except.pure]

theorem evaluate_not_eq_error_iff :
    evaluate i (.not f) = .error e ↔ f.evaluate i = .error e := by
  rw [evaluate]
  cases f.evaluate i <;> simp [bind, Except.bind, pure, Except.pure]

theorem evaluate_xor_eq_ok_iff :
    evaluate i (.xor l r) = .ok value ↔
      ∃ left right, l.evaluate i = .ok left ∧ r.evaluate i = .ok right ∧
        (left != right) = value := by
  rw [evaluate]
  cases l.evaluate i <;> cases r.evaluate i <;> simp [bind, Except.bind, pure, Except.pure]

theorem evaluate_xor_eq_error_iff :
    evaluate i (.xor l r) = .error e ↔
      l.evaluate i = .error e ∨ ∃ left, l.evaluate i = .ok left ∧ r.evaluate i = .error e := by
  rw [evaluate]
  cases l.evaluate i <;> cases r.evaluate i <;> simp [bind, Except.bind, pure, Except.pure]

theorem evaluateOperands_cons (i : Interpretation) (c : Connective) (f : Formula)
    (fs : List Formula) : evaluateOperands i c (f :: fs) =
      (f.evaluate i).bind fun value =>
        if value = c.absorbing then .ok value else evaluateOperands i c fs := by
  rw [evaluateOperands]
  rfl

/-- Operands have a value if one decides, or if none does and all have values. -/
theorem evaluateOperands_cons_eq_ok_iff :
    evaluateOperands i c (f :: fs) = .ok value ↔
      (f.evaluate i = .ok c.absorbing ∧ value = c.absorbing) ∨
        (f.evaluate i = .ok c.neutral ∧ evaluateOperands i c fs = .ok value) := by
  rw [evaluateOperands_cons]
  cases f.evaluate i with
  | error e => simp [Except.bind]
  | ok operand =>
      cases c <;> cases operand <;>
        simp [Except.bind, Connective.absorbing, Connective.neutral, eq_comm]

/-- Operands fail at the first that fails, unless an operand before it decides. -/
theorem evaluateOperands_cons_eq_error_iff :
    evaluateOperands i c (f :: fs) = .error e ↔
      f.evaluate i = .error e ∨
        (f.evaluate i = .ok c.neutral ∧ evaluateOperands i c fs = .error e) := by
  rw [evaluateOperands_cons]
  cases f.evaluate i with
  | error e => simp [Except.bind]
  | ok operand =>
      cases c <;> cases operand <;> simp [Except.bind, Connective.absorbing, Connective.neutral]

/-! ## Values -/

theorem evaluateOperands_extends
    (h : ∀ f ∈ fs, ∀ value, f.evaluate i = .ok value → f.evaluate j = .ok value)
    (hvalue : evaluateOperands i c fs = .ok value) : evaluateOperands j c fs = .ok value := by
  induction fs with
  | nil => exact hvalue
  | cons f fs ih =>
      obtain ⟨hf, hfs⟩ := List.forall_mem_cons.mp h
      rw [evaluateOperands_cons_eq_ok_iff] at hvalue ⊢
      rcases hvalue with ⟨habsorbing, rfl⟩ | ⟨hneutral, hrest⟩
      · exact .inl ⟨hf _ habsorbing, rfl⟩
      · exact .inr ⟨hf _ hneutral, ih hfs hrest⟩

/-- A value stays when more variables get values. -/
theorem evaluate_extends (hij : i.Extends j) (h : f.evaluate i = .ok value) :
    f.evaluate j = .ok value := by
  induction f generalizing value with
  | const _ => exact h
  | var name => exact evaluate_var_eq_ok_iff.mpr (hij name value (evaluate_var_eq_ok_iff.mp h))
  | not f ih => exact evaluate_not_eq_ok_iff.mpr (ih (evaluate_not_eq_ok_iff.mp h))
  | nary c fs ih => exact evaluateOperands_extends (fun f hf value => ih f hf) h
  | xor l r ihl ihr =>
      obtain ⟨left, right, hl, hr, heq⟩ := evaluate_xor_eq_ok_iff.mp h
      exact evaluate_xor_eq_ok_iff.mpr ⟨left, right, ihl hl, ihr hr, heq⟩

/-! ## Failures -/

theorem unbound_of_evaluateOperands
    (h : ∀ f ∈ fs, f.evaluate i = .error (.unbound name) →
      name ∈ f.names ∧ i.value? name = none)
    (herror : evaluateOperands i c fs = .error (.unbound name)) :
    name ∈ fs.flatMap names ∧ i.value? name = none := by
  induction fs with
  | nil => cases herror
  | cons f fs ih =>
      obtain ⟨hf, hfs⟩ := List.forall_mem_cons.mp h
      rw [List.flatMap_cons, List.mem_append]
      rcases evaluateOperands_cons_eq_error_iff.mp herror with hfirst | ⟨-, hrest⟩
      · exact ⟨.inl (hf hfirst).1, (hf hfirst).2⟩
      · exact ⟨.inr (ih hfs hrest).1, (ih hfs hrest).2⟩

/-- Evaluation fails because of a variable of the formula that has no value. -/
theorem unbound_of_evaluate (h : f.evaluate i = .error (.unbound name)) :
    name ∈ f.names ∧ i.value? name = none := by
  induction f with
  | const value => cases h
  | var other =>
      obtain ⟨hnone, heq⟩ := evaluate_var_eq_error_iff.mp h
      cases heq
      exact ⟨List.mem_singleton_self _, hnone⟩
  | not f ih => exact ih (evaluate_not_eq_error_iff.mp h)
  | nary c fs ih =>
      rw [names_nary]
      exact unbound_of_evaluateOperands ih h
  | xor l r ihl ihr =>
      rw [names, List.mem_append]
      rcases evaluate_xor_eq_error_iff.mp h with hl | ⟨-, -, hr⟩
      · exact ⟨.inl (ihl hl).1, (ihl hl).2⟩
      · exact ⟨.inr (ihr hr).1, (ihr hr).2⟩

theorem evaluateOperands_extends_error (hij : i.Extends j)
    (h : ∀ f ∈ fs, f.evaluate i = .error e → f.evaluate j = .error e)
    (herror : evaluateOperands i c fs = .error e) : evaluateOperands j c fs = .error e := by
  induction fs with
  | nil => exact herror
  | cons f fs ih =>
      obtain ⟨hf, hfs⟩ := List.forall_mem_cons.mp h
      rw [evaluateOperands_cons_eq_error_iff] at herror ⊢
      rcases herror with hfirst | ⟨hneutral, hrest⟩
      · exact .inl (hf hfirst)
      · -- The operand that was passed over is passed over again.
        exact .inr ⟨evaluate_extends hij hneutral, ih hfs hrest⟩

/-- A failure stays as long as the variable that it names has no value. -/
theorem evaluate_extends_error (hij : i.Extends j) (hname : j.value? name = none)
    (h : f.evaluate i = .error (.unbound name)) : f.evaluate j = .error (.unbound name) := by
  induction f with
  | const value => cases h
  | var other =>
      obtain ⟨-, heq⟩ := evaluate_var_eq_error_iff.mp h
      cases heq
      exact evaluate_var_eq_error_iff.mpr ⟨hname, rfl⟩
  | not f ih => exact evaluate_not_eq_error_iff.mpr (ih (evaluate_not_eq_error_iff.mp h))
  | nary c fs ih => exact evaluateOperands_extends_error hij ih h
  | xor l r ihl ihr =>
      rw [evaluate_xor_eq_error_iff] at h ⊢
      rcases h with hl | ⟨left, hl, hr⟩
      · exact .inl (ihl hl)
      · exact .inr ⟨left, evaluate_extends hij hl, ihr hr⟩

/-! ## Outcomes are final -/

theorem binds_names_iff : i.Binds f.names ↔ i.Binds f.vars :=
  forall_congr' fun _ => imp_congr_left mem_vars.symm

/-- Evaluation that stops early agrees with the truth value in which all operands count. A value
is the truth value under every interpretation of all variables that extends the given one. A
failure names a variable of the formula without a value, and stays under every extension that
does not give it one. With values for all variables there is no failure. -/
theorem evaluate_is_final (f : Formula) (i : Interpretation) :
    (∀ value, f.evaluate i = .ok value →
      ∀ j, i.Extends j → j.Binds f.vars → f.truth j.assignment = value) ∧
    (∀ name, f.evaluate i = .error (.unbound name) →
      name ∈ f.vars ∧ i.value? name = none ∧
        ∀ j, i.Extends j → j.value? name = none → f.evaluate j = .error (.unbound name)) ∧
    (i.Binds f.vars → ∃ value, f.evaluate i = .ok value) := by
  refine ⟨?_, ?_, ?_⟩
  · intro value hvalue j hij hj
    have htruth := evaluate_eq_truth (binds_names_iff.mpr hj)
    rw [evaluate_extends hij hvalue] at htruth
    exact (Except.ok.inj htruth).symm
  · intro name herror
    obtain ⟨hmem, hnone⟩ := unbound_of_evaluate herror
    exact ⟨mem_vars.mpr hmem, hnone, fun j hij hj => evaluate_extends_error hij hj herror⟩
  · exact fun hi => ⟨_, evaluate_eq_truth (binds_names_iff.mpr hi)⟩

/-- A value that does not need `b`, and a failure at `c` that a value for `b` does not mend. -/
theorem evaluate_is_final_unread_operand :
    let f : Formula := .nary .or [.nary .and [.var "a", .var "b"], .var "c"]
    let i : Interpretation := ⟨[("a", false)]⟩
    let j : Interpretation := ⟨i.values ++ [("b", true)]⟩
    let k : Interpretation := ⟨i.values ++ [("c", true)]⟩
    let whole : Interpretation := ⟨k.values ++ [("b", true)]⟩
    f.evaluate k = .ok true ∧ f.truth whole.assignment = true ∧
      f.evaluate i = .error (.unbound "c") ∧ f.evaluate j = .error (.unbound "c") ∧
      ∃ value, f.evaluate whole = .ok value := by
  intro f i j k whole
  have hextends (i : Interpretation) (more : List (String × Bool)) :
      i.Extends ⟨i.values ++ more⟩ := by
    intro name value hvalue
    rw [Interpretation.value?] at hvalue
    simp [Interpretation.value?, List.lookup_append, hvalue]
  have hk : f.evaluate k = .ok true := by decide
  have hi : f.evaluate i = .error (.unbound "c") := by decide
  have hvalue := (evaluate_is_final f k).1 true hk whole (hextends k _) (by decide)
  have hfailure := ((evaluate_is_final f i).2.1 "c" hi).2.2 j (hextends i _) (by decide)
  exact ⟨hk, hvalue, hi, hfailure, (evaluate_is_final f whole).2.2 (by decide)⟩

end BooleanSteps.Formula
