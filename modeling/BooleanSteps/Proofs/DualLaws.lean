import BooleanSteps.Formula.Duality
import BooleanSteps.Formula.Everywhere
import BooleanSteps.Proofs.EqualKeys

/-!
# Dual laws

The dual of a formula without XOR is reduced by the dual laws, at the same places and in the same
order. The keys of dual formulas are other texts and sort differently, but formulas that can be
written have dual keys that are equal exactly if their own keys are, and the laws do nothing with
keys but compare them. So the two runs find the same repeated, absorbed and common operands.
-/

namespace BooleanSteps

variable {f g : Formula} {c : Connective} {fs gs : List Formula}

theorem Connective.not_neutral_eq (c : Connective) : (!c.neutral) = c.dual.neutral := by
  rw [not_neutral, neutral_dual]

theorem Connective.not_absorbing_eq (c : Connective) : (!c.absorbing) = c.dual.absorbing := by
  rw [not_absorbing, absorbing_dual]

namespace Formula

/-! ## Dual operands -/

theorem dual_inj : f.dual = g.dual ↔ f = g := by
  constructor
  · intro h
    rw [← dual_dual f, h, dual_dual]
  · exact congrArg dual

theorem mem_map_dual_iff : f.dual ∈ fs.map dual ↔ f ∈ fs :=
  List.mem_map_of_injective fun _ _ => dual_inj.mp

theorem const_neutral_mem_map_dual_iff :
    .const c.dual.neutral ∈ fs.map dual ↔ .const c.neutral ∈ fs := by
  rw [← c.not_neutral_eq, ← dual_const, mem_map_dual_iff]

theorem const_absorbing_mem_map_dual_iff :
    .const c.dual.absorbing ∈ fs.map dual ↔ .const c.absorbing ∈ fs := by
  rw [← c.not_absorbing_eq, ← dual_const, mem_map_dual_iff]

/-- The operands that are kept are the duals of those that are kept of the dual list. -/
theorem filter_map_dual {p q : Formula → Bool} (h : ∀ f ∈ fs, p f.dual = q f) :
    (fs.map dual).filter p = (fs.filter q).map dual := by
  rw [List.filter_map]
  exact congrArg _ (List.filter_congr h)

theorem filter_ne_neutral_map_dual (c : Connective) (fs : List Formula) :
    (fs.map dual).filter (· ≠ .const c.dual.neutral) =
      (fs.filter (· ≠ .const c.neutral)).map dual := by
  apply filter_map_dual
  intro f _
  rw [← c.not_neutral_eq, ← dual_const, decide_eq_decide, ne_eq, ne_eq, dual_inj]

theorem collapse_map_dual (c : Connective) (fs : List Formula) :
    collapse c.dual (fs.map dual) = (collapse c fs).dual := by
  match fs with
  | [] => rw [collapse, dual_const, c.not_neutral_eq, List.map_nil, collapse]
  | [f] => rfl
  | f :: g :: fs => rw [collapse_eq_nary (by simp), collapse_eq_nary (by simp), dual_nary]

theorem operands?_dual (c : Connective) (f : Formula) :
    f.dual.operands? c.dual = (f.operands? c).map (List.map dual) := by
  cases f with
  | nary d fs => cases c <;> cases d <;> simp [operands?, Connective.dual]
  | const | var | not | xor => rfl

theorem splice_dual (c : Connective) (f : Formula) :
    splice c.dual f.dual = (splice c f).map dual := by
  unfold splice
  rw [operands?_dual]
  cases f.operands? c <;> rfl

theorem names_dual (f : Formula) : f.dual.names = f.names := by
  induction f with
  | const value | var name => rfl
  | not f ih => exact ih
  | nary c fs ih =>
      rw [dual_nary, names_nary, names_nary, List.flatMap_map, List.flatMap_def,
        List.map_congr_left ih, List.flatMap_def]
  | xor l r ihl ihr => rw [dual_xor, names, names, ihl, ihr]

theorem IsWritable.dual (h : f.IsWritable) : f.dual.IsWritable := by
  intro name hname
  rw [names_dual] at hname
  exact h name hname

/-! ## Dual keys -/

theorem Rearranges.dual (h : f.Rearranges g) : f.dual.Rearranges g.dual := by
  induction h with
  | refl f => exact .refl _
  | trans _ _ ihf ihg => exact ihf.trans ihg
  | not _ ih => exact .not ih
  | xor _ _ ihl ihr => exact .xor ihl ihr
  | operand c before after _ ih =>
      simp only [dual_nary, List.map_append, List.map_cons]
      exact .operand c.dual _ _ ih
  | perm c h =>
      rw [dual_nary, dual_nary]
      exact .perm c.dual (h.map _)

theorem key_dual_eq_of_key_eq (hf : f.IsWritable) (hg : g.IsWritable) (h : f.key = g.key) :
    f.dual.key = g.dual.key :=
  (rearranges_of_key_eq hf hg h).dual.key_eq

/-- Formulas are equivalent exactly if their duals are. -/
theorem equivalent_dual (hf : f.IsWritable) (hg : g.IsWritable) :
    f.dual.equivalent g.dual = f.equivalent g := by
  rw [Bool.eq_iff_iff, equivalent_iff, equivalent_iff]
  constructor
  · intro h
    rw [← dual_dual f, ← dual_dual g]
    exact key_dual_eq_of_key_eq hf.dual hg.dual h
  · exact key_dual_eq_of_key_eq hf hg

theorem isAmong_dual (hf : f.IsWritable) (hfs : ∀ g ∈ fs, g.IsWritable) :
    f.dual.isAmong (fs.map dual) = f.isAmong fs := by
  rw [Bool.eq_iff_iff, isAmong_iff, isAmong_iff]
  simp only [List.mem_map, exists_exists_and_eq_and]
  refine exists_congr fun g => and_congr_right fun hg => ?_
  rw [← equivalent_iff, ← equivalent_iff, equivalent_dual (hfs g hg) hf]

/-! ## Dual choices -/

theorem distinct_map_dual (h : ∀ f ∈ fs, f.IsWritable) :
    distinct (fs.map dual) = (distinct fs).map dual := by
  induction fs using distinct_induction with
  | nil => rfl
  | cons f fs ih =>
      obtain ⟨hf, hfs⟩ := List.forall_mem_cons.mp h
      rw [List.map_cons, distinct_cons, distinct_cons, List.map_cons,
        filter_map_dual fun g hg => by rw [equivalent_dual (hfs g hg) hf],
        ih fun g hg => hfs g (List.mem_filter.mp hg).1]

theorem hasComplement_map_dual (h : ∀ f ∈ fs, f.IsWritable) :
    hasComplement (fs.map dual) = hasComplement fs := by
  unfold hasComplement
  rw [List.any_map, Bool.eq_iff_iff, List.any_eq_true, List.any_eq_true]
  refine exists_congr fun f => and_congr_right fun hf => ?_
  cases f with
  | not f =>
      have hamong := isAmong_dual (isWritable_not.mp (h _ hf)) h
      simpa using congrArg (· = true) hamong
  | const | var | nary | xor => simp

/-- If every answer about an element is the image of the answer about its original, so is the
first of all answers. -/
theorem findSome?_map_of {α β γ δ : Type} {pick : α → Option γ} {pick' : β → Option δ}
    {change : α → β} {image : γ → δ} {l : List α}
    (h : ∀ a ∈ l, pick' (change a) = (pick a).map image) :
    (l.map change).findSome? pick' = (l.findSome? pick).map image := by
  induction l with
  | nil => rfl
  | cons a l ih =>
      obtain ⟨ha, hl⟩ := List.forall_mem_cons.mp h
      rw [List.map_cons, List.findSome?_cons, List.findSome?_cons, ha, ih hl]
      cases pick a <;> rfl

theorem findSome?_map_congr {α β γ : Type} {pick : α → Option γ} {pick' : β → Option γ}
    {change : α → β} {l : List α} (h : ∀ a ∈ l, pick' (change a) = pick a) :
    (l.map change).findSome? pick' = l.findSome? pick := by
  have himage : ∀ a ∈ l, pick' (change a) = (pick a).map id := by simpa using h
  simpa using findSome?_map_of himage

theorem firstPair_map_of {α β γ δ : Type} {pick : α → α → Option γ} {pick' : β → β → Option δ}
    {change : α → β} {image : γ → δ} {l : List α}
    (h : ∀ a ∈ l, ∀ b ∈ l, pick' (change a) (change b) = (pick a b).map image) :
    firstPair pick' (l.map change) = (firstPair pick l).map image := by
  induction l with
  | nil => rfl
  | cons a l ih =>
      have hrest : firstPair pick' (l.map change) = (firstPair pick l).map image :=
        ih fun b hb d hd => h b (List.mem_cons_of_mem _ hb) d (List.mem_cons_of_mem _ hd)
      have hfirst : (l.map change).findSome? (pick' (change a)) =
          (l.findSome? (pick a)).map image :=
        findSome?_map_of fun b hb => h a List.mem_cons_self b (List.mem_cons_of_mem _ hb)
      rw [List.map_cons, firstPair, firstPair, hfirst, hrest]
      cases l.findSome? (pick a) <;> rfl

/-! ## Absorption -/

/-- A formula has the key of an operand exactly if it is among the operands. -/
theorem key_mem_operandKeys_iff :
    f.key ∈ operandKeys c g ↔ f.isAmong ((g.operands? c).getD []) = true := by
  rw [operandKeys, isAmong_iff, List.mem_map]

theorem isWritable_of_mem_operands (hg : g.IsWritable) :
    ∀ h ∈ (g.operands? c).getD [], h.IsWritable := by
  cases hoperands : g.operands? c with
  | none => simp
  | some gs =>
      rw [operands?_eq_some_iff] at hoperands
      subst hoperands
      exact isWritable_nary.mp hg

theorem key_dual_mem_operandKeys_iff (hf : f.IsWritable) (hg : g.IsWritable) :
    f.dual.key ∈ operandKeys c.dual g.dual ↔ f.key ∈ operandKeys c g := by
  have hoperands : (g.dual.operands? c.dual).getD [] = ((g.operands? c).getD []).map dual := by
    rw [operands?_dual]
    cases g.operands? c <;> rfl
  rw [key_mem_operandKeys_iff, key_mem_operandKeys_iff, hoperands,
    isAmong_dual hf (isWritable_of_mem_operands hg)]

/-- The search for an absorbed operand, over the operands themselves. -/
theorem absorbed?_eq (c : Connective) (fs : List Formula) :
    absorbed? c fs = fs.zipIdx.findSome? fun (f, i) =>
      fs.zipIdx.findSome? fun (g, j) =>
        if i ≠ j ∧ f.key ∈ operandKeys c.dual g then some j else none := by
  simp only [absorbed?, List.zipIdx_map, List.findSome?_map, Function.comp_def, Prod.map, id]

theorem isWritable_of_mem_zipIdx (h : ∀ f ∈ fs, f.IsWritable) {p : Formula × Nat}
    (hp : p ∈ fs.zipIdx) : p.1.IsWritable :=
  h p.1 (List.fst_mem_of_mem_zipIdx hp)

theorem absorbed?_map_dual (h : ∀ f ∈ fs, f.IsWritable) :
    absorbed? c.dual (fs.map dual) = absorbed? c fs := by
  rw [absorbed?_eq, absorbed?_eq, List.zipIdx_map]
  apply findSome?_map_congr
  rintro ⟨f, i⟩ hf
  apply findSome?_map_congr
  rintro ⟨g, j⟩ hg
  have hkey := key_dual_mem_operandKeys_iff (c := c.dual) (isWritable_of_mem_zipIdx h hf)
    (isWritable_of_mem_zipIdx h hg)
  simp only [Prod.map, id, hkey]

/-! ## Distribution -/

theorem remainder_dual (hf : f.IsWritable) (hfs : ∀ g ∈ fs, g.IsWritable) :
    remainder c.dual f.dual (fs.map dual) = (remainder c f fs).dual := by
  unfold remainder
  rw [filter_map_dual, collapse_map_dual]
  intro g hg
  rw [equivalent_dual hf (hfs g hg)]

theorem factor?_dual {left right : List Formula} (hleft : ∀ f ∈ left, f.IsWritable)
    (hright : ∀ f ∈ right, f.IsWritable) :
    factor? c.dual (left.map dual) (right.map dual) = (factor? c left right).map dual := by
  have hfind : (left.map dual).find? (·.isAmong (right.map dual)) =
      (left.find? (·.isAmong right)).map dual := by
    rw [← List.head?_filter, ← List.head?_filter, ← List.head?_map]
    exact congrArg List.head? (filter_map_dual fun f hf => isAmong_dual (hleft f hf) hright)
  unfold factor?
  rw [hfind]
  cases hcommon : left.find? (·.isAmong right) with
  | none => rfl
  | some common =>
      have hwritable := hleft common (List.mem_of_find?_eq_some hcommon)
      simp only [Option.map_some, remainder_dual hwritable hleft,
        remainder_dual hwritable hright, dual_nary, List.map_cons, List.map_nil]

theorem placedOperands_map_dual (c : Connective) (fs : List Formula) :
    placedOperands c.dual (fs.map dual) =
      (placedOperands c fs).map (Prod.map id (List.map dual)) := by
  unfold placedOperands
  rw [List.zipIdx_map, List.filterMap_map, List.map_filterMap]
  congr 1
  funext ⟨f, i⟩
  simp only [Function.comp, Prod.map, operands?_dual, Option.map_map]
  rfl

theorem distributed?_map_dual (h : ∀ f ∈ fs, f.IsWritable) :
    distributed? c.dual (fs.map dual) = (distributed? c fs).map dual := by
  have hplaced : ∀ p ∈ placedOperands c.dual fs, ∀ f ∈ p.2, f.IsWritable := by
    rintro ⟨i, gs⟩ hp
    exact isWritable_nary.mp (h _ (List.mem_of_getElem? (mem_placedOperands hp)))
  unfold distributed?
  change firstPair _ (placedOperands c.dual.dual (fs.map dual)) =
    (firstPair _ (placedOperands c.dual fs)).map dual
  rw [placedOperands_map_dual]
  apply firstPair_map_of
  rintro ⟨i, left⟩ hleft ⟨j, right⟩ hright
  simp only [Prod.map, id, factor?_dual (hplaced _ hleft) (hplaced _ hright), Option.map_map,
    Function.comp_def, List.eraseIdx_map, ← List.map_cons, collapse_map_dual]

/-! ## The dual law of a node -/

/-- The answer about the dual formula: the dual law and the dual result. -/
def dualAnswer (answer : Law × Formula) : Law × Formula := (answer.1.dual, answer.2.dual)

theorem connectiveLaw?_dual (h : ∀ f ∈ fs, f.IsWritable) :
    connectiveLaw? c.dual (fs.map dual) = (connectiveLaw? c fs).map dualAnswer := by
  unfold connectiveLaw?
  simp only [const_neutral_mem_map_dual_iff, const_absorbing_mem_map_dual_iff,
    distinct_map_dual h, List.length_map, hasComplement_map_dual h, absorbed?_map_dual h,
    distributed?_map_dual h]
  split
  next =>
    rw [filter_ne_neutral_map_dual, collapse_map_dual]
    rfl
  split
  next =>
    rw [← c.not_absorbing_eq]
    rfl
  split
  next =>
    rw [Option.map_some, dualAnswer, dual_nary]
    rfl
  split
  next =>
    rw [← c.not_absorbing_eq]
    rfl
  split
  next =>
    rw [List.eraseIdx_map, collapse_map_dual]
    rfl
  next =>
    rw [Option.map_map, Option.map_map]
    rfl

theorem negationLaw?_dual (f : Formula) :
    f.dual.negationLaw? = f.negationLaw?.map dualAnswer := by
  cases f with
  | nary c fs => simp [negationLaw?, dualAnswer, Law.dual, Function.comp_def]
  | const | var | not | xor => rfl

/-- At the root of a formula other than XOR, duality makes no difference to which law is chosen. -/
theorem rootLaw?_dual (hf : f.IsWritable) (hxor : ∀ l r, f ≠ .xor l r) :
    f.dual.rootLaw? = f.rootLaw?.map dualAnswer := by
  cases f with
  | const | var => rfl
  | not f => exact negationLaw?_dual f
  | nary c fs =>
      rw [dual_nary]
      exact connectiveLaw?_dual (isWritable_nary.mp hf)
  | xor l r => exact absurd rfl (hxor l r)

end Formula

/-- The derivation of the dual formula by the dual laws. -/
def Derived.dual (d : Derived Formula) : Derived Formula :=
  ⟨d.value.dual, d.applications.map Application.dual⟩

namespace Formula

theorem reduceRoot_dual (hf : f.IsWritable) (hxor : ∀ l r, f ≠ .xor l r) :
    f.dual.reduceRoot = f.reduceRoot.dual := by
  unfold reduceRoot
  rw [rootLaw?_dual hf hxor]
  cases f.rootLaw? <;> rfl

/-! ## The dual of a step -/

theorem reduceRoot_not_dual (hf : f.IsWritable) (hstep : f.dual.step = f.step.dual) :
    reduceRoot (.not f.dual.step) = (reduceRoot (.not f.step)).dual := by
  rw [hstep, ← dual_not]
  exact reduceRoot_dual (isWritable_not.mpr hf.step) (by simp)

theorem reduceRoot_nary_dual (hfs : ∀ f ∈ fs, f.IsWritable)
    (hsteps : ∀ f ∈ fs, f.dual.step = f.step.dual) :
    reduceRoot (.nary c.dual ((fs.map dual).map step)) =
      (reduceRoot (.nary c (fs.map step))).dual := by
  have hstepped : IsWritable (.nary c (fs.map step)) :=
    isWritable_nary.mpr (List.forall_mem_map.mpr fun f hf => (hfs f hf).step)
  have hmap : (fs.map dual).map step = (fs.map step).map dual := by
    rw [List.map_map, List.map_map]
    exact List.map_congr_left hsteps
  rw [hmap, ← dual_nary]
  exact reduceRoot_dual hstepped (by simp)

theorem step_dual (hf : f.IsWritable) (hxor : f.XorFree) : f.dual.step = f.step.dual := by
  induction f with
  | const value | var name => rfl
  | not f ih =>
      have hoperand := isWritable_not.mp hf
      exact congrArg Derived.value (reduceRoot_not_dual hoperand (ih hoperand hxor.2))
  | nary c fs ih =>
      have hfs := isWritable_nary.mp hf
      have hsteps : ∀ f ∈ fs, f.dual.step = f.step.dual := fun f hmem =>
        ih f hmem (hfs f hmem) ((everywhere_nary.mp hxor).2 f hmem)
      rw [dual_nary, step_nary, step_nary, reduceRoot_nary_dual hfs hsteps]
      rfl
  | xor l r => exact absurd rfl (hxor.root l r)

theorem applications_stepDerived_dual (hf : f.IsWritable) (hxor : f.XorFree) :
    f.dual.stepDerived.applications = f.stepDerived.applications.map Application.dual := by
  induction f with
  | const value | var name => rfl
  | not f ih =>
      have hoperand := isWritable_not.mp hf
      rw [dual_not, applications_stepDerived_not, applications_stepDerived_not, ih hoperand hxor.2,
        reduceRoot_not_dual hoperand (step_dual hoperand hxor.2), List.map_append]
      rfl
  | nary c fs ih =>
      have hfs := isWritable_nary.mp hf
      have hxors := (everywhere_nary.mp hxor).2
      have happlications : ∀ f ∈ fs, f.dual.stepDerived.applications =
          f.stepDerived.applications.map Application.dual := fun f hmem =>
        ih f hmem (hfs f hmem) (hxors f hmem)
      rw [dual_nary, applications_stepDerived_nary, applications_stepDerived_nary,
        reduceRoot_nary_dual hfs fun f hmem => step_dual (hfs f hmem) (hxors f hmem),
        List.map_append, List.flatMap_map, List.map_flatMap, List.flatMap_def,
        List.map_congr_left happlications, ← List.flatMap_def]
      rfl
  | xor l r => exact absurd rfl (hxor.root l r)

end Formula

end BooleanSteps
