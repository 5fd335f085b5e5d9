import BooleanSteps.Proofs.PrintedPhrases

/-!
# A formula that needs more levels is refused

Reading the tokens of a printed formula fails where the levels of the formula exceed the
limit, and it fails for this reason: some token of the text stands at the limit and would
open one level more. What stands before that token is read as it is in the grammar.
-/

namespace BooleanSteps

/-- An operand in a place that requires a precedence may follow what the group holds. -/
def OpenGroup.Admits : Nat → OpenGroup → Prop
  | 0, g | 1, g => g.chained = [] ∧ g.conjuncts = [] ∧ g.negations = 0
  | 2, g => g.conjuncts = [] ∧ g.negations = 0
  | 3, g => g.negations = 0
  | _, _ => True

theorem OpenGroup.Admits.tighten {g : OpenGroup} {required precedence : Nat}
    (hle : required ≤ precedence) (h : g.Admits required) : g.Admits precedence := by
  have hthree (hp : required ≤ 3) : g.negations = 0 := by
    match required, hp with
    | 0, _ | 1, _ => exact h.2.2
    | 2, _ => exact h.2
    | 3, _ => exact h
  have htwo (hp : required ≤ 2) : g.conjuncts = [] := by
    match required, hp with
    | 0, _ | 1, _ => exact h.2.1
    | 2, _ => exact h.1
  match precedence, hle with
  | 0, hle | 1, hle =>
      match required, hle with
      | 0, _ | 1, _ => exact h
  | 2, hle => exact ⟨htwo hle, hthree (Nat.le_succ_of_le hle)⟩
  | 3, hle => exact hthree hle
  | _ + 4, _ => trivial

theorem OpenGroup.empty_admits (required : Nat) : OpenGroup.empty.Admits required :=
  Admits.tighten (Nat.zero_le required) ⟨rfl, rfl, rfl⟩

namespace Reading

open OpenGroup

/-- In every place that requires the precedence, the tokens open a level too many. -/
def Refuses (limit required level : Nat) (tokens : List Token) : Prop :=
  ∀ u : Unfinished, u.group.Admits required → u.depth = level →
    feedAll limit (.awaiting u) tokens = .error .tooDeep

variable {limit links level : Nat} {tokens : List Token} {f : Formula}

theorem descend_of_le {u next : Unfinished} (h : limit ≤ u.depth) :
    descend limit u next = .error .tooDeep := if_neg (Nat.not_lt.mpr h)

theorem Refuses.loosen {required precedence : Nat} (hle : required ≤ precedence)
    (h : Refuses limit precedence level tokens) : Refuses limit required level tokens :=
  fun u hu hdepth => h u (hu.tighten hle) hdepth

theorem Refuses.append {required : Nat} (h : Refuses limit required level tokens)
    (others : List Token) : Refuses limit required level (tokens ++ others) :=
  fun u hu hdepth => feedAll_append_error (h u hu hdepth) others

/-! ## Parentheses and negations -/

section Enclosed

variable (h : ∀ level, level ≤ limit → limit < level + f.levels →
  Refuses limit f.precedence level f.tokens)
include h

theorem Refuses.enclose {required : Nat} (hlevel : level ≤ limit)
    (hlimit : limit < level + f.encloseLevels required f.levels) :
    Refuses limit required level (f.encloseTokens required f.tokens) := by
  unfold Formula.encloseLevels at hlimit
  unfold Formula.encloseTokens
  split at hlimit
  next hlt =>
    rw [if_pos hlt]
    intro u hu hdepth
    by_cases hlt : level < limit
    · have hopen : (Reading.awaiting u).feed limit .openParen = .ok (.awaiting u.enter) :=
        descend_of_lt (hdepth ▸ hlt)
      have hinner := h (level + 1) (by omega) (by omega)
      rw [List.cons_append, feedAll_cons hopen]
      exact hinner.append _ u.enter (empty_admits _) (by rw [depth_enter, hdepth])
    · have hopen : (Reading.awaiting u).feed limit .openParen = .error .tooDeep :=
        descend_of_le (hdepth ▸ Nat.le_of_not_lt hlt)
      exact feedAll_cons_error hopen _
  next hge =>
    rw [if_neg hge]
    exact (h level hlevel hlimit).loosen (Nat.le_of_not_lt hge)

/-- A negation opens a level, if one is left, and its operand stands at the next one. -/
theorem Refuses.not (hlimit : limit < level + (f.encloseLevels 4 f.levels + 1)) :
    Refuses limit 4 level (.not :: f.encloseTokens 4 f.tokens) := by
  intro u _ hdepth
  by_cases hlt : level < limit
  · have hnot : (Reading.awaiting u).feed limit .not = .ok (.awaiting (u.modify .negate)) :=
      descend_of_lt (hdepth ▸ hlt)
    have hoperand : Refuses limit 4 (level + 1) (f.encloseTokens 4 f.tokens) :=
      Refuses.enclose h (by omega) (by omega)
    rw [feedAll_cons hnot]
    exact hoperand _ trivial (by rw [depth_negate, hdepth])
  · have hnot : (Reading.awaiting u).feed limit .not = .error .tooDeep :=
      descend_of_le (hdepth ▸ Nat.le_of_not_lt hlt)
    exact feedAll_cons_error hnot _

end Enclosed

/-! ## Operands of a connective -/

/-- Behind operands that are read, with the connective behind each, the place is as before. -/
theorem exists_feedAll_followed {c : Connective} {phrases : List Phrase}
    (h : ∀ p ∈ phrases, Derives limit c.operandCategory level p.1 p.2) {u : Unfinished}
    (hu : u.group.Admits c.precedence) (hdepth : u.depth = level) :
    ∃ next : Unfinished, next.group.Admits c.precedence ∧ next.depth = level ∧
      feedAll limit (.awaiting u) (followed (.connective c) phrases) = .ok (.awaiting next) := by
  obtain ⟨⟨disjuncts, chained, conjuncts, negations⟩, enclosing⟩ := u
  cases c with
  | and =>
      obtain rfl : negations = 0 := hu
      have hlevel : chained.length + depthAround enclosing = level := hdepth
      have hfeed := feedAll_followed_and (fun p hp => (h p hp).takes) disjuncts chained conjuncts
        hlevel
      exact ⟨⟨⟨disjuncts, chained, conjuncts ++ phrases.map Prod.snd, 0⟩, enclosing⟩, rfl, hdepth,
        hfeed⟩
  | or =>
      obtain ⟨rfl, rfl, rfl⟩ : chained = [] ∧ conjuncts = [] ∧ negations = 0 := hu
      have hlevel : depthAround enclosing = level := by
        rw [← hdepth]
        exact (Nat.zero_add _).symm
      have hfeed := feedAll_followed_or (fun p hp => (h p hp).takes) disjuncts hlevel
      exact ⟨⟨⟨disjuncts ++ phrases.map Prod.snd, [], [], 0⟩, enclosing⟩, ⟨rfl, rfl, rfl⟩, hdepth,
        hfeed⟩

/-- Operands are refused with the first one among them that is, those before it being read. -/
theorem refuses_intercalate {c : Connective} {part : Formula → List Token} {fs : List Formula}
    (h : ∀ f ∈ fs, Spreads limit level c (part f) f.flat ∨
      Refuses limit c.precedence level (part f))
    (hrefused : ∃ f ∈ fs, Refuses limit c.precedence level (part f)) :
    Refuses limit c.precedence level ([Token.connective c].intercalate (fs.map part)) := by
  induction fs with
  | nil =>
      obtain ⟨f, hf, -⟩ := hrefused
      exact absurd hf List.not_mem_nil
  | cons f fs ih =>
      obtain ⟨hf, hfs⟩ := List.forall_mem_cons.mp h
      simp only [List.mem_cons, exists_eq_or_imp] at hrefused
      cases fs with
      | nil => simpa using hrefused
      | cons g fs =>
          rw [List.map_cons, List.map_cons, List.intercalate_cons_cons]
          by_cases hself : Refuses limit c.precedence level (part f)
          · rw [List.append_assoc]
            exact hself.append _
          · obtain ⟨phrases, hne, htokens, hphrases, -⟩ := hf.resolve_right hself
            have hfollowed : part f ++ [.connective c] = followed (.connective c) phrases := by
              rw [followed_eq_separated_append hne, htokens]
            have hothers := ih hfs (hrefused.resolve_left hself)
            intro u hu hdepth
            obtain ⟨next, hnext, hdepth', hfeed⟩ :=
              exists_feedAll_followed (fun p hp => (hphrases p hp).1) hu hdepth
            rw [hfollowed, feedAll_append hfeed]
            exact hothers next hnext hdepth'

/-- Where the levels of the operands exceed the limit, the node of them is refused. -/
theorem refuses_nary {c : Connective} {fs : List Formula}
    (h : ∀ f ∈ fs, ∀ level, level ≤ limit → limit < level + f.levels →
      Refuses limit f.precedence level f.tokens)
    (hlevel : level ≤ limit) (hlimit : limit < level + Formula.levelsAll c.precedence fs) :
    Refuses limit c.precedence level (Formula.tokens (.nary c fs)) := by
  have hoperand (f : Formula) (hf : f ∈ fs)
      (hlimit : limit < level + f.encloseLevels c.precedence f.levels) :
      Refuses limit c.precedence level (f.encloseTokens c.precedence f.tokens) :=
    Refuses.enclose (h f hf) hlevel hlimit
  -- One of the operands exceeds the limit, and every other one is read or does so too.
  have hsome : limit - level < Formula.levelsAll c.precedence fs := by omega
  obtain ⟨f, hf, hlt⟩ := Formula.lt_levelsAll_iff.mp hsome
  obtain ⟨g, gs, rfl⟩ := List.exists_cons_of_ne_nil (List.ne_nil_of_mem hf)
  rw [Formula.tokens_nary]
  refine refuses_intercalate (fun f hf => ?_) ⟨f, hf, hoperand f hf (by omega)⟩
  by_cases hle : level + f.encloseLevels c.precedence f.levels ≤ limit
  · have hread : Stands limit 0 c.precedence level
        (f.encloseTokens c.precedence f.tokens) f.flat :=
      Stands.enclose (fun level hle => stands_tokens f hle) 0 level (by cases c <;> decide)
        (by cases c <;> decide) hle
    exact .inl (stands_precedence_iff.mp hread)
  · exact .inr (hoperand f hf (Nat.lt_of_not_le hle))

/-! ## Operands of a chain -/

/-- Behind a chain, `^` opens one level more than the chain has links, if so many are left. -/
theorem exists_feedAll_chain (h : Chains limit links level tokens f)
    (disjuncts chained : List Formula) {enclosing : List OpenGroup}
    (hlevel : chained.length + depthAround enclosing = level) :
    ∃ operands : List Formula, operands.length = links + 1 ∧
      feedAll limit (.awaiting ⟨⟨disjuncts, chained, [], 0⟩, enclosing⟩) (tokens ++ [.xor]) =
        if level + links < limit then
          .ok (.awaiting ⟨⟨disjuncts, chained ++ operands, [], 0⟩, enclosing⟩)
        else .error .tooDeep := by
  obtain ⟨first, others, rfl, rfl, hlimit, hphrases, -⟩ := h
  obtain ⟨init, last, heq⟩ := exists_eq_concat_of_ne_nil (List.cons_ne_nil first others)
  have hlength := length_eq_of_cons_eq_concat heq
  rw [heq] at hphrases ⊢
  obtain ⟨hinit, hlast⟩ := forall_getElem_concat
    (p := fun i p => Derives limit .conjunction (level + i) p.1 p.2) hphrases
  have hfeed := feedAll_followed_xor (fun i hi => hlimit i (hlength ▸ hi))
    (fun i hi => (hinit i hi).takes) disjuncts chained hlevel
  have hlevel' : (chained ++ init.map Prod.snd).length + depthAround enclosing =
      level + init.length := by
    rw [List.length_append, List.length_map]
    omega
  have hxor := feedAll_append_xor hlast.takes disjuncts (chained ++ init.map Prod.snd) hlevel'
  refine ⟨init.map Prod.snd ++ [last.2], by simp [hlength], ?_⟩
  rw [separated_concat, List.append_assoc, feedAll_append hfeed, hxor, hlength,
    List.append_assoc]

/-- The right operand of `^` is refused behind its chain, if `^` is not. -/
theorem Refuses.chain {others : List Token} (h : Chains limit links level tokens f)
    (hothers : level + links < limit → Refuses limit 3 (level + links + 1) others) :
    Refuses limit 2 level (tokens ++ .xor :: others) := by
  rintro ⟨⟨disjuncts, chained, conjuncts, negations⟩, enclosing⟩ ⟨rfl, rfl⟩ hdepth
  have hlevel : chained.length + depthAround enclosing = level := hdepth
  obtain ⟨operands, hlength, hfeed⟩ := exists_feedAll_chain h disjuncts chained hlevel
  rw [List.append_cons]
  split at hfeed
  next hlt =>
    rw [feedAll_append hfeed]
    refine hothers hlt ⟨⟨disjuncts, chained ++ operands, [], 0⟩, enclosing⟩ rfl ?_
    simp only [Unfinished.depth, OpenGroup.depth, List.length_append]
    omega
  next => exact feedAll_append_error hfeed others

/-- Where the levels of a formula exceed the limit, its tokens are refused. -/
theorem refuses_tokens (f : Formula) (hlevel : level ≤ limit) (hlimit : limit < level + f.levels) :
    Refuses limit f.precedence level f.tokens := by
  induction f generalizing level with
  | const value | var name => exact absurd hlimit (Nat.not_lt.mpr hlevel)
  | not f ih => exact Refuses.not (fun level => ih) hlimit
  | nary c fs ih =>
      rw [Formula.levels] at hlimit
      exact refuses_nary (fun f hf level hle hlt => ih f hf hle hlt) hlevel hlimit
  | xor l r ihl ihr =>
      rw [Formula.levels] at hlimit
      by_cases hle : level + l.encloseLevels 2 l.levels ≤ limit
      · have hleft : Chains limit l.links level (l.encloseTokens 2 l.tokens) l.flat :=
          Chains.enclose (fun level hle => stands_tokens l hle) hle
        exact Refuses.chain hleft fun hlt =>
          Refuses.enclose (fun level hle hlt => ihr hle hlt) hlt (by omega)
      · have hleft : Refuses limit 2 level (l.encloseTokens 2 l.tokens) :=
          Refuses.enclose (fun level hle hlt => ihl hle hlt) hlevel (Nat.lt_of_not_le hle)
        exact hleft.append _

/-- Reading the tokens of a formula whose levels exceed the limit fails for this reason. -/
theorem feedAll_tokens_of_lt {f : Formula} (h : limit < f.levels) :
    feedAll limit (.awaiting .start) f.tokens = .error .tooDeep := by
  have hlimit : limit < 0 + f.levels := by omega
  exact refuses_tokens f (Nat.zero_le limit) hlimit _ (empty_admits _) rfl

end Reading

end BooleanSteps
