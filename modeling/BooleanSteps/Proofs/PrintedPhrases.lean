import BooleanSteps.Formula.Levels
import BooleanSteps.Proofs.FlatForm
import BooleanSteps.Proofs.GrammarCompleteness
import BooleanSteps.Proofs.PrintedTokens

/-!
# A printed formula is written for its flat form

The grammar derives the tokens of a formula in every place whose precedence allows them,
as long as there are levels enough for the formula. Nested nodes of one connective are
printed as one chain, so the formula of the derivation is the flat one.
-/

namespace BooleanSteps

/-! ## Phrases in a place -/

/-- The phrases that a connective joins. -/
def Connective.operandCategory : Connective → Category
  | .and => .unary
  | .or => .exclusive

/-- The tokens are operands of the connective, and the operands of the formula are theirs. -/
def Spreads (limit level : Nat) (c : Connective) (tokens : List Token) (f : Formula) : Prop :=
  ∃ phrases : List Phrase, phrases ≠ [] ∧ tokens = separated (.connective c) phrases ∧
    (∀ p ∈ phrases, Derives limit c.operandCategory level p.1 p.2 ∧ p.2.IsFlat) ∧
    (phrases.map Prod.snd).flatMap (Formula.splice c) = f.splice c

/-- The tokens are a chain of XOR with a number of links for the formula. -/
def Chains (limit links level : Nat) (tokens : List Token) (f : Formula) : Prop :=
  ∃ (first : Phrase) (others : List Phrase), tokens = separated .xor (first :: others) ∧
    others.length = links ∧ (∀ i, i < links → level + i < limit) ∧
    Climbs limit level (first :: others) ∧
    others.foldl (fun g p => .xor g p.2) first.2 = f

/-- What the tokens of a formula are in a place that requires a precedence. If this is the
precedence of XOR, they are a chain with a number of links. -/
def Stands (limit links : Nat) : Nat → Nat → List Token → Formula → Prop
  | 0, level, tokens, f | 1, level, tokens, f => Spreads limit level .or tokens f
  | 2, level, tokens, f => Chains limit links level tokens f
  | 3, level, tokens, f => Spreads limit level .and tokens f
  | 4, level, tokens, f => Derives limit .unary level tokens f
  | _, level, tokens, f => Derives limit .primary level tokens f

variable {limit links level : Nat} {tokens : List Token} {f : Formula}

theorem Spreads.of_derives {c : Connective} (h : Derives limit c.operandCategory level tokens f)
    (hf : f.IsFlat) : Spreads limit level c tokens f := by
  refine ⟨[(tokens, f)], List.cons_ne_nil _ _, by rw [separated_singleton], ?_, ?_⟩
  · intro p hp
    rw [List.mem_singleton.mp hp]
    exact ⟨h, hf⟩
  · exact List.flatMap_singleton ..

/-- The formula that the grammar makes of the operands is the flat one. -/
theorem join_eq_of_splice {c : Connective} {phrases : List Phrase} (hne : phrases ≠ [])
    (hflat : ∀ p ∈ phrases, p.2.IsFlat) (hf : f.IsFlat)
    (h : (phrases.map Prod.snd).flatMap (Formula.splice c) = f.splice c) :
    Formula.join c (phrases.map Prod.snd) = f := by
  rw [Formula.join_eq_collapse (by simpa using hne), h, hf.collapse_splice]
  intro g hg
  obtain ⟨p, hp, rfl⟩ := List.mem_map.mp hg
  exact hflat p hp

theorem Spreads.conjunction (h : Spreads limit level .and tokens f) (hf : f.IsFlat) :
    Derives limit .conjunction level tokens f := by
  obtain ⟨phrases, hne, rfl, hphrases, hsplice⟩ := h
  rw [← join_eq_of_splice hne (fun p hp => (hphrases p hp).2) hf hsplice]
  exact Derives.conjunction phrases hne fun p hp => (hphrases p hp).1

theorem Spreads.disjunction (h : Spreads limit level .or tokens f) (hf : f.IsFlat) :
    Derives limit .disjunction level tokens f := by
  obtain ⟨phrases, hne, rfl, hphrases, hsplice⟩ := h
  rw [← join_eq_of_splice hne (fun p hp => (hphrases p hp).2) hf hsplice]
  exact Derives.disjunction phrases hne fun p hp => (hphrases p hp).1

theorem Chains.of_conjunction (h : Derives limit .conjunction level tokens f) :
    Chains limit 0 level tokens f := by
  refine ⟨(tokens, f), [], by rw [separated_singleton], rfl, ?_, climbs_nil.append h, rfl⟩
  exact fun i hi => absurd hi (Nat.not_lt_zero i)

theorem Chains.exclusive (h : Chains limit links level tokens f) :
    Derives limit .exclusive level tokens f := by
  obtain ⟨first, others, rfl, rfl, hlimit, hphrases, rfl⟩ := h
  exact Derives.exclusive first others hlimit hphrases

/-- What may stand where a precedence is required may stand where less is required. The place
of a chain is left out: there it matters how long the chain is. -/
theorem Stands.loosen (links' : Nat) {required precedence : Nat} (hle : required ≤ precedence)
    (hne : required ≠ 2) (hf : f.IsFlat) (h : Stands limit links precedence level tokens f) :
    Stands limit links' required level tokens f := by
  -- From the tightest category to the loosest, one at a time.
  have hfour (hp : 4 ≤ precedence) : Derives limit .unary level tokens f := by
    match precedence, hp with
    | 4, _ => exact h
    | precedence + 5, _ => exact Derives.primary h
  have hthree (hp : 3 ≤ precedence) : Spreads limit level .and tokens f := by
    rcases Nat.eq_or_lt_of_le hp with rfl | hlt
    · exact h
    · exact Spreads.of_derives (hfour hlt) hf
  have htwo (hp : 2 ≤ precedence) : Derives limit .exclusive level tokens f := by
    rcases Nat.eq_or_lt_of_le hp with rfl | hlt
    · exact Chains.exclusive h
    · exact (Chains.of_conjunction ((hthree hlt).conjunction hf)).exclusive
  have hone : Spreads limit level .or tokens f := by
    match precedence, h, htwo with
    | 0, h, _ | 1, h, _ => exact h
    | precedence + 2, _, htwo => exact Spreads.of_derives (htwo (Nat.le_add_left 2 precedence)) hf
  match required, hle, hne with
  | 0, _, _ | 1, _, _ => exact hone
  | 3, hle, _ => exact hthree hle
  | 4, hle, _ => exact hfour hle
  | required + 5, hle, _ =>
      match precedence, hle with
      | precedence + 5, _ => exact h

section Enclosed

variable (h : ∀ level, level + f.levels ≤ limit →
  Stands limit f.links f.precedence level f.tokens f.flat)
include h

theorem Stands.enclose (links level : Nat) {required : Nat} (hrequired : required ≤ 5)
    (hne : required ≠ 2) (hlevel : level + f.encloseLevels required f.levels ≤ limit) :
    Stands limit links required level (f.encloseTokens required f.tokens) f.flat := by
  unfold Formula.encloseLevels at hlevel
  unfold Formula.encloseTokens
  split at hlevel
  next hlt =>
    have hinner := h (level + 1) (by omega)
    have hdisjunction : Derives limit .disjunction (level + 1) f.tokens f.flat :=
      Spreads.disjunction (hinner.loosen 0 (Nat.zero_le _) (by decide) f.flat_isFlat)
        f.flat_isFlat
    have hparen : Stands limit 0 5 level (.openParen :: f.tokens ++ [.closeParen]) f.flat :=
      Derives.paren (by omega) hdisjunction
    rw [if_pos hlt]
    exact hparen.loosen links hrequired hne f.flat_isFlat
  next hge =>
    rw [if_neg hge]
    exact (h level hlevel).loosen links (Nat.le_of_not_lt hge) hne f.flat_isFlat

/-- On the left of `^` a chain goes on, and anything else is its first operand. -/
theorem Chains.enclose (hlevel : level + f.encloseLevels 2 f.levels ≤ limit) :
    Chains limit f.links level (f.encloseTokens 2 f.tokens) f.flat := by
  by_cases htwo : f.precedence = 2
  · have htokens : f.encloseTokens 2 f.tokens = f.tokens := if_neg (by omega)
    have hlevels : f.encloseLevels 2 f.levels = f.levels := if_neg (by omega)
    have hself := h level (by omega)
    rw [htwo] at hself
    rwa [htokens]
  · rw [Formula.encloseLevels_two htwo] at hlevel
    rw [Formula.encloseTokens_two htwo, Formula.links_eq_zero htwo]
    have hoperand : Stands limit 0 3 level (f.encloseTokens 3 f.tokens) f.flat :=
      Stands.enclose h 0 level (by decide) (by decide) hlevel
    exact Chains.of_conjunction (Spreads.conjunction hoperand f.flat_isFlat)

end Enclosed

/-- The phrases of several operands, one after the other. -/
theorem exists_phrases_of_spreads {c : Connective} {part : Formula → List Token}
    {fs : List Formula} (hne : fs ≠ []) (h : ∀ f ∈ fs, Spreads limit level c (part f) f.flat) :
    ∃ phrases : List Phrase, phrases ≠ [] ∧
      [Token.connective c].intercalate (fs.map part) = separated (.connective c) phrases ∧
      (∀ p ∈ phrases, Derives limit c.operandCategory level p.1 p.2 ∧ p.2.IsFlat) ∧
      (phrases.map Prod.snd).flatMap (Formula.splice c) =
        (fs.map Formula.flat).flatMap (Formula.splice c) := by
  induction fs with
  | nil => exact absurd rfl hne
  | cons f fs ih =>
      obtain ⟨hf, hfs⟩ := List.forall_mem_cons.mp h
      obtain ⟨phrases, hphrases, htokens, hderive, hsplice⟩ := hf
      cases fs with
      | nil => exact ⟨phrases, hphrases, by simpa using htokens, hderive, by simpa using hsplice⟩
      | cons g fs =>
          obtain ⟨others, hothers, htokens', hderive', hsplice'⟩ := ih (List.cons_ne_nil g fs) hfs
          refine ⟨phrases ++ others, by simp [hphrases], ?_, ?_, ?_⟩
          · rw [separated_append hothers, followed_eq_separated_append hphrases, ← htokens,
              ← htokens']
            simp [List.intercalate_cons_cons]
          · intro p hp
            rcases List.mem_append.mp hp with hp | hp
            · exact hderive p hp
            · exact hderive' p hp
          · rw [List.map_append, List.flatMap_append, hsplice, hsplice']
            rfl

/-- Operands of operands are operands of the same chain. -/
theorem spreads_intercalate {c : Connective} {part : Formula → List Token} {fs : List Formula}
    (hne : fs ≠ []) (h : ∀ f ∈ fs, Spreads limit level c (part f) f.flat) :
    Spreads limit level c ([Token.connective c].intercalate (fs.map part))
      (Formula.flat (.nary c fs)) := by
  obtain ⟨phrases, hphrases, htokens, hderive, hsplice⟩ := exists_phrases_of_spreads hne h
  refine ⟨phrases, hphrases, htokens, hderive, ?_⟩
  have hflat : ∀ g ∈ fs.map Formula.flat, g.IsFlat := by
    intro g hg
    obtain ⟨f, -, rfl⟩ := List.mem_map.mp hg
    exact Formula.flat_isFlat f
  rw [hsplice, Formula.flat_nary, Formula.splice_collapse]
  · obtain ⟨f, fs, rfl⟩ := List.exists_cons_of_ne_nil hne
    simp [Formula.splice_ne_nil (Formula.flat_isFlat f) c]
  · exact fun g hg => (Formula.of_mem_flatMap_splice hflat hg).2

theorem Chains.append {others : List Token} {g : Formula} (h : Chains limit links level tokens f)
    (hlevel : level + links < limit)
    (hg : Derives limit .conjunction (level + links + 1) others g) :
    Chains limit (links + 1) level (tokens ++ .xor :: others) (.xor f g) := by
  obtain ⟨first, phrases, rfl, rfl, hlimit, hphrases, rfl⟩ := h
  refine ⟨first, phrases ++ [(others, g)], ?_, by simp, ?_, hphrases.append hg, ?_⟩
  · rw [← List.cons_append, separated_concat,
      followed_eq_separated_append (List.cons_ne_nil _ _)]
    simp
  · intro i hi
    omega
  · rw [List.foldl_append]
    rfl

theorem stands_precedence_iff {c : Connective} :
    Stands limit links c.precedence level tokens f ↔ Spreads limit level c tokens f := by
  cases c <;> rfl

/-- In every place that its precedence allows, a formula is printed as its flat form. -/
theorem stands_tokens (f : Formula) (hlevel : level + f.levels ≤ limit) :
    Stands limit f.links f.precedence level f.tokens f.flat := by
  induction f generalizing level with
  | const value => exact Derives.const level value
  | var name => exact Derives.var level name
  | not f ih =>
      rw [Formula.levels] at hlevel
      have hoperand : Stands limit 0 4 (level + 1) (f.encloseTokens 4 f.tokens) f.flat :=
        Stands.enclose (fun level hle => ih hle) 0 (level + 1) (by decide) (by decide) (by omega)
      exact Derives.not (by omega) hoperand
  | nary c fs ih =>
      cases fs with
      | nil =>
          -- Without operands the constant is printed that the connective stands for.
          have hconst : Stands limit 0 5 level [.const c.neutral] (.const c.neutral) :=
            Derives.const level c.neutral
          exact hconst.loosen 0 (by cases c <;> decide) (by cases c <;> decide)
            (Formula.isFlat_const _)
      | cons f fs =>
          rw [Formula.levels] at hlevel
          rw [Formula.tokens_nary]
          refine stands_precedence_iff.mpr (spreads_intercalate (List.cons_ne_nil f fs) ?_)
          intro g hg
          have hpart := Formula.encloseLevels_le_levelsAll c.precedence hg
          have hoperand : Stands limit 0 c.precedence level
              (g.encloseTokens c.precedence g.tokens) g.flat :=
            Stands.enclose (fun level hle => ih g hg hle) 0 level (by cases c <;> decide)
              (by cases c <;> decide) (by omega)
          exact stands_precedence_iff.mp hoperand
  | xor l r ihl ihr =>
      rw [Formula.levels] at hlevel
      have hleft : Chains limit l.links level (l.encloseTokens 2 l.tokens) l.flat :=
        Chains.enclose (fun level hle => ihl hle) (by omega)
      have hright : Stands limit 0 3 (level + l.links + 1) (r.encloseTokens 3 r.tokens) r.flat :=
        Stands.enclose (fun level hle => ihr hle) 0 _ (by decide) (by decide) (by omega)
      exact hleft.append (by omega) (Spreads.conjunction hright r.flat_isFlat)

/-- With levels enough, the tokens of a formula are written for its flat form. -/
theorem derives_tokens (f : Formula) (hlevel : level + f.levels ≤ limit) :
    Derives limit .disjunction level f.tokens f.flat := by
  have hstands := (stands_tokens f hlevel).loosen 0 (Nat.zero_le _) (by decide) f.flat_isFlat
  exact Spreads.disjunction hstands f.flat_isFlat

/-! ## Printing loses nothing -/

/-- At most one formula can be read from the same tokens, within any limit. -/
theorem Derives.unique {f g : Formula} (hf : Derives limit .disjunction 0 tokens f)
    (hg : Derives limit .disjunction 0 tokens g) : f = g := by
  -- The reader is a function, and it reads both.
  obtain ⟨last, hfeed, hfinish⟩ := hf.exists_finish
  obtain ⟨last', hfeed', hfinish'⟩ := hg.exists_finish
  rw [hfeed] at hfeed'
  cases hfeed'
  rw [hfinish] at hfinish'
  exact Except.ok.inj hfinish'

namespace Formula

theorem flat_eq_of_render_eq {f g : Formula} (hf : f.IsWritable) (hg : g.IsWritable)
    (h : f.render = g.render) : f.flat = g.flat := by
  have htokenize := tokenize_render hf
  rw [h, tokenize_render hg] at htokenize
  have htokens : g.tokens = f.tokens := List.append_cancel_right (Except.ok.inj htokenize)
  have hlimit : 0 + f.levels ≤ max f.levels g.levels := by omega
  have hlimit' : 0 + g.levels ≤ max f.levels g.levels := by omega
  have hderive := derives_tokens g hlimit'
  rw [htokens] at hderive
  exact (derives_tokens f hlimit).unique hderive

/-- Normal formulas that can be written are the same if they are printed the same. -/
theorem eq_of_render_eq {f g : Formula} (hf : f.IsNormal) (hg : g.IsNormal)
    (hfw : f.IsWritable) (hgw : g.IsWritable) (h : f.render = g.render) : f = g := by
  have hflat := flat_eq_of_render_eq hfw hgw h
  rwa [hf.isFlat.flat_eq, hg.isFlat.flat_eq] at hflat

end Formula

end BooleanSteps
