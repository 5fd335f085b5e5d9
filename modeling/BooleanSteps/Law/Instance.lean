import BooleanSteps.Law
import BooleanSteps.Formula.Key

/-!
# Instances of laws

What each law says of two formulas, in the form for any number of operands. The
relation does not say which of several instances is chosen, nor in which order
the laws are tried.
-/

namespace BooleanSteps

/-- The second list is the first without formulas that are equivalent to an earlier
one. The formulas in `earlier` stand before both lists. -/
inductive Thins : List Formula → List Formula → List Formula → Prop
  | nil (earlier : List Formula) : Thins earlier [] []
  | keep {earlier fs gs : List Formula} (f : Formula) :
      Thins (f :: earlier) fs gs → Thins earlier (f :: fs) (f :: gs)
  | drop {earlier fs gs : List Formula} (f : Formula) :
      (∃ e ∈ earlier, e.key = f.key) → Thins (f :: earlier) fs gs → Thins earlier (f :: fs) gs

namespace Law

open Formula

/-- The law allows to replace the first formula by the second. -/
inductive Relates : Law → Formula → Formula → Prop
  | doubleNegation (f : Formula) : Relates .doubleNegation (.not (.not f)) f
  | deMorgan (c : Connective) (fs : List Formula) :
      Relates (.deMorgan c) (.not (.nary c fs)) (.nary c.dual (fs.map .not))
  | constantComplement (value : Bool) :
      Relates .constantComplement (.not (.const value)) (.const !value)
  /-- The neutral constants go, at least one. -/
  | identity (c : Connective) (fs : List Formula) :
      .const c.neutral ∈ fs →
      Relates (.identity c) (.nary c fs) (collapse c (fs.filter (· ≠ .const c.neutral)))
  | annulment (c : Connective) (fs : List Formula) :
      .const c.absorbing ∈ fs → Relates (.annulment c) (.nary c fs) (.const c.absorbing)
  /-- Repeated operands go, at least one. A single operand that is left may stand alone. -/
  | idempotence (c : Connective) (fs gs : List Formula) (after : Formula) :
      Thins [] fs gs → gs.length < fs.length → after = .nary c gs ∨ after = collapse c gs →
      Relates (.idempotence c) (.nary c fs) after
  | complement (c : Connective) (fs : List Formula) (f g : Formula) :
      f ∈ fs → .not g ∈ fs → g.key = f.key →
      Relates (.complement c) (.nary c fs) (.const c.absorbing)
  /-- A node of the dual connective goes if it holds an operand that stays. -/
  | absorption (c : Connective) (before after gs : List Formula) (f g : Formula) :
      f ∈ before ++ after → g ∈ gs → g.key = f.key →
      Relates (.absorption c) (.nary c (before ++ .nary c.dual gs :: after))
        (collapse c (before ++ after))
  /-- Two nodes of the dual connective with a common operand become one. -/
  | distribution (c : Connective) (first second third left right : List Formula) (f : Formula) :
      f ∈ left → (∃ g ∈ right, g.key = f.key) →
      Relates (.distribution c)
        (.nary c (first ++ .nary c.dual left :: second ++ .nary c.dual right :: third))
        (collapse c
          (.nary c.dual
            [f, .nary c
              [collapse c.dual (left.filter fun g => ¬ f.equivalent g),
                collapse c.dual (right.filter fun g => ¬ f.equivalent g)]] ::
            (first ++ second ++ third)))
  | xorIdentityRight (f : Formula) : Relates .xorIdentity (.xor f (.const false)) f
  | xorIdentityLeft (f : Formula) : Relates .xorIdentity (.xor (.const false) f) f
  | xorWithOneRight (f : Formula) : Relates .xorWithOne (.xor f (.const true)) (.not f)
  | xorWithOneLeft (f : Formula) : Relates .xorWithOne (.xor (.const true) f) (.not f)
  | xorCancellation (f g : Formula) :
      f.key = g.key → Relates .xorCancellation (.xor f g) (.const false)

end Law

end BooleanSteps
