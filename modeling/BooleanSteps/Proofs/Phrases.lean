import BooleanSteps.Formula.Grammar

/-!
# Phrases with separators

Phrases are written with a separator between them or with one behind each. The second
form is what stands before the last phrase of a list in the first.

The operands of a chain of XOR do not all stand at one level, since every `^` is counted
for those behind it.
-/

namespace BooleanSteps

variable {separator : Token}

/-- The tokens of several phrases with a separator behind each. -/
def followed (separator : Token) (phrases : List Phrase) : List Token :=
  phrases.flatMap fun p => p.1 ++ [separator]

@[simp] theorem followed_nil (separator : Token) : followed separator [] = [] := rfl

theorem followed_cons (p : Phrase) (phrases : List Phrase) :
    followed separator (p :: phrases) = p.1 ++ separator :: followed separator phrases := by
  simp [followed]

@[simp] theorem separated_singleton (separator : Token) (p : Phrase) :
    separated separator [p] = p.1 := by
  simp [separated]

theorem separated_cons_cons (p q : Phrase) (phrases : List Phrase) :
    separated separator (p :: q :: phrases) =
      p.1 ++ separator :: separated separator (q :: phrases) := by
  simp [separated, List.intercalate_cons_cons]

theorem separated_append {others : List Phrase} (hne : others ≠ []) (phrases : List Phrase) :
    separated separator (phrases ++ others) =
      followed separator phrases ++ separated separator others := by
  induction phrases with
  | nil => rfl
  | cons p phrases ih =>
      have hrest : phrases ++ others ≠ [] := by simp [hne]
      obtain ⟨q, rest, heq⟩ := List.exists_cons_of_ne_nil hrest
      rw [List.cons_append, heq, separated_cons_cons, ← heq, ih]
      simp [followed]

theorem followed_append (phrases others : List Phrase) :
    followed separator (phrases ++ others) =
      followed separator phrases ++ followed separator others := List.flatMap_append

theorem separated_concat (phrases : List Phrase) (last : Phrase) :
    separated separator (phrases ++ [last]) = followed separator phrases ++ last.1 := by
  rw [separated_append (List.cons_ne_nil _ _), separated_singleton]

theorem exists_eq_concat_of_ne_nil {phrases : List Phrase} (hne : phrases ≠ []) :
    ∃ others last, phrases = others ++ [last] :=
  ⟨_, _, (List.dropLast_concat_getLast hne).symm⟩

theorem length_eq_of_cons_eq_concat {first last : Phrase} {others init : List Phrase}
    (h : first :: others = init ++ [last]) : others.length = init.length := by
  have hlength := congrArg List.length h
  simpa using hlength

theorem followed_eq_separated_append {phrases : List Phrase} (hne : phrases ≠ []) :
    followed separator phrases = separated separator phrases ++ [separator] := by
  rw [← List.dropLast_concat_getLast hne, separated_append (List.cons_ne_nil _ _),
    followed_append]
  simp [followed]

/-- What holds of every phrase at its place holds of those before the last one and of the
last one. -/
theorem forall_getElem_concat {p : Nat → Phrase → Prop} {phrases : List Phrase} {last : Phrase}
    (h : ∀ i (hi : i < (phrases ++ [last]).length), p i (phrases ++ [last])[i]) :
    (∀ i (hi : i < phrases.length), p i phrases[i]) ∧ p phrases.length last := by
  constructor
  · intro i hi
    have hp := h i (by simp; omega)
    rwa [List.getElem_append_left hi] at hp
  · have hp := h phrases.length (by simp)
    rwa [List.getElem_concat_length rfl] at hp

/-! ## Chains of XOR -/

variable {limit level : Nat}

/-- The phrases are the operands of a chain of `^`, which stand each a level higher than the
one before. -/
def Climbs (limit level : Nat) (phrases : List Phrase) : Prop :=
  ∀ i (h : i < phrases.length), Derives limit .conjunction (level + i) phrases[i].1 phrases[i].2

@[simp] theorem climbs_nil : Climbs limit level [] :=
  fun _ h => absurd h (Nat.not_lt_zero _)

theorem Climbs.append {phrases : List Phrase} {last : Phrase} (h : Climbs limit level phrases)
    (hlast : Derives limit .conjunction (level + phrases.length) last.1 last.2) :
    Climbs limit level (phrases ++ [last]) := by
  intro i hi
  rw [List.getElem_append]
  split
  next hlt => exact h i hlt
  next hge =>
    rw [List.length_append, List.length_singleton] at hi
    have heq : i = phrases.length := by omega
    subst heq
    simpa using hlast

end BooleanSteps
