import Mathlib.Tactic.SplitIfs
import BooleanSteps.Normalization

/-!
# Texts are in the order of their bytes

Texts are compared by their characters. UTF-8 keeps that order, because the first byte in
which two characters differ is larger in the larger one. Sorting texts is therefore sorting
them by their bytes, whatever characters they hold.
-/

namespace BooleanSteps

namespace Text

/-- The bytes of a text in UTF-8. -/
def bytes (text : String) : List UInt8 := text.toByteArray.data.toList

theorem bytes_eq_flatMap (text : String) :
    bytes text = text.toList.flatMap String.utf8EncodeChar := by
  rw [bytes, ← String.utf8Encode_toList, List.utf8Encode, List.toList_data_toByteArray]

/-- The larger character has the larger bytes, whatever follows the two. -/
theorem utf8EncodeChar_append_lt {ch ch' : Char} (h : ch < ch') (rest rest' : List UInt8) :
    String.utf8EncodeChar ch ++ rest < String.utf8EncodeChar ch' ++ rest' := by
  have hlt : ch.val.toNat < ch'.val.toNat := h
  have hmax : ch'.val.toNat < 0x110000 := by
    rcases ch'.valid with hvalid | hvalid
    · exact Nat.lt_trans hvalid (by decide)
    · exact hvalid.2
  unfold String.utf8EncodeChar
  generalize ch.val.toNat = code at hlt
  generalize ch'.val.toNat = code' at hlt hmax
  -- Each byte but the first holds six bits, so the codes are compared digit by digit.
  have htwo (n : Nat) : n / 4096 = n / 64 / 64 := by omega
  have hthree (n : Nat) : n / 262144 = n / 64 / 64 / 64 := by omega
  simp only [htwo, hthree]
  split_ifs
  all_goals
    simp only [List.cons_append, List.nil_append, List.cons_lt_cons_iff,
      UInt8.lt_iff_toNat_lt, ← UInt8.toNat_inj, UInt8.toNat_ofNat']
    omega

theorem flatMap_utf8EncodeChar_lt {chars chars' : List Char} (h : chars < chars') :
    chars.flatMap String.utf8EncodeChar < chars'.flatMap String.utf8EncodeChar := by
  induction h with
  | nil =>
      rw [List.flatMap_nil, List.flatMap_cons]
      obtain ⟨byte, bytes, hbytes⟩ := List.exists_cons_of_ne_nil String.utf8EncodeChar_ne_nil
      rw [hbytes]
      exact List.nil_lt_cons _ _
  | rel h =>
      rw [List.flatMap_cons, List.flatMap_cons]
      exact utf8EncodeChar_append_lt h _ _
  | cons _ ih =>
      rw [List.flatMap_cons, List.flatMap_cons]
      exact List.append_left_lt ih

theorem bytes_lt_iff {text text' : String} : bytes text < bytes text' ↔ text < text' := by
  have hmono {text text' : String} (h : text < text') : bytes text < bytes text' := by
    rw [bytes_eq_flatMap, bytes_eq_flatMap]
    exact flatMap_utf8EncodeChar_lt h
  refine ⟨fun h => ?_, hmono⟩
  by_cases hle : text' ≤ text
  · by_cases hge : text ≤ text'
    · rw [String.le_antisymm hge hle] at h
      exact absurd h (List.lt_irrefl _)
    · exact absurd h (List.lt_asymm (hmono (String.not_le.mp hge)))
  · exact String.not_le.mp hle

theorem bytes_le_iff {text text' : String} : bytes text ≤ bytes text' ↔ text ≤ text' :=
  not_congr bytes_lt_iff

end Text

/-- Operands are sorted by the bytes of their printed texts. -/
theorem Formula.sortOperands_eq_mergeSort_bytes (fs : List Formula) :
    sortOperands fs =
      fs.mergeSort fun f g => decide (Text.bytes f.render ≤ Text.bytes g.render) := by
  simp only [Text.bytes_le_iff]
  rfl

end BooleanSteps
