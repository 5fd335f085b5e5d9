import BooleanSteps.Formula.Names
import BooleanSteps.Formula.Printer
import BooleanSteps.Proofs.Scanning

/-!
# The tokens of a printed formula

The printer could as well print tokens. If the names of a formula can be written, cutting
its printed text gives these tokens: what follows an operand in the text is the end, a
space or a parenthesis, so a name is never read too far.
-/

namespace BooleanSteps

/-! ## Printing tokens -/

/-- Operand tokens joined by the connective. -/
def Connective.joinTokens (c : Connective) : List (List Token) → List Token
  | [] => [.const c.neutral]
  | parts => [Token.connective c].intercalate parts

namespace Formula

/-- The tokens of a formula in a place that requires a precedence. -/
def encloseTokens (required : Nat) (f : Formula) (tokens : List Token) : List Token :=
  if f.precedence < required then .openParen :: tokens ++ [.closeParen] else tokens

mutual

/-- The tokens of the printed formula. -/
def tokens : Formula → List Token
  | .const value => [.const value]
  | .var name => [.var name]
  | .not f => .not :: encloseTokens 4 f f.tokens
  | .nary c fs => c.joinTokens (tokensAll c.precedence fs)
  | .xor l r => encloseTokens 2 l l.tokens ++ .xor :: encloseTokens 3 r r.tokens

/-- The tokens of several formulas in places that require the same precedence. -/
def tokensAll (required : Nat) : List Formula → List (List Token)
  | [] => []
  | f :: fs => encloseTokens required f f.tokens :: tokensAll required fs

end

@[simp] theorem tokensAll_eq (required : Nat) (fs : List Formula) :
    tokensAll required fs = fs.map fun f => encloseTokens required f f.tokens := by
  induction fs with
  | nil => rfl
  | cons f fs ih => simp [tokensAll, ih]

theorem tokens_nary (c : Connective) (fs : List Formula) :
    tokens (.nary c fs) =
      c.joinTokens (fs.map fun f => encloseTokens c.precedence f f.tokens) := by
  simp [tokens]

/-- Where a chain of `^` may go on, anything else stands as one of its operands. -/
theorem encloseTokens_two {f : Formula} (h : f.precedence ≠ 2) (tokens : List Token) :
    f.encloseTokens 2 tokens = f.encloseTokens 3 tokens := by
  unfold encloseTokens
  simp only [show f.precedence < 2 ↔ f.precedence < 3 by omega]

end Formula

/-! ## Cutting a part of a text -/

namespace Token

/-- In front of anything that does not continue a name, the characters are cut into the
tokens. -/
def Scans (chars : List Char) (tokens : List Token) : Prop :=
  ∀ offset rest, EndsName rest →
    scan offset (chars ++ rest) = (tokens ++ ·) <$> scan (offset + byteCount chars) rest

variable {chars others : List Char} {tokens : List Token}

theorem scans_nil : Scans [] [] := by
  intro offset rest _
  simp [byteCount]

theorem Scans.separator {ch : Char} (hch : isSeparator ch = true) (h : Scans chars tokens) :
    Scans (ch :: chars) tokens := by
  intro offset rest hrest
  rw [List.cons_append, scan_separator hch, h _ rest hrest, byteCount, Nat.add_assoc]

theorem Scans.symbol (ch : Char) {token : Token} (hsymbol : ofSymbol? ch = some token)
    (h : Scans chars tokens) : Scans (ch :: chars) (token :: tokens) := by
  intro offset rest hrest
  rw [List.cons_append, scan_symbol hsymbol, h _ rest hrest, byteCount, Nat.add_assoc,
    Functor.map_map]
  rfl

theorem Scans.append {tokens' : List Token} (h : Scans chars tokens)
    (hothers : Scans others tokens') (hends : EndsName others) :
    Scans (chars ++ others) (tokens ++ tokens') := by
  intro offset rest hrest
  rw [List.append_assoc, h offset _ (EndsName.append hends hrest), hothers _ rest hrest,
    byteCount_append, Nat.add_assoc, Functor.map_map]
  simp only [List.append_assoc]

theorem scans_name {name : String} (h : IsName name.toList) : Scans name.toList [.var name] := by
  intro offset rest hrest
  rw [scan_name h hrest, String.ofList_toList]
  rfl

end Token

namespace Formula

open Token

/-! ## Cutting a printed formula -/

theorem scans_const (value : Bool) : Scans (digit value).toList [.const value] := by
  cases value
  · exact Scans.symbol _ rfl scans_nil
  · exact Scans.symbol _ rfl scans_nil

theorem Scans.enclose (required : Nat) (f : Formula) {text : String} {tokens : List Token}
    (h : Scans text.toList tokens) :
    Scans (enclose required f text).toList (encloseTokens required f tokens) := by
  unfold Formula.enclose encloseTokens
  split
  next =>
    have hclose : Scans [')'] [.closeParen] := Scans.symbol _ rfl scans_nil
    have hgroup := h.append hclose (endsName_cons rfl [])
    simpa using Scans.symbol '(' rfl hgroup
  next => exact h

/-- An operator with spaces around it separates its operands. -/
theorem scans_operator {chars others : List Char} {tokens tokens' : List Token} (ch : Char)
    {token : Token} (hsymbol : ofSymbol? ch = some token) (h : Scans chars tokens)
    (hothers : Scans others tokens') :
    Scans (chars ++ [' ', ch, ' '] ++ others) (tokens ++ token :: tokens') := by
  have hbehind : Scans (' ' :: ch :: ' ' :: others) (token :: tokens') :=
    Scans.separator rfl (Scans.symbol ch hsymbol (Scans.separator rfl hothers))
  rw [List.append_assoc]
  exact h.append hbehind (endsName_cons rfl _)

theorem exists_separator_eq (c : Connective) :
    ∃ ch, c.separator.toList = [' ', ch, ' '] ∧ ofSymbol? ch = some (.connective c) := by
  cases c with
  | and => exact ⟨'&', by decide, by decide⟩
  | or => exact ⟨'|', by decide, by decide⟩

theorem scans_intercalate (c : Connective) {text : Formula → String}
    {part : Formula → List Token} {fs : List Formula} (hne : fs ≠ [])
    (h : ∀ f ∈ fs, Scans (text f).toList (part f)) :
    Scans (c.separator.toList.intercalate ((fs.map text).map String.toList))
      ([Token.connective c].intercalate (fs.map part)) := by
  induction fs with
  | nil => exact absurd rfl hne
  | cons f fs ih =>
      obtain ⟨hf, hfs⟩ := List.forall_mem_cons.mp h
      cases fs with
      | nil => simpa using hf
      | cons g fs =>
          have hothers := ih (List.cons_ne_nil g fs) hfs
          obtain ⟨ch, hseparator, hsymbol⟩ := exists_separator_eq c
          have hall := scans_operator ch hsymbol hf hothers
          rw [← hseparator] at hall
          simp only [List.map_cons, List.intercalate_cons_cons]
          rw [List.append_assoc (part f)]
          exact hall

theorem scans_joinTokens (c : Connective) {text : Formula → String}
    {part : Formula → List Token} {fs : List Formula}
    (h : ∀ f ∈ fs, Scans (text f).toList (part f)) :
    Scans (c.joinTexts (fs.map text)).toList (c.joinTokens (fs.map part)) := by
  cases fs with
  | nil => exact scans_const c.neutral
  | cons f fs =>
      have hscans := scans_intercalate c (List.cons_ne_nil f fs) h
      rw [← String.toList_intercalate] at hscans
      exact hscans

theorem scans_render {f : Formula} (hf : f.IsWritable) : Scans f.render.toList f.tokens := by
  induction f with
  | const value => exact scans_const value
  | var name => exact scans_name (isWritable_var.mp hf)
  | not f ih =>
      have hoperand := Scans.enclose 4 f (ih (isWritable_not.mp hf))
      rw [render_not, String.toList_append]
      exact Scans.symbol '~' (by decide) hoperand
  | nary c fs ih =>
      have hfs := isWritable_nary.mp hf
      rw [render_nary, tokens_nary]
      exact scans_joinTokens c fun f hmem => Scans.enclose c.precedence f (ih f hmem (hfs f hmem))
  | xor l r ihl ihr =>
      obtain ⟨hl, hr⟩ := isWritable_xor.mp hf
      have hleft := Scans.enclose 2 l (ihl hl)
      have hright := Scans.enclose 3 r (ihr hr)
      rw [render_xor, String.toList_append, String.toList_append]
      exact scans_operator '^' (by decide) hleft hright

/-- Cutting the printed text of a formula that can be written gives its tokens. -/
theorem tokenize_render {f : Formula} (hf : f.IsWritable) :
    tokenize f.render = .ok (f.tokens ++ [.endOfInput]) := by
  have hscans := scans_render hf 0 [] endsName_nil
  rw [List.append_nil, scan] at hscans
  exact hscans

end Formula

end BooleanSteps
