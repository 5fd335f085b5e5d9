import BooleanSteps.Formula.Key
import BooleanSteps.Formula.Names

/-!
# Keys can be decoded

A key is a word and a group in parentheses. In the key of a formula that can be
written no other parentheses occur than those of keys, so the end of a key is found by
counting, and a list of keys can be cut at its commas in one way only. From the key of
a formula its root and the keys of its operands, up to order, can be read off.
-/

namespace BooleanSteps

/-! ## Groups in parentheses -/

/-- The characters behind the closing parenthesis of the outermost open group. -/
def pastGroup : Nat → List Char → Option (List Char)
  | _, [] => none
  | depth, ch :: rest =>
      if ch = '(' then pastGroup (depth + 1) rest
      else if ch = ')' then
        if depth ≤ 1 then some rest else pastGroup (depth - 1) rest
      else pastGroup depth rest

/-- No parentheses occur. -/
def IsPlain (chars : List Char) : Prop := ∀ ch ∈ chars, ch ≠ '(' ∧ ch ≠ ')'

/-- Inside a group, the characters open as many groups as they close. -/
def IsBalanced (chars : List Char) : Prop :=
  ∀ depth rest, pastGroup (depth + 1) (chars ++ rest) = pastGroup (depth + 1) rest

theorem IsPlain.pastGroup_append {chars : List Char} (h : IsPlain chars) (depth : Nat)
    (rest : List Char) : pastGroup depth (chars ++ rest) = pastGroup depth rest := by
  induction chars with
  | nil => rfl
  | cons ch chars ih =>
      obtain ⟨⟨hopen, hclose⟩, hchars⟩ := List.forall_mem_cons.mp h
      rw [List.cons_append, pastGroup, if_neg hopen, if_neg hclose, ih hchars]

theorem IsPlain.isBalanced {chars : List Char} (h : IsPlain chars) : IsBalanced chars :=
  fun depth rest => h.pastGroup_append (depth + 1) rest

theorem IsBalanced.append {chars others : List Char} (h : IsBalanced chars)
    (hothers : IsBalanced others) : IsBalanced (chars ++ others) := by
  intro depth rest
  rw [List.append_assoc, h, hothers]

theorem IsBalanced.group {chars : List Char} (h : IsBalanced chars) :
    IsBalanced ('(' :: (chars ++ [')'])) := by
  intro depth rest
  rw [List.cons_append, pastGroup, if_pos rfl, List.append_assoc, h, List.cons_append,
    pastGroup, if_neg (by decide), if_pos rfl, if_neg (by omega)]
  rfl

theorem isBalanced_intercalate {texts : List (List Char)} (h : ∀ text ∈ texts, IsBalanced text) :
    IsBalanced ([','].intercalate texts) := by
  induction texts with
  | nil => exact fun _ _ => rfl
  | cons text texts ih =>
      obtain ⟨htext, htexts⟩ := List.forall_mem_cons.mp h
      cases texts with
      | nil => simpa using htext
      | cons other texts =>
          have hcomma : IsBalanced [','] := IsPlain.isBalanced (by simp [IsPlain])
          rw [List.intercalate_cons_cons]
          exact (htext.append hcomma).append (ih htexts)

/-- A word and a group in parentheses behind it. -/
structure IsKeyText (chars : List Char) : Prop where
  shape : ∃ word body, chars = word ++ '(' :: (body ++ [')']) ∧ IsPlain word ∧ IsBalanced body

theorem IsKeyText.isBalanced {chars : List Char} (h : IsKeyText chars) : IsBalanced chars := by
  obtain ⟨word, body, rfl, hword, hbody⟩ := h.shape
  exact hword.isBalanced.append hbody.group

theorem IsKeyText.pastGroup_append {chars : List Char} (h : IsKeyText chars) (rest : List Char) :
    pastGroup 0 (chars ++ rest) = some rest := by
  obtain ⟨word, body, rfl, hword, hbody⟩ := h.shape
  rw [List.append_assoc, hword.pastGroup_append, List.cons_append, pastGroup, if_pos rfl,
    List.append_assoc, hbody, List.cons_append, pastGroup, if_neg (by decide), if_pos rfl,
    if_pos (by decide)]
  rfl

/-- Of two key texts neither goes on where the other ends. -/
theorem IsKeyText.append_cancel {chars others rest others' : List Char} (h : IsKeyText chars)
    (hothers : IsKeyText others) (heq : chars ++ rest = others ++ others') :
    chars = others ∧ rest = others' := by
  have hrest : rest = others' := by
    have hpast := h.pastGroup_append rest
    rw [heq, hothers.pastGroup_append] at hpast
    exact (Option.some.inj hpast).symm
  subst hrest
  exact ⟨List.append_cancel_right heq, rfl⟩

theorem IsKeyText.ne_nil {chars : List Char} (h : IsKeyText chars) : chars ≠ [] := by
  obtain ⟨word, body, rfl, -⟩ := h.shape
  simp

/-- A list of key texts can be cut at its commas in one way only. -/
theorem eq_of_intercalate_eq {texts others : List (List Char)}
    (h : ∀ text ∈ texts, IsKeyText text) (hothers : ∀ text ∈ others, IsKeyText text)
    (heq : [','].intercalate texts = [','].intercalate others) : texts = others := by
  -- The first texts end at the same place, and with them a comma or the whole list.
  induction texts generalizing others with
  | nil =>
      cases others with
      | nil => rfl
      | cons other others =>
          obtain ⟨hother, -⟩ := List.forall_mem_cons.mp hothers
          cases others <;> simp [hother.ne_nil] at heq
  | cons text texts ih =>
      obtain ⟨htext, htexts⟩ := List.forall_mem_cons.mp h
      cases others with
      | nil => cases texts <;> simp [htext.ne_nil] at heq
      | cons other others =>
          obtain ⟨hother, hrest⟩ := List.forall_mem_cons.mp hothers
          cases texts with
          | nil =>
              cases others with
              | nil => simpa using heq
              | cons other' others =>
                  rw [List.intercalate_singleton, List.intercalate_cons_cons,
                    List.append_assoc, ← List.append_nil text] at heq
                  have hnil := (htext.append_cancel hother heq).2
                  simp at hnil
          | cons text' texts =>
              cases others with
              | nil =>
                  rw [List.intercalate_singleton, List.intercalate_cons_cons,
                    List.append_assoc, ← List.append_nil other] at heq
                  have hnil := (htext.append_cancel hother heq).2
                  simp at hnil
              | cons other' others =>
                  rw [List.intercalate_cons_cons, List.intercalate_cons_cons,
                    List.append_assoc, List.append_assoc] at heq
                  obtain ⟨rfl, htail⟩ := htext.append_cancel hother heq
                  rw [ih htexts hrest (List.append_cancel_left htail)]

namespace Formula

/-! ## Keys of formulas that can be written -/

theorem isPlain_of_isName {chars : List Char} (h : Token.IsName chars) : IsPlain chars := by
  obtain ⟨first, rest, rfl, hfirst, -, -, hrest⟩ := h
  intro ch hch
  have hname : Token.isNameCharacter ch = true := by
    rcases List.mem_cons.mp hch with rfl | hch
    · simp [Token.isNameCharacter, Char.isAlphanum, hfirst]
    · exact hrest ch hch
  constructor
  · rintro rfl
    exact absurd hname (by decide)
  · rintro rfl
    exact absurd hname (by decide)

theorem isPlain_digit (value : Bool) : IsPlain (digit value).toList := by
  cases value <;> simp [IsPlain, digit]

theorem isPlain_keyword (c : Connective) : IsPlain c.keyword.toList := by
  cases c <;> simp [IsPlain, Connective.keyword]

theorem toList_key_nary (c : Connective) (fs : List Formula) :
    (key (.nary c fs)).toList =
      c.keyword.toList ++
        '(' :: ([','].intercalate ((sortTexts (fs.map key)).map String.toList) ++ [')']) := by
  simp [key_nary]

theorem mem_sortTexts {text : String} {texts : List String} :
    text ∈ sortTexts texts ↔ text ∈ texts := List.mem_mergeSort

theorem isKeyText_of_mem_sortTexts {fs : List Formula} (h : ∀ f ∈ fs, IsKeyText f.key.toList) :
    ∀ chars ∈ (sortTexts (fs.map key)).map String.toList, IsKeyText chars := by
  intro chars hchars
  obtain ⟨text, htext, rfl⟩ := List.mem_map.mp hchars
  obtain ⟨f, hf, rfl⟩ := List.mem_map.mp (mem_sortTexts.mp htext)
  exact h f hf

theorem isKeyText_key {f : Formula} (h : f.IsWritable) : IsKeyText f.key.toList := by
  induction f with
  | const value =>
      refine ⟨"CONST".toList, (digit value).toList, by simp [key], ?_, ?_⟩
      · simp [IsPlain]
      · exact (isPlain_digit value).isBalanced
  | var name =>
      refine ⟨"VAR".toList, name.toList, by simp [key], ?_, ?_⟩
      · simp [IsPlain]
      · exact (isPlain_of_isName (isWritable_var.mp h)).isBalanced
  | not f ih =>
      refine ⟨"NOT".toList, f.key.toList, by simp [key], ?_, ?_⟩
      · simp [IsPlain]
      · exact (ih (isWritable_not.mp h)).isBalanced
  | nary c fs ih =>
      refine ⟨c.keyword.toList, _, toList_key_nary c fs, isPlain_keyword c, ?_⟩
      have hkeys := isKeyText_of_mem_sortTexts fun f hf => ih f hf (isWritable_nary.mp h f hf)
      exact isBalanced_intercalate fun text htext => (hkeys text htext).isBalanced
  | xor l r ihl ihr =>
      obtain ⟨hl, hr⟩ := isWritable_xor.mp h
      have hcomma : IsBalanced [','] := IsPlain.isBalanced (by simp [IsPlain])
      refine ⟨"XOR".toList, l.key.toList ++ ([','] ++ r.key.toList), by simp [key], ?_, ?_⟩
      · simp [IsPlain]
      · exact (ihl hl).isBalanced.append (hcomma.append (ihr hr).isBalanced)

/-! ## Reading off the root -/

/-- The key shows the kind of the root. -/
theorem head?_key (f : Formula) :
    f.key.toList.head? = some (match f with
      | .const _ => 'C'
      | .var _ => 'V'
      | .not _ => 'N'
      | .nary .and _ => 'A'
      | .nary .or _ => 'O'
      | .xor _ _ => 'X') := by
  cases f with
  | nary c fs => cases c <;> simp [key_nary, Connective.keyword]
  | _ => simp [key]

theorem eq_const_of_key_eq {f : Formula} {value : Bool} (h : f.key = key (.const value)) :
    f = .const value := by
  have hhead := head?_key f
  rw [h, head?_key] at hhead
  cases f with
  | const other =>
      have htext := congrArg String.toList h
      cases value <;> cases other <;> simp [key, digit] at htext ⊢
  | nary c fs => cases c <;> cases hhead
  | var | not | xor => cases hhead

theorem eq_var_of_key_eq {f : Formula} {name : String} (h : f.key = key (.var name)) :
    f = .var name := by
  have hhead := head?_key f
  rw [h, head?_key] at hhead
  cases f with
  | var other =>
      have htext := congrArg String.toList h
      simp only [key, String.toList_append, List.append_cancel_left_eq,
        List.append_cancel_right_eq, String.toList_inj] at htext
      rw [htext]
  | nary c fs => cases c <;> cases hhead
  | const | not | xor => cases hhead

theorem exists_not_of_key_eq {f g : Formula} (h : f.key = key (.not g)) :
    ∃ f', f = .not f' ∧ f'.key = g.key := by
  have hhead := head?_key f
  rw [h, head?_key] at hhead
  cases f with
  | not f' =>
      refine ⟨f', rfl, ?_⟩
      have htext := congrArg String.toList h
      simpa only [key, String.toList_append, List.append_cancel_left_eq,
        List.append_cancel_right_eq, String.toList_inj] using htext
  | nary c fs => cases c <;> cases hhead
  | const | var | xor => cases hhead

/-- Of two lists with the same keys in some order, one holds what is equivalent to a formula of
the other. -/
theorem exists_mem_of_perm_keys {fs gs : List Formula} (h : (fs.map key).Perm (gs.map key))
    {f : Formula} (hf : f ∈ fs) : ∃ g ∈ gs, g.key = f.key :=
  List.mem_map.mp (h.mem_iff.mp (List.mem_map_of_mem hf))

/-- Equal keys of two nodes come from operands with the same keys, in some order. -/
theorem exists_nary_of_key_eq {f : Formula} {c : Connective} {gs : List Formula}
    (hf : f.IsWritable) (hg : IsWritable (.nary c gs)) (h : f.key = key (.nary c gs)) :
    ∃ fs, f = .nary c fs ∧ (fs.map key).Perm (gs.map key) := by
  have hhead := head?_key f
  rw [h, head?_key] at hhead
  cases f with
  | nary d fs =>
      obtain rfl : d = c := by
        cases c <;> cases d <;> first | rfl | cases hhead
      refine ⟨fs, rfl, ?_⟩
      have htext := congrArg String.toList h
      rw [toList_key_nary, toList_key_nary] at htext
      simp only [List.append_cancel_left_eq, List.cons.injEq, true_and,
        List.append_cancel_right_eq] at htext
      have hkeys := eq_of_intercalate_eq
        (isKeyText_of_mem_sortTexts fun f hmem => isKeyText_key (isWritable_nary.mp hf f hmem))
        (isKeyText_of_mem_sortTexts fun g hmem => isKeyText_key (isWritable_nary.mp hg g hmem))
        htext
      have hsorted : sortTexts (fs.map key) = sortTexts (gs.map key) :=
        (List.map_inj_right fun _ _ => String.toList_inj.mp).mp hkeys
      have hperm (texts : List String) : (sortTexts texts).Perm texts := List.mergeSort_perm _ _
      exact (hperm _).symm.trans (hsorted ▸ hperm _)
  | const | var | not | xor => cases c <;> cases hhead

theorem exists_xor_of_key_eq {f l r : Formula} (hf : f.IsWritable)
    (hg : IsWritable (.xor l r)) (h : f.key = key (.xor l r)) :
    ∃ l' r', f = .xor l' r' ∧ l'.key = l.key ∧ r'.key = r.key := by
  have hhead := head?_key f
  rw [h, head?_key] at hhead
  cases f with
  | xor l' r' =>
      refine ⟨l', r', rfl, ?_⟩
      have htext := congrArg String.toList h
      simp only [key, String.toList_append, List.append_assoc, List.append_cancel_left_eq]
        at htext
      obtain ⟨hl, hrest⟩ := (isKeyText_key (isWritable_xor.mp hf).1).append_cancel
        (isKeyText_key (isWritable_xor.mp hg).1) htext
      simp only [List.append_cancel_left_eq, List.append_cancel_right_eq] at hrest
      exact ⟨String.toList_inj.mp hl, String.toList_inj.mp hrest⟩
  | nary c fs => cases c <;> cases hhead
  | const | var | not => cases hhead

end Formula

end BooleanSteps
