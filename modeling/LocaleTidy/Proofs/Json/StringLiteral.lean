import LocaleTidy.Json.StringLiteral

/-!
# Written strings

The ways to write a string between quotes, which are all read as that string. The one that writing
takes is one of them. Passing over a string does not need to know what it says.
-/

namespace LocaleTidy.Json

/-! ## Spellings -/

/-- What may stand between the quotes for a string: a character may stand for itself, behind a
backslash, or as the digits of its code. -/
inductive Spells : List Char → List Char → Prop where
  | nil : Spells [] []
  | plain {c : Char} {text content : List Char} (hquote : c ≠ '"') (hslash : c ≠ '\\')
      (hhigh : ¬ c.toNat < 0x20) (more : Spells text content) : Spells (c :: text) (c :: content)
  | escape {e x : Char} {text content : List Char} (h : escapedChar? e = some x)
      (more : Spells text content) : Spells ('\\' :: e :: text) (x :: content)
  | unit {a b c d : Char} {unit : Nat} {text content : List Char}
      (h : hexUnit? a b c d = some unit) (hlead : isLeadUnit unit = false)
      (htrail : isTrailUnit unit = false) (more : Spells text content) :
      Spells ('\\' :: 'u' :: a :: b :: c :: d :: text) (Char.ofNat unit :: content)
  | pair {a b c d a' b' c' d' : Char} {lead trail : Nat} {text content : List Char}
      (h : hexUnit? a b c d = some lead) (hlead : isLeadUnit lead = true)
      (h' : hexUnit? a' b' c' d' = some trail) (htrail : isTrailUnit trail = true)
      (more : Spells text content) :
      Spells ('\\' :: 'u' :: a :: b :: c :: d :: '\\' :: 'u' :: a' :: b' :: c' :: d' :: text)
        (pairChar lead trail :: content)

variable {text content : List Char}

theorem ne_of_escapedChar? {e x : Char} (h : escapedChar? e = some x) : e ≠ 'u' := by
  rintro rfl
  have hnone : escapedChar? 'u' = none := by decide
  rw [hnone] at h
  cases h

theorem isTrailUnit_of_isLeadUnit {unit : Nat} (h : isLeadUnit unit = true) :
    isTrailUnit unit = false := by
  simp only [isLeadUnit, Bool.and_eq_true, decide_eq_true_eq] at h
  simp only [isTrailUnit, Bool.and_eq_false_iff, decide_eq_false_iff_not]
  omega

/-! ## Reading and passing over -/

theorem stringBody_quote (acc rest : List Char) :
    stringBody acc ('"' :: rest) = .ok (String.ofList acc.reverse, rest) := by
  rw [stringBody.eq_def]
  simp

theorem stringBody_spells (h : Spells text content) (acc rest : List Char) :
    stringBody acc (text ++ '"' :: rest) =
      .ok (String.ofList (acc.reverse ++ content), rest) := by
  induction h generalizing acc with
  | nil => rw [List.nil_append, stringBody_quote, List.append_nil]
  | @plain c text content hquote hslash hhigh _ ih =>
      have hstep : stringBody acc (c :: (text ++ '"' :: rest)) =
          stringBody (c :: acc) (text ++ '"' :: rest) := by
        rw [stringBody.eq_def]
        simp [hquote, hslash, hhigh]
      rw [List.cons_append, hstep, ih, List.reverse_cons, List.append_assoc, List.singleton_append]
  | @escape e x text content hx _ ih =>
      have hstep : stringBody acc ('\\' :: e :: (text ++ '"' :: rest)) =
          stringBody (x :: acc) (text ++ '"' :: rest) := by
        rw [stringBody.eq_def]
        simp [ne_of_escapedChar? hx, hx]
      rw [List.cons_append, List.cons_append, hstep, ih, List.reverse_cons, List.append_assoc,
        List.singleton_append]
  | @unit a b c d unit text content hunit hlead htrail _ ih =>
      have hstep : stringBody acc ('\\' :: 'u' :: a :: b :: c :: d :: (text ++ '"' :: rest)) =
          stringBody (Char.ofNat unit :: acc) (text ++ '"' :: rest) := by
        rw [stringBody.eq_def]
        simp [hunit, hlead, htrail]
      simp only [List.cons_append]
      rw [hstep, ih, List.reverse_cons, List.append_assoc, List.singleton_append]
  | @pair a b c d a' b' c' d' lead trail text content hunit hlead hunit' htrail _ ih =>
      have hstep : stringBody acc ('\\' :: 'u' :: a :: b :: c :: d :: '\\' :: 'u' :: a' :: b' ::
          c' :: d' :: (text ++ '"' :: rest)) =
          stringBody (pairChar lead trail :: acc) (text ++ '"' :: rest) := by
        rw [stringBody.eq_def]
        simp [hunit, hunit', isTrailUnit_of_isLeadUnit hlead, hlead, htrail]
      simp only [List.cons_append]
      rw [hstep, ih, List.reverse_cons, List.append_assoc, List.singleton_append]

/-- A string is read from each of its spellings, from the front of every text. -/
theorem readString_spells (h : Spells text content) (rest : List Char) :
    readString (text ++ '"' :: rest) = .ok (String.ofList content, rest) := by
  rw [readString, stringBody_spells h, List.reverse_nil, List.nil_append]

theorem skipString_unit {a b c d : Char} {unit : Nat} (h : hexUnit? a b c d = some unit)
    (rest : List Char) :
    skipString ('\\' :: 'u' :: a :: b :: c :: d :: rest) = skipString rest := by
  rw [skipString.eq_def]
  simp [h]

theorem skipString_spells (h : Spells text content) (rest : List Char) :
    skipString (text ++ '"' :: rest) = .ok rest := by
  induction h with
  | nil =>
      rw [List.nil_append, skipString.eq_def]
      simp
  | plain hquote hslash hhigh _ ih =>
      rw [List.cons_append, skipString.eq_def]
      simp [hquote, hslash, hhigh, ih]
  | escape hx _ ih =>
      rw [List.cons_append, List.cons_append, skipString.eq_def]
      simp [ne_of_escapedChar? hx, hx, ih]
  | unit hunit _ _ _ ih =>
      simp only [List.cons_append]
      rw [skipString_unit hunit, ih]
  | pair hunit _ hunit' _ _ ih =>
      simp only [List.cons_append]
      rw [skipString_unit hunit, skipString_unit hunit', ih]

/-! ## Writing -/

theorem hexUnit?_hexDigit {n : Nat} (h : n < 32) :
    hexUnit? '0' '0' (hexDigit (n / 16)) (hexDigit (n % 16)) = some n := by
  have hall : ∀ n < 32, hexUnit? '0' '0' (hexDigit (n / 16)) (hexDigit (n % 16)) = some n := by
    decide
  exact hall n h

theorem spells_writeChar (c : Char) (more : Spells text content) :
    Spells (writeChar c ++ text) (c :: content) := by
  unfold writeChar
  -- The escapes of two characters differ in the character alone.
  iterate 7
    split
    · subst c
      exact .escape (by decide) more
  split
  · rename_i hlow
    have hlead : isLeadUnit c.toNat = false := by
      simp only [isLeadUnit, Bool.and_eq_false_iff, decide_eq_false_iff_not]
      omega
    have htrail : isTrailUnit c.toNat = false := by
      simp only [isTrailUnit, Bool.and_eq_false_iff, decide_eq_false_iff_not]
      omega
    have h := Spells.unit (hexUnit?_hexDigit hlow) hlead htrail more
    rwa [Char.ofNat_toNat] at h
  · rename_i hquote hslash _ _ _ _ _ hhigh
    exact .plain hquote hslash hhigh more

theorem spells_flatMap (text : List Char) : Spells (text.flatMap writeChar) text := by
  induction text with
  | nil => exact .nil
  | cons c text ih => exact spells_writeChar c ih

end LocaleTidy.Json
