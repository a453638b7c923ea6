import LocaleTidy.Json.Number
import LocaleTidy.Proofs.Outcome

/-!
# Texts of numbers

The texts that reading a number gives, and reading one of them again from the front of a text.
-/

namespace LocaleTidy.Json

/-! ## Runs of digits -/

def IsDigits (text : List Char) : Prop :=
  text ≠ [] ∧ ∀ c ∈ text, c.isDigit = true

def NoDigitFirst (text : List Char) : Prop :=
  ∀ c ∈ text.head?, c.isDigit = false

theorem isDigits_of_spanDigits {text digits rest : List Char}
    (h : spanDigits text = (digits, rest)) (hne : digits ≠ []) : IsDigits digits := by
  obtain ⟨rfl, -⟩ := Prod.mk.inj h
  refine ⟨hne, fun c hc => ?_⟩
  exact (List.all_eq_true.mp List.all_takeWhile) c hc

theorem spanDigits_append {digits rest : List Char} (hd : ∀ c ∈ digits, c.isDigit = true)
    (hr : NoDigitFirst rest) : spanDigits (digits ++ rest) = (digits, rest) := by
  have htake : rest.takeWhile Char.isDigit = [] := by
    cases rest with
    | nil => rfl
    | cons c rest => simp [hr c (by simp)]
  have hdrop : rest.dropWhile Char.isDigit = rest := by
    cases rest with
    | nil => rfl
    | cons c rest => simp [hr c (by simp)]
  rw [spanDigits, List.takeWhile_append_of_pos hd, List.dropWhile_append_of_pos hd, htake, hdrop,
    List.append_nil]

/-! ## The parts of a number -/

def IsPower (text : List Char) : Prop :=
  text = [] ∨ ∃ sign digits, (sign = '+' ∨ sign = '-') ∧ IsDigits digits ∧
    text = 'e' :: sign :: digits

/-- What may follow the digits before the point. -/
def IsTail (text : List Char) : Prop :=
  IsPower text ∨ ∃ digits power, IsDigits digits ∧ IsPower power ∧
    text = '.' :: digits ++ power

/-- A number without a sign: no zero comes before other digits. -/
def IsMagnitude (text : List Char) : Prop :=
  (∃ tail, IsTail tail ∧ text = '0' :: tail) ∨
    ∃ first digits tail, first ≠ '0' ∧ IsDigits (first :: digits) ∧ IsTail tail ∧
      text = first :: digits ++ tail

def IsNumber (text : List Char) : Prop :=
  IsMagnitude text ∨ ∃ magnitude, IsMagnitude magnitude ∧ text = '-' :: magnitude

/-! ## What is read is a number -/

theorem isPower_of_exponent {text power rest : List Char}
    (h : exponent text = .ok (power, rest)) : IsPower power := by
  have hdigits : ∀ {sign : Char} {text power rest : List Char}, (sign = '+' ∨ sign = '-') →
      exponentDigits sign text = .ok (power, rest) → IsPower power := by
    intro sign text power rest hs h
    cases text with
    | nil => simp [exponentDigits] at h
    | cons c text =>
        by_cases hc : c.isDigit
        · simp only [exponentDigits, hc, if_true, Except.ok.injEq, Prod.mk.injEq] at h
          refine .inr ⟨sign, _, hs, ?_, h.1.symm⟩
          exact isDigits_of_spanDigits rfl (by simp [spanDigits, hc])
        · simp [exponentDigits, hc] at h
  cases text with
  | nil =>
      simp only [exponent, Except.ok.injEq, Prod.mk.injEq] at h
      exact .inl h.1.symm
  | cons c text =>
      by_cases hc : c = 'e' ∨ c = 'E'
      · simp only [exponent, hc, if_true] at h
        split at h
        · exact hdigits (.inl rfl) h
        · exact hdigits (.inr rfl) h
        · exact hdigits (.inl rfl) h
      · simp only [exponent, hc, if_false, Except.ok.injEq, Prod.mk.injEq] at h
        exact .inl h.1.symm

theorem isTail_of_fraction {text tail rest : List Char}
    (h : fraction text = .ok (tail, rest)) : IsTail tail := by
  cases text with
  | nil =>
      simp only [fraction, Except.ok.injEq, Prod.mk.injEq] at h
      exact .inl (.inl h.1.symm)
  | cons c text =>
      by_cases hc : c = '.'
      · simp only [fraction, hc, if_true] at h
        split at h
        · cases h
        · cases h
        · rename_i digits more hne hnone hspan
          obtain ⟨⟨power, left⟩, hpower, h⟩ := bind_eq_ok.mp h
          obtain ⟨rfl, rfl⟩ := Prod.mk.inj (Except.ok.inj h)
          refine .inr ⟨digits, power, isDigits_of_spanDigits hspan ?_,
            isPower_of_exponent hpower, rfl⟩
          rintro rfl
          exact hnone rfl
      · simp only [fraction, hc, if_false] at h
        exact .inl (isPower_of_exponent h)

theorem isMagnitude_of_magnitude {text number rest : List Char}
    (h : magnitude text = .ok (number, rest)) : IsMagnitude number := by
  cases text with
  | nil => simp [magnitude] at h
  | cons c text =>
      by_cases hc : c = '0'
      · simp only [magnitude, hc, if_true] at h
        cases text with
        | nil =>
            simp only [Except.ok.injEq, Prod.mk.injEq] at h
            exact .inl ⟨[], .inl (.inl rfl), h.1.symm⟩
        | cons d text =>
            by_cases hd : d.isDigit
            · simp [hd] at h
            · simp only [hd, Bool.false_eq_true, if_false] at h
              obtain ⟨⟨tail, left⟩, htail, h⟩ := bind_eq_ok.mp h
              obtain ⟨rfl, rfl⟩ := Prod.mk.inj (Except.ok.inj h)
              exact .inl ⟨tail, isTail_of_fraction htail, rfl⟩
      · by_cases hd : c.isDigit
        · simp only [magnitude, hc, if_false, hd, if_true] at h
          obtain ⟨⟨tail, left⟩, htail, h⟩ := bind_eq_ok.mp h
          obtain ⟨rfl, rfl⟩ := Prod.mk.inj (Except.ok.inj h)
          have hspan : (spanDigits (c :: text)).1 = c :: text.takeWhile Char.isDigit := by
            simp [spanDigits, hd]
          have hdigits : IsDigits (c :: text.takeWhile Char.isDigit) :=
            hspan ▸ isDigits_of_spanDigits rfl (by simp [hspan])
          exact .inr ⟨c, _, tail, hc, hdigits, isTail_of_fraction htail, by rw [hspan]⟩
        · simp [magnitude, hc, hd] at h

theorem isNumber_of_numberText {text number rest : List Char}
    (h : numberText text = .ok (number, rest)) : IsNumber number := by
  unfold numberText at h
  split at h
  · rename_i text
    obtain ⟨⟨digits, left⟩, hdigits, h⟩ := bind_eq_ok.mp h
    obtain ⟨rfl, rfl⟩ := Prod.mk.inj (Except.ok.inj h)
    exact .inr ⟨digits, isMagnitude_of_magnitude hdigits, rfl⟩
  · exact .inl (isMagnitude_of_magnitude h)

/-! ## Written numbers

An exponent may be written with either mark, and without its sign if that is `+`. -/

/-- An exponent, or nothing, as it is written and as it is kept. -/
inductive Power : List Char → List Char → Prop where
  | none : Power [] []
  | signed {mark sign : Char} {digits : List Char} (hm : mark = 'e' ∨ mark = 'E')
      (hs : sign = '+' ∨ sign = '-') (hd : IsDigits digits) :
      Power (mark :: sign :: digits) ('e' :: sign :: digits)
  | unsigned {mark : Char} {digits : List Char} (hm : mark = 'e' ∨ mark = 'E')
      (hd : IsDigits digits) : Power (mark :: digits) ('e' :: '+' :: digits)

/-- What may be written behind the digits before the point, and what is kept of it. -/
inductive Tail : List Char → List Char → Prop where
  | power {written kept : List Char} (h : Power written kept) : Tail written kept
  | fraction {digits written kept : List Char} (hd : IsDigits digits) (h : Power written kept) :
      Tail ('.' :: (digits ++ written)) ('.' :: (digits ++ kept))

/-- A number without a sign as it is written and as it is kept. -/
inductive Magnitude : List Char → List Char → Prop where
  | zero {written kept : List Char} (h : Tail written kept) :
      Magnitude ('0' :: written) ('0' :: kept)
  | digits {first : Char} {digits written kept : List Char} (hz : first ≠ '0')
      (hd : IsDigits (first :: digits)) (h : Tail written kept) :
      Magnitude (first :: (digits ++ written)) (first :: (digits ++ kept))

/-- A number as it is written and as it is kept. -/
inductive Numeral : List Char → List Char → Prop where
  | positive {written kept : List Char} (h : Magnitude written kept) : Numeral written kept
  | negative {written kept : List Char} (h : Magnitude written kept) :
      Numeral ('-' :: written) ('-' :: kept)

theorem IsPower.power {text : List Char} (h : IsPower text) : Power text text := by
  rcases h with rfl | ⟨sign, digits, hs, hd, rfl⟩
  · exact .none
  · exact .signed (.inl rfl) hs hd

theorem IsTail.tail {text : List Char} (h : IsTail text) : Tail text text := by
  rcases h with hp | ⟨digits, power, hd, hp, rfl⟩
  · exact .power hp.power
  · exact .fraction hd hp.power

theorem IsMagnitude.magnitude {text : List Char} (h : IsMagnitude text) :
    Magnitude text text := by
  rcases h with ⟨tail, ht, rfl⟩ | ⟨first, digits, tail, hz, hd, ht, rfl⟩
  · exact .zero ht.tail
  · exact .digits hz hd ht.tail

theorem IsNumber.numeral {text : List Char} (h : IsNumber text) : Numeral text text := by
  rcases h with hm | ⟨magnitude, hm, rfl⟩
  · exact .positive hm.magnitude
  · exact .negative hm.magnitude

/-! ## A written number is read -/

/-- A text that does not go on with a number. -/
def StopsNumber (text : List Char) : Prop :=
  ∀ c ∈ text.head?, c.isDigit = false ∧ c ≠ '.' ∧ c ≠ 'e' ∧ c ≠ 'E'

variable {written kept rest : List Char}

theorem exponentDigits_append {digits : List Char} (hd : IsDigits digits) (hr : StopsNumber rest)
    (sign : Char) : exponentDigits sign (digits ++ rest) = .ok ('e' :: sign :: digits, rest) := by
  rcases hd with ⟨hne, hd⟩
  obtain ⟨d, more, rfl⟩ := List.exists_cons_of_ne_nil hne
  have hspan : spanDigits (d :: (more ++ rest)) = (d :: more, rest) :=
    spanDigits_append hd fun c hc => (hr c hc).1
  simp [exponentDigits, hd d (by simp), hspan]

/-- Behind the mark of an exponent a digit comes first if no sign is written. -/
theorem exponent_mark {mark : Char} (hm : mark = 'e' ∨ mark = 'E') {digits : List Char}
    (hd : IsDigits digits) (rest : List Char) :
    exponent (mark :: (digits ++ rest)) = exponentDigits '+' (digits ++ rest) := by
  rcases hd with ⟨hne, hd⟩
  obtain ⟨d, more, rfl⟩ := List.exists_cons_of_ne_nil hne
  have hdigit : d.isDigit = true := hd d (by simp)
  have hplus : d ≠ '+' := by
    rintro rfl
    exact absurd hdigit (by decide)
  have hminus : d ≠ '-' := by
    rintro rfl
    exact absurd hdigit (by decide)
  simp [exponent, hm, hplus, hminus]

theorem exponent_append (h : Power written kept) (hr : StopsNumber rest) :
    exponent (written ++ rest) = .ok (kept, rest) := by
  cases h with
  | none =>
      cases rest with
      | nil => rfl
      | cons c rest =>
          obtain ⟨-, -, he, hE⟩ := hr c (by simp)
          simp [exponent, he, hE]
  | signed hm hs hd =>
      obtain rfl | rfl := hs <;>
        simp [exponent, hm, exponentDigits_append hd hr]
  | unsigned hm hd =>
      rw [List.cons_append, exponent_mark hm hd, exponentDigits_append hd hr]

theorem noDigitFirst_power (h : Power written kept) (hr : StopsNumber rest) :
    NoDigitFirst (written ++ rest) := by
  cases h with
  | none => exact fun c hc => (hr c hc).1
  | signed hm _ _ | unsigned hm _ =>
      intro c hc
      obtain rfl := Option.some.inj hc
      obtain rfl | rfl := hm <;> decide

theorem fraction_append (h : Tail written kept) (hr : StopsNumber rest) :
    fraction (written ++ rest) = .ok (kept, rest) := by
  cases h with
  | power hp =>
      have he := exponent_append hp hr
      cases htext : written ++ rest with
      | nil =>
          rw [htext] at he
          simpa [fraction, exponent] using he
      | cons c text =>
          have hc : c ≠ '.' := by
            cases hp with
            | none => exact (hr c (by simp only [List.nil_append] at htext; simp [htext])).2.1
            | signed hm _ _ | unsigned hm _ =>
                obtain rfl := (List.cons.inj htext).1
                obtain rfl | rfl := hm <;> decide
          rw [fraction, if_neg hc, ← htext, he]
  | @fraction digits written kept hd hp =>
      rcases hd with ⟨hne, hd⟩
      obtain ⟨d, more, rfl⟩ := List.exists_cons_of_ne_nil hne
      have hspan : spanDigits (d :: (more ++ (written ++ rest))) = (d :: more, written ++ rest) :=
        spanDigits_append hd (noDigitFirst_power hp hr)
      simp [fraction, hspan, exponent_append hp hr, bind, Except.bind]

theorem noDigitFirst_tail (h : Tail written kept) (hr : StopsNumber rest) :
    NoDigitFirst (written ++ rest) := by
  cases h with
  | power hp => exact noDigitFirst_power hp hr
  | fraction _ _ =>
      intro c hc
      obtain rfl := Option.some.inj hc
      decide

theorem magnitude_append (h : Magnitude written kept) (hr : StopsNumber rest) :
    magnitude (written ++ rest) = .ok (kept, rest) := by
  cases h with
  | @zero written kept ht =>
      have hf := fraction_append ht hr
      have hno := noDigitFirst_tail ht hr
      cases htext : written ++ rest with
      | nil =>
          rw [htext] at hf
          have hnil : kept = [] ∧ rest = [] := by simpa [fraction, eq_comm] using hf
          rw [List.cons_append, htext, hnil.1, hnil.2]
          rfl
      | cons c text =>
          rw [htext] at hf hno
          simp [magnitude, htext, hno c (by simp), hf, bind, Except.bind]
  | @digits first digits written kept hz hd ht =>
      have hspan :
          spanDigits (first :: (digits ++ (written ++ rest))) =
            (first :: digits, written ++ rest) :=
        spanDigits_append hd.2 (noDigitFirst_tail ht hr)
      simp [magnitude, hz, hd.2 first (by simp), hspan, fraction_append ht hr, bind, Except.bind]

theorem head_isDigit_of_magnitude (h : Magnitude written kept) :
    ∃ c more, written = c :: more ∧ c.isDigit = true := by
  cases h with
  | zero _ => exact ⟨'0', _, rfl, by decide⟩
  | digits _ hd _ => exact ⟨_, _, rfl, hd.2 _ (by simp)⟩

/-- A number is read from the front of every text that does not go on with it. -/
theorem numberText_append (h : Numeral written kept) (hr : StopsNumber rest) :
    numberText (written ++ rest) = .ok (kept, rest) := by
  cases h with
  | positive hm =>
      obtain ⟨c, more, rfl, hc⟩ := head_isDigit_of_magnitude hm
      have hne : c ≠ '-' := by
        rintro rfl
        exact absurd hc (by decide)
      have hunsigned : numberText (c :: (more ++ rest)) = magnitude (c :: (more ++ rest)) := by
        unfold numberText
        split
        · rename_i heq
          exact absurd (List.cons.inj heq).1 hne
        · rfl
      rw [List.cons_append, hunsigned, ← List.cons_append, magnitude_append hm hr]
  | negative hm => simp [numberText, magnitude_append hm hr, bind, Except.bind]

theorem startsNumber_of_numeral (h : Numeral written kept) :
    ∃ c more, written = c :: more ∧ startsNumber c = true := by
  cases h with
  | positive hm =>
      obtain ⟨c, more, rfl, hc⟩ := head_isDigit_of_magnitude hm
      exact ⟨c, more, rfl, by simp [startsNumber, hc]⟩
  | negative _ => exact ⟨'-', _, rfl, by decide⟩

end LocaleTidy.Json
