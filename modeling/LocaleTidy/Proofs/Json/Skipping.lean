import Mathlib.Data.List.DropRight
import LocaleTidy.Json.Skip
import LocaleTidy.Proofs.Json.Grammar

/-!
# Every value can be passed over

A text that denotes a value is passed over to its end, however deep its brackets nest. The rounds
that this takes are counted along the text: two for each of its characters are enough.
-/

namespace LocaleTidy.Json

variable {text rest gaps more : List Char} {bracket : Bracket} {around : List Bracket}
  {rounds : Nat}

/-! ## Single rounds -/

theorem skipWithin_value_congr {text' : List Char} (h : skipGaps text = skipGaps text') :
    skipWithin rounds .value around text = skipWithin rounds .value around text' := by
  cases rounds with
  | zero => rfl
  | succ rounds => simp only [skipWithin, h]

theorem isGap_closer (bracket : Bracket) : isGap bracket.closer = false := by
  cases bracket <;> decide

theorem skipWithin_opened_end (hg : IsGaps gaps) :
    skipWithin (rounds + 1) .opened (bracket :: around) (gaps ++ bracket.closer :: rest) =
      skipWithin rounds .closed around rest := by
  simp [skipWithin, skipGaps_append_cons hg (isGap_closer bracket)]

theorem skipWithin_closed_end (hg : IsGaps gaps) :
    skipWithin (rounds + 1) .closed (bracket :: around) (gaps ++ bracket.closer :: rest) =
      skipWithin rounds .closed around rest := by
  simp [skipWithin, skipGaps_append_cons hg (isGap_closer bracket)]

theorem skipWithin_closed_comma (hg : IsGaps gaps) :
    skipWithin (rounds + 1) .closed (bracket :: around) (gaps ++ ',' :: more) =
      skipToValue bracket more >>= skipWithin rounds .value (bracket :: around) := by
  have hc : ',' ≠ bracket.closer := by cases bracket <;> decide
  simp [skipWithin, skipGaps_append_cons hg (c := ',') (by decide), hc]

/-- Behind an opening bracket the first item is passed over as the later ones are. -/
theorem skipWithin_opened {c : Char} (h : skipGaps text = c :: more)
    (hc : c ≠ bracket.closer) :
    skipWithin (rounds + 1) .opened (bracket :: around) text =
      skipToValue bracket text >>= skipWithin rounds .value (bracket :: around) := by
  have hagain : skipGaps (c :: more) = skipGaps text := by
    rw [← h]
    exact List.dropWhile_idempotent _ _
  simp only [skipWithin, h, hc, if_false]
  cases bracket with
  | list => exact skipWithin_value_congr hagain
  | object => simp only [skipToValue, hagain]

theorem skipToValue_member {before spelling content colon : List Char} (hb : IsGaps before)
    (hn : Spells spelling content) (hc : IsColon colon) (text : List Char) :
    ∃ gaps, IsGaps gaps ∧
      skipToValue .object (before ++ '"' :: (spelling ++ '"' :: (colon ++ text))) =
        .ok (gaps ++ text) := by
  obtain ⟨gaps, hg, hcolon⟩ := takeColon_append hc text
  refine ⟨gaps, hg, ?_⟩
  simp [skipToValue, skipGaps_append_cons hb (c := '"') (by decide), skipString_spells hn, hcolon,
    bind, Except.bind]

/-! ## Values without brackets -/

theorem skipWithin_scalar {c : Char} (hgap : isGap c = false) (hl : c ≠ '[') (ho : c ≠ '{')
    (h : skipScalar (c :: more) = .ok rest) :
    skipWithin (rounds + 1) .value around (c :: more) = skipWithin rounds .closed around rest := by
  simp [skipWithin, skipGaps_cons hgap, hl, ho, h, bind, Except.bind]

theorem skipScalar_numeral {written kept : List Char} (h : Numeral written kept)
    (hs : StopsNumber rest) : skipScalar (written ++ rest) = .ok rest := by
  obtain ⟨c, more, rfl, hstart⟩ := startsNumber_of_numeral h
  obtain ⟨-, hn, ht, hf, hq, -, -, -⟩ := startsNumber_cases hstart
  have hread := numberText_append h hs
  simp only [List.cons_append] at hread ⊢
  simp [skipScalar, hn, ht, hf, hq, hstart, hread]

/-! ## Values with brackets -/

/-- What follows an opening bracket or a comma is passed over to the end of the bracket. -/
def PassesBracket (bracket : Bracket) (text : List Char) : Prop :=
  ∃ spent ≤ 2 * text.length + 1, ∀ rounds around rest,
    skipToValue bracket (text ++ bracket.closer :: rest) >>=
        skipWithin (rounds + spent) .value (bracket :: around) =
      skipWithin rounds .closed around rest

/-- A part of a text is passed over in a number of rounds that depends on the part alone. -/
def Passes (text : List Char) : Part → Prop
  | .value _ => ∃ spent ≤ 2 * text.length, ∀ rounds around rest, StopsNumber rest →
      skipWithin (rounds + spent) .value around (text ++ rest) =
        skipWithin rounds .closed around rest
  | .items _ => PassesBracket .list text
  | .members _ => PassesBracket .object text

theorem opens_of_denotes_items {items : List Json} (h : Denotes text (.items items))
    (rest : List Char) : ∃ c more, skipGaps (text ++ rest) = c :: more ∧ c ≠ ']' := by
  have hopens : ∀ {before text rest : List Char} {value : Json}, IsGaps before →
      Denotes text (.value value) →
        ∃ c more, skipGaps (before ++ (text ++ rest)) = c :: more ∧ c ≠ ']' := by
    intro before text rest value hb h
    obtain ⟨c, more, rfl, hgap, hend⟩ := opensValue_of_denotes h
    exact ⟨c, more ++ rest, skipGaps_append_cons hb hgap _, hend⟩
  cases h with
  | lastItem hb h ha | item hb h ha more =>
      simp only [List.append_assoc]
      exact hopens hb h

theorem opens_of_denotes_members {members : Members} (h : Denotes text (.members members))
    (rest : List Char) : ∃ c more, skipGaps (text ++ rest) = c :: more ∧ c ≠ '}' := by
  cases h with
  | lastMember hb hn hc h ha | member hb hn hc h ha more =>
      rw [List.append_assoc, List.cons_append, skipGaps_append_cons hb (by decide)]
      exact ⟨'"', _, rfl, by decide⟩

theorem passes_bracket {opener : Char} {value : Json}
    (hopen : ∀ rounds around rest, skipWithin (rounds + 1) .value around (opener :: rest) =
      skipWithin rounds .opened (bracket :: around) rest)
    (hfirst : ∀ rest, ∃ c more, skipGaps (text ++ rest) = c :: more ∧ c ≠ bracket.closer)
    (h : PassesBracket bracket text) :
    Passes (opener :: (text ++ [bracket.closer])) (.value value) := by
  obtain ⟨spent, hle, hpass⟩ := h
  refine ⟨spent + 1 + 1, ?_, fun rounds around rest _ => ?_⟩
  · simp only [List.length_cons, List.length_append, List.length_nil]
    omega
  · obtain ⟨c, more, hc, hne⟩ := hfirst (bracket.closer :: rest)
    rw [bracketed_append, ← Nat.add_assoc, hopen, ← Nat.add_assoc, skipWithin_opened hc hne, hpass]

theorem passes_empty {opener : Char} {value : Json}
    (hopen : ∀ rounds around rest, skipWithin (rounds + 1) .value around (opener :: rest) =
      skipWithin rounds .opened (bracket :: around) rest) (hg : IsGaps gaps) :
    Passes (opener :: (gaps ++ [bracket.closer])) (.value value) := by
  refine ⟨2, ?_, fun rounds around rest _ => ?_⟩
  · simp only [List.length_cons, List.length_append, List.length_nil]
    omega
  · rw [bracketed_append, hopen, skipWithin_opened_end hg]

theorem skipWithin_list (rounds : Nat) (around : List Bracket) (rest : List Char) :
    skipWithin (rounds + 1) .value around ('[' :: rest) =
      skipWithin rounds .opened (.list :: around) rest := rfl

theorem skipWithin_object (rounds : Nat) (around : List Bracket) (rest : List Char) :
    skipWithin (rounds + 1) .value around ('{' :: rest) =
      skipWithin rounds .opened (.object :: around) rest := rfl

/-- Going to a value and passing over it leaves what follows it. -/
theorem skipToValue_bind {target : List Char} {spent : Nat}
    (hto : skipToValue bracket target = .ok (gaps ++ (text ++ rest))) (hg : IsGaps gaps)
    (h : skipWithin (rounds + spent) .value (bracket :: around) (text ++ rest) =
      skipWithin rounds .closed (bracket :: around) rest) :
    skipToValue bracket target >>= skipWithin (rounds + spent) .value (bracket :: around) =
      skipWithin rounds .closed (bracket :: around) rest := by
  rw [hto]
  exact (skipWithin_value_congr (skipGaps_append hg _)).trans h

theorem passesBracket_last {value : Json} {target after : List Char}
    (hto : ∀ rest, ∃ gaps, IsGaps gaps ∧
      skipToValue bracket (target ++ rest) = .ok (gaps ++ (text ++ (after ++ rest))))
    (ha : IsGaps after) (hle : text.length ≤ target.length) (h : Passes text (.value value)) :
    PassesBracket bracket target := by
  obtain ⟨spent, hspent, hpass⟩ := h
  refine ⟨spent + 1, by omega, fun rounds around rest => ?_⟩
  obtain ⟨gaps, hg, hvalue⟩ := hto (bracket.closer :: rest)
  have hclosed := hpass (rounds + 1) (bracket :: around) (after ++ bracket.closer :: rest)
    (stopsNumber_append ha (stopsNumber_cons (by cases bracket <;> decide) rest))
  rw [Nat.add_comm spent, ← Nat.add_assoc, skipToValue_bind hvalue hg hclosed,
    skipWithin_closed_end ha]

theorem passesBracket_more {value : Json} {target after : List Char}
    (hto : ∀ rest, ∃ gaps, IsGaps gaps ∧
      skipToValue bracket (target ++ rest) =
        .ok (gaps ++ (text ++ (after ++ ',' :: (more ++ rest)))))
    (ha : IsGaps after) (hle : text.length + more.length < target.length)
    (h : Passes text (.value value)) (hmore : PassesBracket bracket more) :
    PassesBracket bracket target := by
  obtain ⟨spent, hspent, hpass⟩ := h
  obtain ⟨spent', hspent', hpass'⟩ := hmore
  refine ⟨spent' + 1 + spent, by omega, fun rounds around rest => ?_⟩
  obtain ⟨gaps, hg, hvalue⟩ := hto (bracket.closer :: rest)
  have hclosed := hpass (rounds + spent' + 1) (bracket :: around)
    (after ++ ',' :: (more ++ bracket.closer :: rest))
    (stopsNumber_append ha (stopsNumber_cons (by decide) _))
  rw [← Nat.add_assoc, ← Nat.add_assoc, skipToValue_bind hvalue hg hclosed,
    skipWithin_closed_comma ha, hpass']

theorem passes_scalar {value : Json} (hgap : ∃ c more, text = c :: more ∧ isGap c = false ∧
      c ≠ '[' ∧ c ≠ '{')
    (h : ∀ rest, StopsNumber rest → skipScalar (text ++ rest) = .ok rest) :
    Passes text (.value value) := by
  obtain ⟨c, more, rfl, hgap, hl, ho⟩ := hgap
  refine ⟨1, ?_, fun rounds around rest hs => skipWithin_scalar hgap hl ho (h rest hs)⟩
  simp only [List.length_cons]
  omega

/-- The rounds for a part come from those for the parts inside it: a pair of brackets takes two
more, and what ends an item one. -/
theorem passes_of_denotes {part : Part} (h : Denotes text part) : Passes text part := by
  induction h with
  | null | true | false =>
      exact passes_scalar ⟨_, _, rfl, by decide, by decide, by decide⟩ fun rest _ => rfl
  | number h =>
      obtain ⟨c, more, htext, hstart⟩ := startsNumber_of_numeral h
      obtain ⟨hgap, -, -, -, -, hl, ho, -⟩ := startsNumber_cases hstart
      exact passes_scalar ⟨c, more, htext, hgap, hl, ho⟩ fun rest hs => skipScalar_numeral h hs
  | string h =>
      refine passes_scalar ⟨_, _, rfl, by decide, by decide, by decide⟩ fun rest _ => ?_
      simp [skipScalar, skipString_spells h]
  | emptyArray h => exact passes_empty skipWithin_list h
  | emptyObject h => exact passes_empty skipWithin_object h
  | array h ih => exact passes_bracket skipWithin_list (opens_of_denotes_items h) ih
  | object h ih => exact passes_bracket skipWithin_object (opens_of_denotes_members h) ih
  | lastItem hb h ha ih =>
      refine passesBracket_last (fun rest => ⟨_, hb, ?_⟩) ha ?_ ih
      · simp [skipToValue]
      · simp only [List.length_append]
        omega
  | item hb h ha more ih ih' =>
      refine passesBracket_more (fun rest => ⟨_, hb, ?_⟩) ha ?_ ih ih'
      · simp [skipToValue]
      · simp only [List.length_append, List.length_cons]
        omega
  | lastMember hb hn hc h ha ih =>
      refine passesBracket_last (fun rest => ?_) ha ?_ ih
      · simpa using skipToValue_member hb hn hc _
      · simp only [List.length_append, List.length_cons]
        omega
  | member hb hn hc h ha more ih ih' =>
      refine passesBracket_more (fun rest => ?_) ha ?_ ih ih'
      · simpa using skipToValue_member hb hn hc _
      · simp only [List.length_append, List.length_cons]
        omega

/-- What denotes a value is passed over, with the blanks before it, in front of every text that
does not go on with a number. -/
theorem skipValue_denotes {value : Json} (hg : IsGaps gaps) (h : Denotes text (.value value))
    (hs : StopsNumber rest) : skipValue (gaps ++ (text ++ rest)) = .ok rest := by
  obtain ⟨spent, hle, hpass⟩ := passes_of_denotes h
  obtain ⟨left, hrounds⟩ : ∃ left, 2 * (gaps ++ (text ++ rest)).length + 2 = left + 1 + spent := by
    refine ⟨2 * (gaps ++ (text ++ rest)).length + 1 - spent, ?_⟩
    simp only [List.length_append]
    omega
  rw [skipValue, hrounds, skipWithin_value_congr (skipGaps_append hg _), hpass _ _ _ hs]
  rfl

end LocaleTidy.Json
