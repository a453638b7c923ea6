import Mathlib.Data.List.Forall2
import LocaleTidy.Json.Reader
import LocaleTidy.Proofs.Json.Number
import LocaleTidy.Proofs.Json.StringLiteral
import LocaleTidy.Proofs.Outcome

/-!
# Texts of values

Which texts denote which values, with blanks wherever they may stand and no limit to the depth. A
reader of arrays or objects gets through every such text if its reader of items or members does.
-/

namespace LocaleTidy.Json

/-! ## The grammar -/

def IsGaps (text : List Char) : Prop :=
  ∀ c ∈ text, isGap c = true

inductive IsColon : List Char → Prop where
  | mk {before after : List Char} (hb : IsGaps before) (ha : IsGaps after) :
      IsColon (before ++ ':' :: after)

/-- What a part of a text stands for: a value, or what is between the brackets of an array or an
object that is not empty. -/
inductive Part where
  | value (value : Json)
  | items (items : List Json)
  | members (members : Members)

/-- The texts that denote a value, some items or some members. The members are those that are
written, in their order, also if a name comes twice. -/
inductive Denotes : List Char → Part → Prop where
  | null : Denotes ['n', 'u', 'l', 'l'] (.value .null)
  | true : Denotes ['t', 'r', 'u', 'e'] (.value (.bool true))
  | false : Denotes ['f', 'a', 'l', 's', 'e'] (.value (.bool false))
  | number {written kept : List Char} (h : Numeral written kept) :
      Denotes written (.value (.number (String.ofList kept)))
  | string {text content : List Char} (h : Spells text content) :
      Denotes ('"' :: (text ++ ['"'])) (.value (.string (String.ofList content)))
  | emptyArray {gaps : List Char} (h : IsGaps gaps) :
      Denotes ('[' :: (gaps ++ [']'])) (.value (.array []))
  | array {text : List Char} {items : List Json} (h : Denotes text (.items items)) :
      Denotes ('[' :: (text ++ [']'])) (.value (.array items))
  | emptyObject {gaps : List Char} (h : IsGaps gaps) :
      Denotes ('{' :: (gaps ++ ['}'])) (.value (.object []))
  | object {text : List Char} {members : Members} (h : Denotes text (.members members)) :
      Denotes ('{' :: (text ++ ['}'])) (.value (.object members))
  | lastItem {before text after : List Char} {item : Json} (hb : IsGaps before)
      (h : Denotes text (.value item)) (ha : IsGaps after) :
      Denotes (before ++ (text ++ after)) (.items [item])
  | item {before text after more : List Char} {item : Json} {items : List Json}
      (hb : IsGaps before) (h : Denotes text (.value item)) (ha : IsGaps after)
      (rest : Denotes more (.items items)) :
      Denotes (before ++ (text ++ (after ++ ',' :: more))) (.items (item :: items))
  | lastMember {before spelling content colon text after : List Char} {value : Json}
      (hb : IsGaps before) (hn : Spells spelling content) (hc : IsColon colon)
      (h : Denotes text (.value value)) (ha : IsGaps after) :
      Denotes (before ++ '"' :: (spelling ++ '"' :: (colon ++ (text ++ after))))
        (.members [(String.ofList content, value)])
  | member {before spelling content colon text after more : List Char} {value : Json}
      {members : Members} (hb : IsGaps before) (hn : Spells spelling content)
      (hc : IsColon colon) (h : Denotes text (.value value)) (ha : IsGaps after)
      (rest : Denotes more (.members members)) :
      Denotes (before ++ '"' :: (spelling ++ '"' :: (colon ++ (text ++ (after ++ ',' :: more)))))
        (.members ((String.ofList content, value) :: members))

def IsTextOf (text : List Char) (value : Json) : Prop :=
  ∃ before body after, text = before ++ (body ++ after) ∧ IsGaps before ∧
    Denotes body (.value value) ∧ IsGaps after

variable {text rest before after gaps more : List Char} {value : Json} {items : List Json}
  {members : Members}

/-! ## Blanks -/

theorem isGaps_nil : IsGaps [] := by
  simp [IsGaps]

theorem skipGaps_append (h : IsGaps gaps) (text : List Char) :
    skipGaps (gaps ++ text) = skipGaps text :=
  List.dropWhile_append_of_pos h

theorem skipGaps_eq_nil (h : IsGaps gaps) : skipGaps gaps = [] :=
  List.append_nil gaps ▸ skipGaps_append h []

theorem skipGaps_cons {c : Char} (h : isGap c = false) (rest : List Char) :
    skipGaps (c :: rest) = c :: rest := by
  simp [skipGaps, h]

theorem skipGaps_append_cons (hg : IsGaps gaps) {c : Char} (h : isGap c = false)
    (rest : List Char) : skipGaps (gaps ++ c :: rest) = c :: rest := by
  rw [skipGaps_append hg, skipGaps_cons h]

theorem stopsNumber_cons {c : Char} (h : c.isDigit = false ∧ c ≠ '.' ∧ c ≠ 'e' ∧ c ≠ 'E')
    (rest : List Char) : StopsNumber (c :: rest) := by
  intro d hd
  obtain rfl := Option.some.inj hd
  exact h

theorem stopsNumber_append (hg : IsGaps gaps) (h : StopsNumber rest) :
    StopsNumber (gaps ++ rest) := by
  cases gaps with
  | nil => exact h
  | cons c gaps =>
      apply stopsNumber_cons
      have hgap := hg c (by simp)
      simp only [isGap, Bool.or_eq_true, decide_eq_true_eq] at hgap
      obtain ((rfl | rfl) | rfl) | rfl := hgap <;> decide

theorem takeColon_append {colon : List Char} (h : IsColon colon) (text : List Char) :
    ∃ after, IsGaps after ∧ takeColon (colon ++ text) = .ok (after ++ text) := by
  rcases h with ⟨hb, ha⟩
  refine ⟨_, ha, ?_⟩
  rw [List.append_assoc, List.cons_append, takeColon, skipGaps_append_cons hb (by decide)]
  rfl

theorem bracketed_append (opener closer : Char) (text rest : List Char) :
    opener :: (text ++ [closer]) ++ rest = opener :: (text ++ closer :: rest) := by
  simp

/-! ## Beginnings of values -/

/-- A text on which a reader of items and members may go on. -/
def OpensValue (text : List Char) : Prop :=
  ∃ c more, text = c :: more ∧ isGap c = false ∧ c ≠ ']'

theorem OpensValue.append (h : OpensValue text) (rest : List Char) :
    OpensValue (text ++ rest) := by
  rcases h with ⟨c, more, rfl, hgap, hend⟩
  exact ⟨c, more ++ rest, rfl, hgap, hend⟩

theorem startsNumber_cases {c : Char} (h : startsNumber c = true) :
    isGap c = false ∧ c ≠ 'n' ∧ c ≠ 't' ∧ c ≠ 'f' ∧ c ≠ '"' ∧ c ≠ '[' ∧ c ≠ '{' ∧ c ≠ ']' := by
  refine ⟨?_, ?_, ?_, ?_, ?_, ?_, ?_, ?_⟩
  · rw [Bool.eq_false_iff]
    intro hgap
    simp only [isGap, Bool.or_eq_true, decide_eq_true_eq] at hgap
    obtain ((rfl | rfl) | rfl) | rfl := hgap <;> exact absurd h (by decide)
  all_goals
    rintro rfl
    exact absurd h (by decide)

theorem opensValue_of_denotes (h : Denotes text (.value value)) : OpensValue text := by
  cases h with
  | number h =>
      obtain ⟨c, more, rfl, hstart⟩ := startsNumber_of_numeral h
      obtain ⟨hgap, -, -, -, -, -, -, hend⟩ := startsNumber_cases hstart
      exact ⟨c, more, rfl, hgap, hend⟩
  | null | true | false | string _ | emptyArray _ | array _ | emptyObject _ | object _ =>
      exact ⟨_, _, rfl, by decide, by decide⟩

/-! ## Arrays -/

/-- What comes next in a list: the first entry, or a comma and a later one. -/
def announced (first : Bool) (gaps text : List Char) : List Char :=
  if first then text else gaps ++ ',' :: text

theorem nextItem_announced {first : Bool} (hg : IsGaps gaps) (hb : IsGaps before)
    (h : OpensValue text) :
    nextItem first (announced first gaps (before ++ text)) = .ok (true, text) := by
  rcases h with ⟨c, more, rfl, hgap, hend⟩
  cases first with
  | true => simp [announced, nextItem, skipGaps_append_cons hb hgap, hend]
  | false =>
      simp [announced, nextItem, skipGaps_append_cons hg (c := ',') (by decide),
        skipGaps_append_cons hb hgap, hend]

theorem nextItem_end (first : Bool) (hg : IsGaps gaps) (rest : List Char) :
    nextItem first (gaps ++ ']' :: rest) = .ok (false, rest) := by
  simp [nextItem, skipGaps_append_cons hg (c := ']') (by decide)]

/-- A value is read from each text of it, behind all blanks and in front of everything that does
not go on with a number. -/
def ReadsAs {α : Type} (reader : Reader α) (value : Json) (result : α) : Prop :=
  ∀ gaps text rest, IsGaps gaps → Denotes text (.value value) → StopsNumber rest →
    reader (gaps ++ (text ++ rest)) = .ok (result, rest)

section Items

variable {α : Type} {reader : Reader α} {result : α} {results : List α} {rounds : Nat}

/-- One round reads the item that comes next and leaves the later ones to the other rounds. -/
theorem itemsWithin_announced (hread : ReadsAs reader value result) {first : Bool}
    (hg : IsGaps gaps) (hb : IsGaps before) (h : Denotes text (.value value))
    (hs : StopsNumber more) (hmore : itemsWithin reader rounds false more = .ok (results, rest)) :
    itemsWithin reader (rounds + 1) first (announced first gaps (before ++ (text ++ more))) =
      .ok (result :: results, rest) := by
  have hnext : nextItem first (announced first gaps (before ++ (text ++ more))) =
      .ok (true, text ++ more) :=
    nextItem_announced hg hb ((opensValue_of_denotes h).append more)
  have hitem := hread [] text more isGaps_nil h hs
  rw [List.nil_append] at hitem
  simp [itemsWithin, hnext, hitem, hmore, bind, Except.bind, pure, Except.pure]

theorem length_le_of_denotes_items (h : Denotes text (.items items)) :
    items.length ≤ text.length := by
  generalize hpart : Part.items items = part at h
  induction h generalizing items with
  | lastItem hb h ha =>
      cases hpart
      obtain ⟨c, more, rfl, -⟩ := opensValue_of_denotes h
      simp only [List.length_append, List.length_cons, List.length_nil]
      omega
  | item hb h ha rest _ ih =>
      cases hpart
      have hrest := ih rfl
      simp only [List.length_append, List.length_cons]
      omega
  | _ => cases hpart

/-- All items are read, one in each round, and the bracket in one more. -/
theorem itemsWithin_denotes (h : Denotes text (.items items))
    (hread : List.Forall₂ (ReadsAs reader) items results) (hr : items.length < rounds)
    (first : Bool) (hg : IsGaps gaps) (rest : List Char) :
    itemsWithin reader rounds first (announced first gaps (text ++ ']' :: rest)) =
      .ok (results, rest) := by
  generalize hpart : Part.items items = part at h
  induction h generalizing items results rounds first gaps with
  | @lastItem before text after item hb h ha =>
      cases hpart
      obtain ⟨rounds, rfl⟩ : ∃ n, rounds = n + 1 + 1 := ⟨rounds - 2, by simp at hr; omega⟩
      cases hread with
      | cons hitem hnone =>
          cases hnone
          have hend : itemsWithin reader (rounds + 1) false (after ++ ']' :: rest) =
              .ok ([], rest) := by
            simp [itemsWithin, nextItem_end false ha, bind, Except.bind, pure, Except.pure]
          simp only [List.append_assoc]
          exact itemsWithin_announced hitem hg hb h
            (stopsNumber_append ha (stopsNumber_cons (by decide) rest)) hend
  | @item before text after more item items hb h ha _ _ ih =>
      cases hpart
      obtain ⟨rounds, rfl⟩ : ∃ n, rounds = n + 1 := ⟨rounds - 1, by simp at hr; omega⟩
      cases hread with
      | cons hitem hitems =>
          have hmore := ih hitems (Nat.lt_of_succ_lt_succ hr) false ha rfl
          simp only [List.append_assoc, List.cons_append]
          exact itemsWithin_announced hitem hg hb h
            (stopsNumber_append ha (stopsNumber_cons (by decide) _)) hmore
  | _ => cases hpart

theorem readItems_denotes (h : Denotes text (.items items))
    (hread : List.Forall₂ (ReadsAs reader) items results) (rest : List Char) :
    readItems reader (text ++ ']' :: rest) = .ok (results, rest) := by
  apply itemsWithin_denotes h hread _ true isGaps_nil
  have hle := length_le_of_denotes_items h
  simp only [List.length_append]
  omega

theorem readItems_gaps (hg : IsGaps gaps) (rest : List Char) :
    readItems reader (gaps ++ ']' :: rest) = .ok ([], rest) := by
  simp [readItems, itemsWithin, nextItem_end true hg, bind, Except.bind, pure, Except.pure]

end Items

/-! ## Objects -/

variable {spelling content : List Char}

theorem nextName_announced {first : Bool} (hg : IsGaps gaps) (hb : IsGaps before)
    (h : Spells spelling content) (rest : List Char) :
    nextName first (announced first gaps (before ++ '"' :: (spelling ++ '"' :: rest))) =
      .ok (some (String.ofList content), rest) := by
  have hname : nextName.name '"' (spelling ++ '"' :: rest) =
      .ok (some (String.ofList content), rest) := by
    simp [nextName.name, readString_spells h, bind, Except.bind, pure, Except.pure]
  cases first with
  | true => simp [announced, nextName, skipGaps_append_cons hb (c := '"') (by decide), hname]
  | false =>
      simp [announced, nextName, skipGaps_append_cons hg (c := ',') (by decide),
        skipGaps_append_cons hb (c := '"') (by decide), hname]

theorem nextName_end (first : Bool) (hg : IsGaps gaps) (rest : List Char) :
    nextName first (gaps ++ '}' :: rest) = .ok (none, rest) := by
  simp [nextName, skipGaps_append_cons hg (c := '}') (by decide)]

section Members

variable {σ : Type} {member : σ → String → Reader σ} {gathered between gathered' : σ}
  {rounds : Nat}

/-- From every text of a member, its name apart, what was gathered before it becomes what is
gathered after it. -/
def Gathers (member : σ → String → Reader σ) (gathered : σ) (next : String × Json)
    (after : σ) : Prop :=
  ∀ colon text rest, IsColon colon → Denotes text (.value next.2) → StopsNumber rest →
    member gathered next.1 (colon ++ (text ++ rest)) = .ok (after, rest)

theorem membersWithin_announced {first : Bool} (hg : IsGaps gaps) (hb : IsGaps before)
    (hn : Spells spelling content)
    (h : member gathered (String.ofList content) text = .ok (between, more))
    (hmore : membersWithin member rounds false between more = .ok (gathered', rest)) :
    membersWithin member (rounds + 1) first gathered
        (announced first gaps (before ++ '"' :: (spelling ++ '"' :: text))) =
      .ok (gathered', rest) := by
  simp [membersWithin, nextName_announced hg hb hn, h, hmore, bind, Except.bind]

theorem readMember_denotes {α : Type} {reader : Reader α} {result : α} {colon : List Char}
    (hread : ReadsAs reader value result) (hc : IsColon colon) (h : Denotes text (.value value))
    (hs : StopsNumber rest) : readMember reader (colon ++ (text ++ rest)) = .ok (result, rest) := by
  obtain ⟨gaps, hg, hcolon⟩ := takeColon_append hc (text ++ rest)
  rw [readMember, hcolon]
  exact hread gaps text rest hg h hs

theorem length_le_of_denotes_members (h : Denotes text (.members members)) :
    members.length ≤ text.length := by
  generalize hpart : Part.members members = part at h
  induction h generalizing members with
  | lastMember =>
      cases hpart
      simp only [List.length_append, List.length_cons, List.length_nil]
      omega
  | member _ _ _ _ _ _ _ ih =>
      cases hpart
      have hrest := ih rfl
      simp only [List.length_append, List.length_cons]
      omega
  | _ => cases hpart

/-- All members are gathered, one in each round, and the bracket in one more: what holds of the
members that are done and of what was gathered from them goes from each member to the next. -/
theorem membersWithin_denotes {Holds : Members → σ → Prop} {all : Members}
    (hstep : ∀ done next left gathered, all = done ++ next :: left → Holds done gathered →
      ∃ after, Gathers member gathered next after ∧ Holds (done ++ [next]) after)
    (h : Denotes text (.members members)) {done : Members} (hall : all = done ++ members)
    (hdone : Holds done gathered) (hr : members.length < rounds) (first : Bool)
    (hg : IsGaps gaps) (rest : List Char) :
    ∃ after, membersWithin member rounds first gathered
        (announced first gaps (text ++ '}' :: rest)) = .ok (after, rest) ∧ Holds all after := by
  generalize hpart : Part.members members = part at h
  induction h generalizing members gathered done rounds first gaps with
  | @lastMember before spelling content colon text after value hb hn hc h ha =>
      cases hpart
      obtain ⟨rounds, rfl⟩ : ∃ n, rounds = n + 1 + 1 := ⟨rounds - 2, by simp at hr; omega⟩
      obtain ⟨gathered', hgathers, hholds⟩ := hstep done _ [] gathered hall hdone
      have hend : membersWithin member (rounds + 1) false gathered' (after ++ '}' :: rest) =
          .ok (gathered', rest) := by
        simp [membersWithin, nextName_end false ha, bind, Except.bind, pure, Except.pure]
      have hmember := hgathers colon text (after ++ '}' :: rest) hc h
        (stopsNumber_append ha (stopsNumber_cons (by decide) rest))
      refine ⟨gathered', ?_, hall ▸ hholds⟩
      simp only [List.append_assoc, List.cons_append]
      exact membersWithin_announced hg hb hn hmember hend
  | @member before spelling content colon text after more value members hb hn hc h ha _ _ ih =>
      cases hpart
      obtain ⟨rounds, rfl⟩ : ∃ n, rounds = n + 1 := ⟨rounds - 1, by simp at hr; omega⟩
      obtain ⟨between, hgathers, hholds⟩ := hstep done _ members gathered hall hdone
      obtain ⟨gathered', hmore, hend⟩ := ih (by simp [hall]) hholds (Nat.lt_of_succ_lt_succ hr)
        false ha rfl
      have hmember := hgathers colon text (announced false after (more ++ '}' :: rest)) hc h
        (stopsNumber_append ha (stopsNumber_cons (by decide) _))
      refine ⟨gathered', ?_, hend⟩
      simp only [List.append_assoc, List.cons_append]
      exact membersWithin_announced hg hb hn hmember hmore
  | _ => cases hpart

end Members

end LocaleTidy.Json
