import LocaleTidy.Json.Writer
import LocaleTidy.Proofs.Json.Grammar
import LocaleTidy.Proofs.Json.Readable

/-!
# Written values are read again

A value that a text can denote is read from every text that denotes it, and what is written for
it is one of these. Arrays and objects are read round by round: each round takes one item, and a
new name comes after the names gathered before.
-/

namespace LocaleTidy.Json

variable {text rest gaps : List Char} {depth : Nat}

/-! ## Written values denote themselves -/

theorem isGaps_newLine (level : Nat) : IsGaps (newLine level) := by
  intro c hc
  rcases List.mem_cons.mp hc with rfl | hc
  · decide
  · obtain rfl := List.eq_of_mem_replicate hc
    decide

theorem isColon_written : IsColon ": ".toList := by
  have hafter : IsGaps [' '] := by simp [IsGaps, isGap]
  exact .mk isGaps_nil hafter

theorem denotes_writeString (text : String) :
    Denotes (writeString text) (.value (.string text)) := by
  have h := Denotes.string (spells_flatMap text.toList)
  rwa [String.ofList_toList] at h

theorem denotes_prettyItems (level outer : Nat) {item : Json} {items : List Json}
    (h : ∀ other ∈ item :: items, Denotes (prettyChars level other) (.value other)) :
    Denotes
      (newLine level ++ (prettyChars level item ++ (prettyItems level items ++ newLine outer)))
      (.items (item :: items)) := by
  induction items generalizing item with
  | nil => exact .lastItem (isGaps_newLine level) (h item (by simp)) (isGaps_newLine outer)
  | cons next items ih =>
      have hmore := ih fun other ho => h other (List.mem_cons_of_mem _ ho)
      have hitem := Denotes.item (isGaps_newLine level) (h item (by simp)) isGaps_nil hmore
      simpa [prettyItems] using hitem

theorem denotes_prettyMembers (level outer : Nat) {name : String} {value : Json}
    {members : Members}
    (h : ∀ member ∈ (name, value) :: members,
      Denotes (prettyChars level member.2) (.value member.2)) :
    Denotes (newLine level ++ (writeString name ++ (": ".toList ++ (prettyChars level value ++
      (prettyMembers level members ++ newLine outer))))) (.members ((name, value) :: members)) := by
  induction members generalizing name value with
  | nil =>
      have hmember := Denotes.lastMember (isGaps_newLine level) (spells_flatMap name.toList)
        isColon_written (h (name, value) (by simp)) (isGaps_newLine outer)
      simpa [writeString, prettyMembers] using hmember
  | cons next members ih =>
      rcases next with ⟨name', value'⟩
      have hmore := ih fun member hm => h member (List.mem_cons_of_mem _ hm)
      have hmember := Denotes.member (isGaps_newLine level) (spells_flatMap name.toList)
        isColon_written (h (name, value) (by simp)) isGaps_nil hmore
      simpa [writeString, prettyMembers] using hmember

mutual

theorem denotes_prettyChars : ∀ (value : Json) (depth level : Nat), value.Writable depth →
    Denotes (prettyChars level value) (.value value)
  | .null, _, _, _ => .null
  | .bool true, _, _, _ => .true
  | .bool false, _, _, _ => .false
  | .number text, depth, _, hw => by
      have hnumber : IsNumber text.toList := by cases depth <;> simpa [Writable] using hw
      have h := Denotes.number hnumber.numeral
      rwa [String.ofList_toList] at h
  | .string text, _, _, _ => denotes_writeString text
  | .array items, 0, _, hw => by simp [Writable] at hw
  | .array [], _ + 1, _, _ => .emptyArray isGaps_nil
  | .array (item :: items), depth + 1, level, hw => by
      have h := denotes_prettyItems (level + 1) level
        (denotes_prettyChars_items (item :: items) depth (level + 1) hw)
      simpa [prettyChars] using h.array
  | .object members, 0, _, hw => by simp [Writable] at hw
  | .object [], _ + 1, _, _ => .emptyObject isGaps_nil
  | .object ((name, value) :: members), depth + 1, level, hw => by
      have h := denotes_prettyMembers (level + 1) level
        (denotes_prettyChars_members ((name, value) :: members) depth (level + 1) hw)
      simpa [prettyChars] using h.object

theorem denotes_prettyChars_items : ∀ (items : List Json) (depth level : Nat),
    WritableItems depth items → ∀ item ∈ items, Denotes (prettyChars level item) (.value item)
  | [], _, _, _ => by simp
  | item :: items, depth, level, hw => by
      intro other ho
      rcases List.mem_cons.mp ho with heq | ho
      · rw [heq]
        exact denotes_prettyChars item depth level hw.1
      · exact denotes_prettyChars_items items depth level hw.2 other ho

theorem denotes_prettyChars_members : ∀ (members : List (String × Json)) (depth level : Nat),
    WritableMembers depth members →
      ∀ member ∈ members, Denotes (prettyChars level member.2) (.value member.2)
  | [], _, _, _ => by simp
  | (name, value) :: members, depth, level, hw => by
      intro other ho
      rcases List.mem_cons.mp ho with heq | ho
      · rw [heq]
        exact denotes_prettyChars value depth level hw.1
      · exact denotes_prettyChars_members members depth level hw.2 other ho

end

theorem isTextOf_pretty {value : Json} (h : value.Writable depth) :
    IsTextOf value.pretty.toList value := by
  refine ⟨[], prettyChars 0 value, [], ?_, isGaps_nil, denotes_prettyChars value depth 0 h,
    isGaps_nil⟩
  rw [pretty, String.toList_ofList, List.append_nil, List.nil_append]

/-! ## Values without brackets -/

variable {nested : Option (Reader Json)}

theorem readWith_gaps (hg : IsGaps gaps) (text : List Char) :
    readWith nested (gaps ++ text) = readWith nested text := by
  rw [readWith, readWith, skipGaps_append hg]

theorem exists_readWith (depth : Nat) : ∃ nested, readValue depth = readWith nested := by
  cases depth with
  | zero => exact ⟨none, rfl⟩
  | succ depth => exact ⟨some (readValue depth), rfl⟩

theorem readsAs_null : ReadsAs (readWith nested) .null .null := by
  intro gaps text rest hg h _
  rw [readWith_gaps hg]
  cases h
  simp [readWith, skipGaps, isGap, literal, bind, Except.bind, pure, Except.pure]

theorem readsAs_bool (value : Bool) : ReadsAs (readWith nested) (.bool value) (.bool value) := by
  intro gaps text rest hg h _
  rw [readWith_gaps hg]
  cases h with
  | true | false =>
      simp [readWith, skipGaps, isGap, literal, bind, Except.bind, pure, Except.pure]

theorem readsAs_string (text : String) :
    ReadsAs (readWith nested) (.string text) (.string text) := by
  intro gaps text rest hg h _
  rw [readWith_gaps hg]
  cases h with
  | string h =>
      simp [readWith, skipGaps, isGap, readString_spells h, bind, Except.bind, pure, Except.pure]

theorem readsAs_number (text : String) :
    ReadsAs (readWith nested) (.number text) (.number text) := by
  intro gaps text rest hg h hs
  rw [readWith_gaps hg]
  cases h with
  | @number written kept h =>
      obtain ⟨c, more, rfl, hstart⟩ := startsNumber_of_numeral h
      obtain ⟨hgap, hn, ht, hf, hq, hl, ho, -⟩ := startsNumber_cases hstart
      have hread : readNumber (c :: (more ++ rest)) = .ok (String.ofList kept, rest) := by
        rw [readNumber, ← List.cons_append, numberText_append h hs]
      simp [readWith, skipGaps, hgap, hn, ht, hf, hq, hl, ho, hstart, hread, bind, Except.bind,
        pure, Except.pure]

/-! ## Arrays and objects -/

variable {reader : Reader Json}

theorem readWith_array (reader : Reader Json) (text : List Char) :
    readWith (some reader) ('[' :: text) = do
      let (items, rest) ← readItems reader text
      return (.array items, rest) := rfl

theorem readWith_object (reader : Reader Json) (text : List Char) :
    readWith (some reader) ('{' :: text) = readObject reader text := rfl

theorem readsAs_array {items : List Json} (h : ∀ item ∈ items, ReadsAs reader item item) :
    ReadsAs (readWith (some reader)) (.array items) (.array items) := by
  have hitems : List.Forall₂ (ReadsAs reader) items items := List.forall₂_same.mpr h
  intro gaps text rest hg htext _
  rw [readWith_gaps hg]
  cases htext with
  | emptyArray hg =>
      rw [bracketed_append, readWith_array, readItems_gaps hg]
      rfl
  | array htext =>
      rw [bracketed_append, readWith_array, readItems_denotes htext hitems]
      rfl

def laterMember (reader : Reader Json) (members : Members) (name : String) : Reader Members :=
  fun text => do
    let (value, text) ← readMember reader text
    return (members.insert name value, text)

/-- A member with a new name comes after those that are gathered. -/
theorem gathers_laterMember {done left : Members} {next : String × Json}
    (hn : ((done ++ next :: left).map Prod.fst).Nodup) (h : ReadsAs reader next.2 next.2) :
    Gathers (laterMember reader) done next (done ++ [next]) := by
  intro colon text rest hc htext hs
  have hnew : done.get? next.1 = none := by
    rw [Members.get?_eq_none_iff]
    intro hin
    rw [List.map_append, List.nodup_append] at hn
    exact hn.2.2 next.1 hin next.1 (by simp) rfl
  rw [laterMember, readMember_denotes h hc htext hs, ← Members.insert_of_get?_eq_none hnew]
  rfl

theorem readObject_first {before spelling content more : List Char} {value : Json}
    {members : Members} (hb : IsGaps before) (hn : Spells spelling content)
    (htag : String.ofList content ≠ numberTag) (h : readMember reader text = .ok (value, more))
    (hmore : membersWithin (laterMember reader) (more.length + 1) false
      [(String.ofList content, value)] more = .ok (members, rest)) :
    readObject reader (before ++ '"' :: (spelling ++ '"' :: text)) =
      .ok (.object members, rest) := by
  have hname : nextName true (before ++ '"' :: (spelling ++ '"' :: text)) =
      .ok (some (String.ofList content), text) := nextName_announced isGaps_nil hb hn text
  rw [readObject, hname]
  exact (if_neg htag).trans (bind_eq_ok.mpr ⟨_, h, bind_eq_ok.mpr ⟨_, hmore, rfl⟩⟩)

theorem readObject_denotes {members : Members} (h : Denotes text (.members members))
    (hread : ∀ member ∈ members, ReadsAs reader member.2 member.2)
    (hn : (members.map Prod.fst).Nodup)
    (htag : ∀ member ∈ members.head?, member.1 ≠ numberTag) (rest : List Char) :
    readObject reader (text ++ '}' :: rest) = .ok (.object members, rest) := by
  cases h with
  | @lastMember before spelling content colon text after value hb hspells hc h ha =>
      have hfirst := readMember_denotes (hread (String.ofList content, value) (by simp)) hc h
        (stopsNumber_append ha (stopsNumber_cons (c := '}') (by decide) rest))
      simp only [List.append_assoc, List.cons_append]
      refine readObject_first hb hspells (htag _ rfl) hfirst ?_
      simp [membersWithin, nextName_end false ha, bind, Except.bind, pure, Except.pure]
  | @member before spelling content colon text after more value members hb hspells hc h ha hmore =>
      have hfirst := readMember_denotes (hread (String.ofList content, value) (by simp)) hc h
        (stopsNumber_append ha (stopsNumber_cons (c := ',') (by decide) (more ++ '}' :: rest)))
      simp only [List.append_assoc, List.cons_append]
      refine readObject_first hb hspells (htag _ rfl) hfirst ?_
      have hrounds : members.length < (after ++ ',' :: (more ++ '}' :: rest)).length + 1 := by
        have hle := length_le_of_denotes_members hmore
        simp only [List.length_append, List.length_cons]
        omega
      have hstep : ∀ done next left gathered,
          (String.ofList content, value) :: members = done ++ next :: left → gathered = done →
            ∃ after, Gathers (laterMember reader) gathered next after ∧ after = done ++ [next] := by
        rintro done next left gathered hall rfl
        rw [hall] at hread hn
        exact ⟨_, gathers_laterMember hn (hread next (by simp)), rfl⟩
      obtain ⟨gathered, hmembers, rfl⟩ := membersWithin_denotes hstep hmore
        List.singleton_append.symm rfl hrounds false ha rest
      exact hmembers

theorem readsAs_object {members : Members}
    (h : ∀ member ∈ members, ReadsAs reader member.2 member.2)
    (hn : (members.map Prod.fst).Nodup)
    (htag : ∀ member ∈ members.head?, member.1 ≠ numberTag) :
    ReadsAs (readWith (some reader)) (.object members) (.object members) := by
  intro gaps text rest hg htext _
  rw [readWith_gaps hg]
  cases htext with
  | emptyObject hg =>
      rw [bracketed_append, readWith_object, readObject, nextName_end true hg]
      rfl
  | object htext =>
      rw [bracketed_append, readWith_object, readObject_denotes htext h hn htag]

/-! ## All values -/

mutual

theorem readsAs : ∀ (value : Json) (depth : Nat), value.UniqueNames → value.Writable depth →
    value.Untagged → ReadsAs (readValue depth) value value
  | .null, depth, _, _, _ => by
      obtain ⟨nested, hnested⟩ := exists_readWith depth
      exact hnested ▸ readsAs_null
  | .bool value, depth, _, _, _ => by
      obtain ⟨nested, hnested⟩ := exists_readWith depth
      exact hnested ▸ readsAs_bool value
  | .number text, depth, _, _, _ => by
      obtain ⟨nested, hnested⟩ := exists_readWith depth
      exact hnested ▸ readsAs_number text
  | .string text, depth, _, _, _ => by
      obtain ⟨nested, hnested⟩ := exists_readWith depth
      exact hnested ▸ readsAs_string text
  | .array items, 0, _, hw, _ => by simp [Writable] at hw
  | .array items, depth + 1, hu, hw, ht => readsAs_array (readsAs_items items depth hu hw ht)
  | .object members, 0, _, hw, _ => by simp [Writable] at hw
  | .object members, depth + 1, hu, hw, ht =>
      readsAs_object (readsAs_members members depth hu hw ht.2) (uniqueInMembers_iff.mp hu).1 ht.1

theorem readsAs_items : ∀ (items : List Json) (depth : Nat), UniqueInItems items →
    WritableItems depth items → UntaggedItems items →
      ∀ item ∈ items, ReadsAs (readValue depth) item item
  | [], _, _, _, _ => by simp
  | item :: items, depth, hu, hw, ht => by
      intro other ho
      rcases List.mem_cons.mp ho with heq | ho
      · rw [heq]
        exact readsAs item depth hu.1 hw.1 ht.1
      · exact readsAs_items items depth hu.2 hw.2 ht.2 other ho

theorem readsAs_members : ∀ (members : List (String × Json)) (depth : Nat),
    UniqueInMembers members → WritableMembers depth members → UntaggedMembers members →
      ∀ member ∈ members, ReadsAs (readValue depth) member.2 member.2
  | [], _, _, _, _ => by simp
  | (name, value) :: members, depth, hu, hw, ht => by
      intro other ho
      rcases List.mem_cons.mp ho with heq | ho
      · rw [heq]
        exact readsAs value depth hu.2.1 hw.1 ht.1
      · exact readsAs_members members depth hu.2.2 hw.2 ht.2 other ho

end

theorem readWhole_eq_ok {α : Type} {reader : Reader α} {text : String} {result : α}
    {after : List Char} (hread : reader text.toList = .ok (result, after)) (ha : IsGaps after) :
    readWhole reader text = .ok result := by
  rw [readWhole, mapError_eq_ok, bind_eq_ok]
  exact ⟨_, hread, by simp only [skipGaps_eq_nil ha]; rfl⟩

theorem stopsNumber_of_isGaps (hg : IsGaps gaps) : StopsNumber gaps :=
  List.append_nil gaps ▸ stopsNumber_append hg (by simp [StopsNumber])

/-- A value that a text can denote is what its written form denotes, with or without a line
break at the end. -/
theorem parse_pretty {value : Json} (h : Readable maxDepth value) {rest : List Char}
    (hr : IsGaps rest) : parse (String.ofList (prettyChars 0 value ++ rest)) = .ok value := by
  have hread := readsAs value maxDepth h.unique h.writable h.untagged [] _ rest isGaps_nil
    (denotes_prettyChars value maxDepth 0 h.writable) (stopsNumber_of_isGaps hr)
  refine readWhole_eq_ok ?_ hr
  rwa [String.toList_ofList]

end LocaleTidy.Json
