import LocaleTidy.Settings.Reader
import LocaleTidy.Proofs.Json.RoundTrip
import LocaleTidy.Proofs.Json.Skipping

/-!
# Settings that are read

Every object that gives some of the fields a value of their type is read, in whatever order they
come and whatever else it holds: these fields get their values and the others keep their defaults.
What is written for settings is such an object, and it is read as the settings.
-/

namespace LocaleTidy.Settings

open Json

variable {text rest gaps : List Char} {settings : Settings} {field : Field} {value : Json}

/-! ## Values of the fields -/

def Field.valueIn (settings : Settings) : Field → Json
  | .messagesFile => .string settings.messagesFile
  | .sourceRoots => .strings settings.sourceRoots
  | .extensions => .strings settings.extensions
  | .ignores => .strings settings.ignores
  | .excludeDir => (settings.excludeDir.map Json.string).getD .null
  | .lookupFunction => .string settings.lookupFunction
  | .namespaceFunctions => .strings settings.namespaceFunctions
  | .errorNamespaces => .strings settings.errorNamespaces
  | .bareLeafFallback => .bool settings.bareLeafFallback
  | .backupSuffix => .string settings.backupSuffix

def Field.Takes : Field → Json → Prop
  | .messagesFile, value | .lookupFunction, value | .backupSuffix, value =>
      ∃ text, value = .string text
  | .sourceRoots, value | .extensions, value | .ignores, value | .namespaceFunctions, value
  | .errorNamespaces, value => ∃ texts, value = .strings texts
  | .excludeDir, value => value = .null ∨ ∃ name, value = .string name
  | .bareLeafFallback, value => ∃ flag, value = .bool flag

theorem strings_inj {texts texts' : List String} (h : Json.strings texts = .strings texts') :
    texts = texts' :=
  List.map_injective_iff.mpr (fun _ _ h => Json.string.inj h) (Json.array.inj h)

theorem eq_of_valueIn {other : Settings}
    (h : ∀ field : Field, field.valueIn settings = field.valueIn other) : settings = other := by
  have hexclude : settings.excludeDir = other.excludeDir := by
    have hvalue := h .excludeDir
    simp only [Field.valueIn] at hvalue
    cases hs : settings.excludeDir with
    | none => cases ho : other.excludeDir <;> simp_all
    | some name => cases ho : other.excludeDir <;> simp_all
  cases settings
  cases other
  rw [Settings.mk.injEq]
  exact ⟨Json.string.inj (h .messagesFile), strings_inj (h .sourceRoots),
    strings_inj (h .extensions), strings_inj (h .ignores), hexclude,
    Json.string.inj (h .lookupFunction), strings_inj (h .namespaceFunctions),
    strings_inj (h .errorNamespaces), Json.bool.inj (h .bareLeafFallback),
    Json.string.inj (h .backupSuffix)⟩

/-! ## Readers of values -/

theorem readBy_gaps {α : Type} {reader : Char → Reader α} (hg : IsGaps gaps) (text : List Char) :
    readBy reader (gaps ++ text) = readBy reader text := by
  rw [readBy, readBy, skipGaps_append hg]

theorem readsAs_readText (text : String) : ReadsAs readText (.string text) text := by
  intro gaps text rest hg h _
  rw [readText, readBy_gaps hg]
  cases h with
  | string h => simp [readBy, skipGaps, isGap, readString_spells h]

theorem readsAs_readTexts (texts : List String) : ReadsAs readTexts (.strings texts) texts := by
  have hread : List.Forall₂ (ReadsAs readText) (texts.map .string) texts :=
    List.forall₂_map_left_iff.mpr (List.forall₂_same.mpr fun text _ => readsAs_readText text)
  intro gaps text rest hg h _
  rw [readTexts, readBy_gaps hg]
  rw [Json.strings] at h
  generalize texts.map Json.string = items at h hread
  cases h with
  | emptyArray h =>
      cases hread
      simp [readBy, skipGaps, isGap, readItems_gaps h]
  | array h => simp [readBy, skipGaps, isGap, readItems_denotes h hread]

theorem readsAs_readOptionalText_null : ReadsAs readOptionalText .null none := by
  intro gaps text rest hg h _
  rw [readOptionalText, readBy_gaps hg]
  cases h
  simp [readBy, skipGaps, isGap, literal, bind, Except.bind, pure, Except.pure]

theorem readsAs_readOptionalText_string (name : String) :
    ReadsAs readOptionalText (.string name) (some name) := by
  intro gaps text rest hg h hs
  have hread := readsAs_readText name [] text rest isGaps_nil h hs
  rw [readOptionalText, readBy_gaps hg]
  cases h with
  | string h =>
      simp only [List.nil_append, List.cons_append, List.append_assoc] at hread
      simp [readBy, skipGaps, isGap, hread, bind, Except.bind, pure, Except.pure]

theorem readsAs_readFlag (flag : Bool) : ReadsAs readFlag (.bool flag) flag := by
  intro gaps text rest hg h _
  rw [readFlag, readBy_gaps hg]
  cases h with
  | true | false =>
      simp [readBy, skipGaps, isGap, literal, bind, Except.bind, pure, Except.pure]

/-! ## Fields -/

/-- One field has a new value, and every other one has that of the settings before. -/
def Replaces (field : Field) (value : Json) (settings after : Settings) : Prop :=
  ∀ other : Field, other.valueIn after = if other = field then value else other.valueIn settings

/-- A field is replaced by what is read if that is put into the field. -/
theorem exists_of_set {α : Type} {reader : Reader α} {result : α} {make : α → Settings}
    (hread : ReadsAs reader value result) (h : Replaces field value settings (make result)) :
    ∃ after, ReadsAs (Field.read.set reader make) value after ∧
      Replaces field value settings after := by
  refine ⟨make result, ?_, h⟩
  intro gaps text rest hg htext hs
  rw [Field.read.set, hread gaps text rest hg htext hs]
  rfl

/-- A value of its type is read into a field, and the other fields are kept. -/
theorem exists_replaces (settings : Settings) (h : field.Takes value) :
    ∃ after, ReadsAs (field.read settings) value after ∧ Replaces field value settings after := by
  unfold Field.read
  cases field with
  | messagesFile | lookupFunction | backupSuffix =>
      obtain ⟨text, rfl⟩ := h
      refine exists_of_set (readsAs_readText text) fun other => ?_
      cases other <;> rfl
  | sourceRoots | extensions | ignores | namespaceFunctions | errorNamespaces =>
      obtain ⟨texts, rfl⟩ := h
      refine exists_of_set (readsAs_readTexts texts) fun other => ?_
      cases other <;> rfl
  | excludeDir =>
      obtain rfl | ⟨name, rfl⟩ := h
      · refine exists_of_set readsAs_readOptionalText_null fun other => ?_
        cases other <;> rfl
      · refine exists_of_set (readsAs_readOptionalText_string name) fun other => ?_
        cases other <;> rfl
  | bareLeafFallback =>
      obtain ⟨flag, rfl⟩ := h
      refine exists_of_set (readsAs_readFlag flag) fun other => ?_
      cases other <;> rfl

theorem Field.mem_all (field : Field) : field ∈ Field.all := by
  cases field <;> decide

theorem Field.eq_of_name_eq {other : Field} (h : field.name = other.name) : field = other := by
  have hall : ∀ field ∈ Field.all, ∀ other ∈ Field.all,
      field.name = other.name → field = other := by
    decide
  exact hall field field.mem_all other other.mem_all h

theorem Field.name_of_ofName? {name : String} (h : Field.ofName? name = some field) :
    field.name = name := by
  simpa using List.find?_some h

theorem Field.name_ne_of_ofName? {name : String} (h : Field.ofName? name = none)
    (field : Field) : field.name ≠ name := by
  simpa using List.find?_eq_none.mp h field field.mem_all

/-! ## Objects -/

variable {members : Members}

/-- What an object says of a field, or else the default. -/
def Field.givenIn (members : Members) (field : Field) : Json :=
  (members.get? field.name).getD (field.valueIn default)

/-- What was gathered from the members that are done. -/
structure GatheredFrom (members : Members) (gathered : Gathered) : Prop where
  values : ∀ field : Field, field.valueIn gathered.settings = field.givenIn members
  seen : ∀ field ∈ gathered.seen, field.name ∈ members.map Prod.fst

theorem gatheredFrom_nil : GatheredFrom [] ⟨default, []⟩ := by
  refine ⟨fun field => rfl, ?_⟩
  simp

theorem Field.givenIn_append_of_ne {next : String × Json} (h : field.name ≠ next.1) :
    field.givenIn (members ++ [next]) = field.givenIn members := by
  simp [givenIn, Members.get?_append, Members.get?, h.symm]

theorem Field.givenIn_append_self (hnew : field.name ∉ members.map Prod.fst) (value : Json) :
    field.givenIn (members ++ [(field.name, value)]) = value := by
  simp [givenIn, Members.get?_append, Members.get?_eq_none_iff.mpr hnew, Members.get?]

theorem gathers_unknown {gathered : Gathered} {next : String × Json}
    (h : Field.ofName? next.1 = none) : Gathers readNamed gathered next gathered := by
  intro colon text rest hc htext hs
  obtain ⟨gaps, hg, hcolon⟩ := takeColon_append hc (text ++ rest)
  simp [readNamed, h, hcolon, skipValue_denotes hg htext hs, bind, Except.bind, pure, Except.pure]

theorem gathers_known {gathered : Gathered} {next : String × Json} {after : Settings}
    (h : Field.ofName? next.1 = some field) (hnew : field ∉ gathered.seen)
    (hread : ReadsAs (field.read gathered.settings) next.2 after) :
    Gathers readNamed gathered next ⟨after, field :: gathered.seen⟩ := by
  intro colon text rest hc htext hs
  simp [readNamed, h, hnew, readMember_denotes hread hc htext hs, bind, Except.bind, pure,
    Except.pure]

/-- An object of settings: each field comes at most once, and with a value of its type. -/
structure IsSettings (members : Members) : Prop where
  once : ∀ field : Field, (members.map Prod.fst).count field.name ≤ 1
  typed : ∀ field : Field, ∀ value ∈ members.get? field.name, field.Takes value

theorem IsSettings.not_mem {done left : Members} {next : String × Json}
    (h : IsSettings (done ++ next :: left)) (hn : field.name = next.1) :
    field.name ∉ done.map Prod.fst := by
  intro hin
  have hcount := h.once field
  have hpos := List.count_pos_iff.mpr hin
  rw [hn] at hcount hpos
  simp only [List.map_append, List.map_cons, List.count_append, List.count_cons_self] at hcount
  omega

/-- Each member is gathered after those before it. -/
theorem exists_gathers {done left : Members} {next : String × Json} {gathered : Gathered}
    (h : IsSettings (done ++ next :: left)) (hdone : GatheredFrom done gathered) :
    ∃ after, Gathers readNamed gathered next after ∧ GatheredFrom (done ++ [next]) after := by
  cases hname : Field.ofName? next.1 with
  | none =>
      refine ⟨gathered, gathers_unknown hname, fun field => ?_, fun field hf => ?_⟩
      · rw [Field.givenIn_append_of_ne (Field.name_ne_of_ofName? hname field)]
        exact hdone.values field
      · simp [hdone.seen field hf]
  | some field =>
      rcases next with ⟨name, value⟩
      obtain rfl : field.name = name := Field.name_of_ofName? hname
      have hnew := h.not_mem rfl
      have htyped : field.Takes value :=
        h.typed field value (Members.get?_append_cons_self (Members.get?_eq_none_iff.mpr hnew))
      obtain ⟨after, hread, hreplaces⟩ := exists_replaces gathered.settings htyped
      have hunseen : field ∉ gathered.seen := fun hin => hnew (hdone.seen field hin)
      refine ⟨_, gathers_known hname hunseen hread, fun other => ?_, fun other ho => ?_⟩
      · rw [hreplaces other]
        split
        · rename_i hother
          rw [hother, Field.givenIn_append_self hnew]
        · rename_i hother
          rw [hdone.values other,
            Field.givenIn_append_of_ne fun hsame => hother (Field.eq_of_name_eq hsame)]
      · rcases List.mem_cons.mp ho with rfl | ho
        · simp
        · simp [hdone.seen other ho]

theorem reader_object (hg : IsGaps gaps) (text : List Char) :
    reader (gaps ++ '{' :: text) = do
      let (gathered, rest) ← membersWithin readNamed (text.length + 1) true ⟨default, []⟩ text
      return (gathered.settings, rest) := by
  rw [reader, readBy_gaps hg]
  simp [readBy, skipGaps, isGap]

/-- An object of settings is read: the fields that it gives are set, and the others keep their
defaults. -/
theorem exists_reader_eq_ok (h : IsSettings members) (hg : IsGaps gaps)
    (htext : Denotes text (.value (.object members))) (rest : List Char) :
    ∃ settings, reader (gaps ++ (text ++ rest)) = .ok (settings, rest) ∧
      ∀ field : Field, field.valueIn settings = field.givenIn members := by
  cases htext with
  | emptyObject hinner =>
      refine ⟨default, ?_, fun field => rfl⟩
      rw [bracketed_append, reader_object hg]
      simp [membersWithin, nextName_end true hinner, bind, Except.bind, pure, Except.pure]
  | @object text members htext =>
      have hrounds : members.length < (text ++ '}' :: rest).length + 1 := by
        have hle := length_le_of_denotes_members htext
        simp only [List.length_append]
        omega
      have hstep : ∀ done next left gathered, members = done ++ next :: left →
          GatheredFrom done gathered →
            ∃ after, Gathers readNamed gathered next after ∧ GatheredFrom (done ++ [next]) after :=
        fun done next left gathered hall hdone => exists_gathers (hall ▸ h) hdone
      obtain ⟨gathered, hread, hvalues⟩ := membersWithin_denotes hstep htext
        (List.nil_append members).symm gatheredFrom_nil hrounds true isGaps_nil rest
      refine ⟨gathered.settings, ?_, hvalues.values⟩
      rw [bracketed_append, reader_object hg]
      simp only [announced, if_true] at hread
      rw [hread]
      rfl

theorem exists_parse_eq_ok {text : String} (h : IsSettings members)
    (htext : IsTextOf text.toList (.object members)) :
    ∃ settings, parse text = .ok settings ∧
      ∀ field : Field, field.valueIn settings = field.givenIn members := by
  obtain ⟨before, body, after, hsplit, hb, hbody, ha⟩ := htext
  obtain ⟨settings, hread, hvalues⟩ := exists_reader_eq_ok h hb hbody after
  exact ⟨settings, readWhole_eq_ok (hsplit ▸ hread) ha, hvalues⟩

/-! ## Written settings -/

theorem Field.takes_valueIn (settings : Settings) (field : Field) :
    field.Takes (field.valueIn settings) := by
  cases field with
  | excludeDir =>
      rw [valueIn]
      cases settings.excludeDir with
      | none => exact .inl rfl
      | some name => exact .inr ⟨name, rfl⟩
  | _ => exact ⟨_, rfl⟩

/-- The members that are written for settings: every field comes with its value, or it is left out
because that is its default. -/
structure WrittenAs (settings : Settings) (members : Members) : Prop where
  toJson_eq : settings.toJson = .object members
  nodup : (members.map Prod.fst).Nodup
  fields : ∀ field : Field, members.get? field.name = some (field.valueIn settings) ∨
    members.get? field.name = none ∧ field.valueIn settings = field.valueIn default

theorem exists_writtenAs (settings : Settings) : ∃ members, WrittenAs settings members := by
  cases hexclude : settings.excludeDir with
  | none =>
      refine ⟨_, by rw [toJson, hexclude], by simp, fun field => ?_⟩
      cases field with
      | excludeDir => exact .inr ⟨rfl, by simp [Field.valueIn, hexclude, default]⟩
      | _ => exact .inl rfl
  | some name =>
      refine ⟨_, by rw [toJson, hexclude], by simp, fun field => ?_⟩
      cases field with
      | excludeDir => exact .inl (by simp [Field.valueIn, hexclude, Field.name, Members.get?])
      | _ => exact .inl rfl

theorem WrittenAs.isSettings (h : WrittenAs settings members) : IsSettings members where
  once field := List.nodup_iff_count.mp h.nodup field.name
  typed field value hv := by
    rcases h.fields field with hfield | ⟨hfield, -⟩
    · obtain rfl := Option.some.inj (hfield.symm.trans hv)
      exact field.takes_valueIn settings
    · cases hfield.symm.trans hv

theorem WrittenAs.givenIn (h : WrittenAs settings members) (field : Field) :
    field.givenIn members = field.valueIn settings := by
  rcases h.fields field with hfield | ⟨hfield, hdefault⟩
  · rw [Field.givenIn, hfield, Option.getD_some]
  · rw [Field.givenIn, hfield, Option.getD_none, hdefault]

theorem writable_strings (depth : Nat) (texts : List String) :
    (Json.strings texts).Writable (depth + 1) := by
  rw [Json.strings, Writable, writableItems_iff]
  intro item hi
  obtain ⟨text, -, rfl⟩ := List.mem_map.mp hi
  exact (readable_string text).writable

theorem writable_toJson (settings : Settings) : settings.toJson.Writable 2 := by
  cases hexclude : settings.excludeDir <;>
    simp [toJson, hexclude, Writable, WritableMembers, writable_strings]

theorem parse_written (settings : Settings) : parse settings.toText = .ok settings := by
  obtain ⟨members, hmembers⟩ := exists_writtenAs settings
  have htext : IsTextOf settings.toText.toList (.object members) :=
    hmembers.toJson_eq ▸ isTextOf_pretty (writable_toJson settings)
  obtain ⟨after, hparse, hvalues⟩ := exists_parse_eq_ok hmembers.isSettings htext
  obtain rfl : after = settings := eq_of_valueIn fun field =>
    (hvalues field).trans (hmembers.givenIn field)
  exact hparse

/-- What is written for settings is read as the settings, and an object that sets some of the
fields is read as the defaults with these fields replaced. -/
theorem parse_toText_and_given :
    (∀ settings : Settings, parse settings.toText = .ok settings) ∧
      ∀ (text : String) (members : Members), IsTextOf text.toList (.object members) →
        IsSettings members → ∃ settings, parse text = .ok settings ∧
          ∀ field : Field, field.valueIn settings = field.givenIn members :=
  ⟨parse_written, fun _ _ htext h => exists_parse_eq_ok h htext⟩

/-- A field that nobody knows, a field that is null and one more, out of their order and with
blanks. -/
theorem parse_toText_and_given_mixed :
    parse "\x7b \"later\":[\x7b\x7d],\"ignores\" : [\"a\\/b\"] ,\"excludeDir\":null\x7d" =
      .ok { default with ignores := ["a/b"] } := by
  have hplain : ∀ name : String, name.toList.flatMap writeChar = name.toList →
      Spells name.toList name.toList := by
    intro name h
    simpa only [h] using spells_flatMap name.toList
  have hgap : IsGaps [' '] := by simp [IsGaps, isGap]
  have hlater : Denotes ['[', '\x7b', '\x7d', ']'] (.value (.array [.object []])) :=
    .array (.lastItem isGaps_nil (.emptyObject isGaps_nil) isGaps_nil)
  have hpath : Spells ['a', '\\', '/', 'b'] ['a', '/', 'b'] :=
    .plain (by decide) (by decide) (by decide)
      (.escape (by decide) (.plain (by decide) (by decide) (by decide) .nil))
  have hignores : Denotes ['[', '"', 'a', '\\', '/', 'b', '"', ']'] (.value (.strings ["a/b"])) :=
    .array (.lastItem isGaps_nil (.string hpath) isGaps_nil)
  have hmembers := Denotes.member hgap (hplain "later" (by decide)) (.mk isGaps_nil isGaps_nil)
    hlater isGaps_nil
    (.member isGaps_nil (hplain "ignores" (by decide)) (.mk hgap hgap) hignores hgap
      (.lastMember isGaps_nil (hplain "excludeDir" (by decide)) (.mk isGaps_nil isGaps_nil) .null
        isGaps_nil))
  simp only [String.ofList_toList] at hmembers
  have hsettings : IsSettings [("later", .array [.object []]), ("ignores", .strings ["a/b"]),
      ("excludeDir", .null)] := by
    refine ⟨fun field => ?_, fun field value hv => ?_⟩
    · cases field <;> decide
    · cases field with
      | excludeDir => exact .inl (Option.some.inj hv).symm
      | ignores => exact ⟨["a/b"], (Option.some.inj hv).symm⟩
      | _ => cases hv
  have htext := hmembers.object
  obtain ⟨settings, hparse, hvalues⟩ := parse_toText_and_given.2
    "\x7b \"later\":[\x7b\x7d],\"ignores\" : [\"a\\/b\"] ,\"excludeDir\":null\x7d" _
    ⟨[], _, [], by decide, isGaps_nil, htext, isGaps_nil⟩ hsettings
  have hsame : settings = { default with ignores := ["a/b"] } :=
    eq_of_valueIn fun field => (hvalues field).trans (by cases field <;> rfl)
  rw [hparse, hsame]

end LocaleTidy.Settings
