import LocaleTidy.Proofs.Catalog.Erasing
import LocaleTidy.Proofs.Json.RoundTrip

/-!
# Catalogs are read again

A catalog that was read can be written, and so can what erasing keys leaves of it. It is read
again as it was unless an object now begins with the name that marks a number.
-/

namespace LocaleTidy.Catalog

open Json (Readable Writable WritableMembers)

theorem parse_eq_ok {text : String} {catalog : Catalog} :
    parse text = .ok catalog ↔ Json.parse text = .ok catalog.toJson := by
  unfold parse
  cases Json.parse text with
  | error fault => simp
  | ok value =>
      cases value with
      | object members =>
          simp only [Except.ok.injEq, toJson, Json.object.injEq]
          exact ⟨fun h => h ▸ rfl, fun h => h ▸ rfl⟩
      | _ => simp [toJson]

theorem readable_of_parse {text : String} {catalog : Catalog} (h : parse text = .ok catalog) :
    Readable Json.maxDepth catalog.toJson :=
  Json.parse_readable (parse_eq_ok.mp h)

theorem parse_toText {catalog : Catalog} (h : Readable Json.maxDepth catalog.toJson) :
    parse catalog.toText = .ok catalog := by
  have htext : catalog.toText = String.ofList (Json.prettyChars 0 catalog.toJson ++ ['\n']) := by
    rw [toText, Json.pretty, String.ofList_append]
  rw [parse_eq_ok, htext]
  exact Json.parse_pretty h (Json.isGaps_newLine 0)

/-! ## What erasing leaves can be written -/

mutual

theorem writable_dropValue (gone : List String → Bool) : ∀ (value : Json) (depth : Nat),
    value.Writable depth → (dropValue gone value).Writable depth
  | .object _, 0, h => h.elim
  | .object members, depth + 1, h => writableMembers_dropMembers gone members depth h
  | .null, _, h | .bool _, _, h | .number _, _, h | .string _, _, h | .array _, _, h => h

theorem writableMembers_dropMembers (gone : List String → Bool) :
    ∀ (members : List (String × Json)) (depth : Nat), WritableMembers depth members →
      WritableMembers depth (dropMembers gone members)
  | [], _, _ => trivial
  | (name, value) :: members, depth, h => by
      have hrest := writableMembers_dropMembers gone members depth h.2
      by_cases hg : gone [name]
      · simpa [dropMembers, hg] using hrest
      · simp only [dropMembers, hg]
        exact ⟨writable_dropValue _ value depth h.1, hrest⟩

end

mutual

theorem writable_pruneValue : ∀ (value : Json) (depth : Nat),
    value.Writable depth → (pruneValue value).Writable depth
  | .object _, 0, h => h.elim
  | .object members, depth + 1, h => writableMembers_pruneMembers members depth h
  | .null, _, h | .bool _, _, h | .number _, _, h | .string _, _, h | .array _, _, h => h

theorem writableMembers_pruneMembers : ∀ (members : List (String × Json)) (depth : Nat),
    WritableMembers depth members → WritableMembers depth (pruneMembers members)
  | [], _, _ => trivial
  | (name, value) :: members, depth, h => by
      have hrest := writableMembers_pruneMembers members depth h.2
      by_cases hempty : pruneValue value = .object []
      · rwa [pruneMembers_cons_of_empty hempty]
      · rw [pruneMembers_cons_of_ne hempty]
        exact ⟨writable_pruneValue value depth h.1, hrest⟩

end

theorem writable_eraseAll (keys : List String) {catalog : Catalog} {depth : Nat}
    (hu : catalog.toJson.UniqueNames) (hw : catalog.toJson.Writable depth) :
    (catalog.eraseAll keys).2.toJson.Writable depth := by
  rw [eraseAll_snd keys hu]
  exact writable_pruneValue _ _ (writable_dropValue (isNamed keys) _ _ hw)

theorem readable_eraseAll (keys : List String) {catalog : Catalog}
    (h : Readable Json.maxDepth catalog.toJson)
    (ht : (catalog.eraseAll keys).2.toJson.Untagged) :
    Readable Json.maxDepth (catalog.eraseAll keys).2.toJson where
  unique := uniqueNames_eraseAll keys h.unique
  writable := writable_eraseAll keys h.unique h.writable
  untagged := ht

end LocaleTidy.Catalog
