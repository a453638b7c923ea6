import LocaleTidy.Key
import LocaleTidy.Proofs.Text.Pieces

/-!
# Keys and their segments

A key is put together again from its segments, and segments without dots are found again in the
key that is put together from them.
-/

namespace LocaleTidy.Key

theorem ofSegments_segments (key : String) : ofSegments (segments key) = key :=
  Text.intercalate_split '.' key

theorem segments_injective {first second : String} (h : segments first = segments second) :
    first = second := by
  rw [← ofSegments_segments first, h, ofSegments_segments]

theorem segments_ofSegments {names : List String} (hne : names ≠ [])
    (h : ∀ name ∈ names, '.' ∉ name.toList) : segments (ofSegments names) = names :=
  Text.split_intercalate hne h

end LocaleTidy.Key
