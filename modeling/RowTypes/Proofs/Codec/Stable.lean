import RowTypes.Proofs.Codec.RoundTrip
import RowTypes.Proofs.Json.Guarded
import RowTypes.Proofs.Wire.Depth

/-!
# Reading again what was read once

Many texts are read as one type, and only two of them are written for it.
Those are nested no deeper than any other text of the type: the guard
bounds the JSON value that is read from a text, and the value bounds what
is written for the type. So nothing that was read is refused when it is
written and read again.
-/

namespace RowTypes

namespace Codec

/-- A text is read if the guard lets it through, it is JSON of a type,
and that type is within the limit on depth. -/
theorem decode_eq_ok_iff {s : String} {o : Options} {t : Ty} :
    decode s o = .ok t ↔ Json.textExceeds o.nestingLimit s.toList = false ∧
      ∃ j, Json.parse s.toList = .ok j ∧ Ty.ofJson? j = some t ∧
        t.depth ≤ o.maxDepth.toNat := by
  rw [decode_eq]
  cases Json.textExceeds o.nestingLimit s.toList with
  | true => simp
  | false =>
      cases hparse : Json.parse s.toList with
      | error e => simp
      | ok j => simp [accept_eq_ok_iff]

/-- A type that was read from any text is written with the same options
and read back as that type. What is written stays within every limit on
nesting that the text stays within. -/
theorem decode_stable {s : String} {o : Options} {t : Ty} (h : decode s o = .ok t) :
    ∃ s', encode t o = .ok s' ∧ decode s' o = .ok t ∧
      ∀ limit, Json.textExceeds limit s.toList = false →
        Json.textExceeds limit s'.toList = false := by
  obtain ⟨hguard, j, hparse, hread, hdepth⟩ := decode_eq_ok_iff.mp h
  have hnested : ∀ limit, Json.textExceeds limit s.toList = false →
      t.toJson.depth ≤ limit := fun limit hlimit =>
    Nat.le_trans (Ty.depth_le_of_ofJson? hread) (Json.depth_le_of_parse hlimit hparse)
  refine ⟨text o t, encode_of_le hdepth, ?_, fun limit hlimit => ?_⟩
  · rw [decode_text hdepth, if_pos (hnested _ hguard)]
  · rw [textExceeds_text]
    exact decide_eq_false (Nat.not_lt_of_le (hnested limit hlimit))

/-- A text of a type as nothing writes it: an object in the form of an
array, contents in front of their tag, a key that says nothing, a tag in
the form of an object, blanks and an escape. -/
def looseText : String :=
  "[\"TypeApp\", [\x7b\"contents\": \"f\", \"tag\": \x7b\"TypeVar\": null\x7d, \"x\": []\x7d, " ++
    "[\"TypeVar\", \"\\u0061\"]]]"

theorem decode_stable_looseText :
    decode looseText ⟨2, false⟩ = .ok (.app (.var "f") (.var "a")) ∧
      ∃ s', encode (.app (.var "f") (.var "a")) ⟨2, false⟩ = .ok s' ∧
        decode s' ⟨2, false⟩ = .ok (.app (.var "f") (.var "a")) ∧
        ∀ limit, Json.textExceeds limit looseText.toList = false →
          Json.textExceeds limit s'.toList = false := by
  have hguard : Json.textExceeds 10 looseText.toList = false := by decide
  have hparse : Json.parse looseText.toList = .ok (.arr [.str "TypeApp", .arr [
      .obj [("contents", .str "f"), ("tag", .obj [("TypeVar", .null)]), ("x", .arr [])],
      .arr [.str "TypeVar", .str "a"]]]) := by rfl
  have hdepth : (Ty.app (.var "f") (.var "a")).depth ≤ 2 := by simp [Ty.depth_eq, Ty.children]
  have hread : decode looseText ⟨2, false⟩ = .ok (.app (.var "f") (.var "a")) :=
    decode_eq_ok_iff.mpr ⟨hguard, _, hparse, by rfl, hdepth⟩
  exact ⟨hread, decode_stable hread⟩

end Codec

end RowTypes
