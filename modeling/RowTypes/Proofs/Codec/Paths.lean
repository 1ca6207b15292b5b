import RowTypes.Proofs.Codec.Checks
import RowTypes.Proofs.Json.Canonical
import RowTypes.Proofs.Json.Nesting
import RowTypes.Proofs.Json.ReadBack
import RowTypes.Proofs.Traversal.Descent

/-!
# Text and value

A type may be read from a text or from a value. Where the text is that
of the value the two ways come to the same end (`decode_canonical`): each
measures the depth of the value first, by a scan of the text or by a walk
through the value, then makes a type of the value and measures that.
-/

namespace RowTypes

namespace Codec

/-- What is made of a value: it may be nested too deeply, then it may not
be a type, and then the type may be too deep. -/
def verdict (o : Options) (j : Json) : Except Error Ty :=
  if o.nestingLimit < j.depth then .error (.depthExceeded o.beyond o.maxDepth) else accept o j

/-- A text that is written for a value is read like the value. -/
theorem decode_renderIn (L : Json.Layout) {j : Json} (h : j.all Json.inRange) (o : Options) :
    decode (String.ofList (Json.renderIn L 0 j [])) o = verdict o j := by
  rw [decode_eq, verdict, String.toList_ofList, Json.textExceeds_renderIn, Json.parse_renderIn L h]
  simp only [decide_eq_true_eq]

theorem fromValue_eq_verdict (j : Json) : fromValue j = verdict {} j.canonical := by
  have hbeyond : ({} : Options).beyond = 2049 := rfl
  rw [fromValue_eq, verdict, Json.exceeds_eq, hbeyond]
  simp only [decide_eq_true_eq]

/-- A value is a map from keys to values, so its texts have the keys in
ascending order. If its numbers are in range, its text, compact or
pretty, and the value itself are read as equal types or fail with equal
errors. Too deep a nesting comes before any other error, and the depth of
a type after all others. -/
theorem decode_canonical {j : Json} (h : j.all Json.inRange) :
    decode j.canonical.compact = fromValue j ∧ decode j.canonical.pretty = fromValue j ∧
      fromValue j = if 10240 < j.canonical.depth then .error (.depthExceeded 2049 2048)
        else match Ty.ofJson? j.canonical with
          | none => .error .malformed
          | some t => if 2048 < t.depth then .error (.depthExceeded t.depth 2048) else .ok t := by
  have hrange := Json.inRange_canonical j h
  have hcompact : decode j.canonical.compact = verdict {} j.canonical := by
    rw [Json.compact, Json.render_eq 0, decode_renderIn .compact hrange]
  have hpretty : decode j.canonical.pretty = verdict {} j.canonical := by
    rw [Json.pretty, Json.renderPretty_eq, decode_renderIn .pretty hrange]
  rw [hcompact, hpretty, fromValue_eq_verdict]
  exact ⟨rfl, rfl, rfl⟩

/-- An application whose tag stands in front of its contents. In
ascending order the contents come first, and may have a tag that is an
object with an empty object in it. -/
def heldValue : Json :=
  .obj [("tag", .str "TypeApp"), ("contents", .arr [
    .obj [("tag", .obj [("TypeVar", .obj [])]), ("contents", .str "f")],
    .arr [.str "TUnknown", .num (.ofNat 7)]])]

theorem decode_canonical_heldValue :
    heldValue.all Json.inRange ∧
      decode heldValue.canonical.compact = .ok (.app (.var "f") (.unknown 7)) ∧
      fromValue heldValue = .ok (.app (.var "f") (.unknown 7)) := by
  have hnumber : (Json.Number.ofNat 7).inRange := Json.Number.inRange_ofNat (by decide)
  have hrange : heldValue.all Json.inRange := by
    simp [heldValue, Json.all, Json.allItems, Json.allFields, Json.inRange, hnumber]
  have hread : Ty.ofJson? heldValue.canonical = some (.app (.var "f") (.unknown 7)) := by rfl
  have hdepth : (Ty.app (.var "f") (.unknown 7)).depth = 2 := by simp [Ty.depth_eq, Ty.children]
  have hnested : heldValue.canonical.depth = 5 := by decide
  obtain ⟨hcompact, -, hvalue⟩ := decode_canonical hrange
  simp only [hnested, hread, hdepth] at hvalue
  exact ⟨hrange, hcompact.trans hvalue, hvalue⟩

end Codec

end RowTypes
