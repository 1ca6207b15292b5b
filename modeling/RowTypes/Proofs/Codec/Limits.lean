import RowTypes.Proofs.Codec.Stable

/-!
# Greater limits

What is read within a limit is read within every greater one, and what is
malformed stays malformed (`decode_iff_of_le`). Both checks that depend on
the limit, one before the text is parsed and one after, refuse less under
a greater limit: the limit on nesting grows with that on depth also where
it is cut to a machine word (`nestingLimit_le`), and the scan of a text,
JSON or not, stays within every greater limit (`Json.textExceeds_of_le`).
-/

namespace RowTypes

namespace Codec

theorem nestingLimit_le {o o' : Options} (h : o.maxDepth ≤ o'.maxDepth) :
    o.nestingLimit ≤ o'.nestingLimit := by
  have hdepth := UInt64.le_iff_toNat_le.mp h
  rw [Options.nestingLimit, Options.nestingLimit, levelsPerType]
  omega

/-- A text is malformed if the guard lets it through and it is no JSON, or
JSON of no type. -/
theorem decode_eq_malformed_iff {s : String} {o : Options} :
    decode s o = .error .malformed ↔ Json.textExceeds o.nestingLimit s.toList = false ∧
      ∀ j, Json.parse s.toList = .ok j → Ty.ofJson? j = none := by
  rw [decode_eq]
  cases Json.textExceeds o.nestingLimit s.toList with
  | true => simp
  | false =>
      cases hparse : Json.parse s.toList with
      | error e => simp
      | ok j => simp [accept_eq_malformed_iff]

/-- A text is read as a type under a limit exactly if it is read as that
type under a greater one and both the type and the nesting of the text are
within the smaller. It is malformed under a limit exactly if it is under a
greater one and its nesting is within the smaller. -/
theorem decode_iff_of_le {m m' : UInt64} (h : m ≤ m') (p p' : Bool) (s : String) :
    (∀ t, decode s ⟨m, p⟩ = .ok t ↔ decode s ⟨m', p'⟩ = .ok t ∧ t.depth ≤ m.toNat ∧
      Json.textExceeds (min (5 * m.toNat) (2 ^ 64 - 1)) s.toList = false) ∧
    (decode s ⟨m, p⟩ = .error .malformed ↔ decode s ⟨m', p'⟩ = .error .malformed ∧
      Json.textExceeds (min (5 * m.toNat) (2 ^ 64 - 1)) s.toList = false) := by
  have hdepth := UInt64.le_iff_toNat_le.mp h
  have hguard : Json.textExceeds (Options.nestingLimit ⟨m, p⟩) s.toList = false →
      Json.textExceeds (Options.nestingLimit ⟨m', p'⟩) s.toList = false :=
    Json.textExceeds_of_le (nestingLimit_le h)
  -- what is made of the text between the two checks knows nothing of the limit
  refine ⟨fun t => ?_, ?_⟩
  · rw [decode_eq_ok_iff, decode_eq_ok_iff]
    constructor
    · rintro ⟨hpass, j, hparse, hread, hle⟩
      exact ⟨⟨hguard hpass, j, hparse, hread, Nat.le_trans hle hdepth⟩, hle, hpass⟩
    · rintro ⟨⟨-, j, hparse, hread, -⟩, hle, hpass⟩
      exact ⟨hpass, j, hparse, hread, hle⟩
  · rw [decode_eq_malformed_iff, decode_eq_malformed_iff]
    constructor
    · rintro ⟨hpass, hread⟩
      exact ⟨⟨hguard hpass, hread⟩, hpass⟩
    · rintro ⟨⟨-, hread⟩, hpass⟩
      exact ⟨hpass, hread⟩

/-- From a limit that has no room to spare for a type with seven rows in
its kind, to the greatest one, whose limit on nesting is cut to a machine
word. -/
theorem decode_iff_of_le_maxWord :
    (2 : UInt64) ≤ 18446744073709551615 ∧
      decode (text ⟨2, true⟩ (.kinded (.var "a") (Nat.repeat .row 7 .star)))
        ⟨18446744073709551615, true⟩ = .ok (.kinded (.var "a") (Nat.repeat .row 7 .star)) ∧
      decode Json.strayText ⟨18446744073709551615, true⟩ = .error .malformed := by
  have hle : (2 : UInt64) ≤ 18446744073709551615 := by decide
  have hdepth : (Ty.kinded (.var "a") (Nat.repeat .row 7 .star)).depth ≤ (2 : UInt64).toNat := by
    simp [Ty.depth_eq, Ty.children]
  have hnested : (Ty.kinded (.var "a") (Nat.repeat .row 7 .star)).toJson.depth ≤
      (⟨2, false⟩ : Options).nestingLimit := by decide
  have hread := decode_text (o := ⟨2, false⟩) hdepth ⟨2, true⟩
  rw [if_pos hnested] at hread
  have hstray : Json.textExceeds 10 Json.strayText.toList = false := by decide
  have hnone : Json.parse Json.strayText.toList = .error .malformed := by rfl
  have hmalformed : decode Json.strayText ⟨2, false⟩ = .error .malformed :=
    decode_eq_malformed_iff.mpr ⟨hstray, by simp [hnone]⟩
  exact ⟨hle, (((decode_iff_of_le hle false true _).1 _).mp hread).1,
    ((decode_iff_of_le hle false true _).2.mp hmalformed).1⟩

end Codec

end RowTypes
