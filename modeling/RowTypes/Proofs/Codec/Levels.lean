import RowTypes.Proofs.Codec.RoundTrip
import RowTypes.Proofs.Json.Layout
import RowTypes.Proofs.Wire.Depth

/-!
# Levels that are enough

`levelsPerType` levels of JSON for each level of a type are enough for
types whose kinds are shallow: neither guard refuses what is written for
such a type as long as the type is within the limit on depth. Where five
times that limit is no machine word, the limit on nesting is the greatest
one; a text is longer than it is deep, so that no text with a machine
word as its length is nested deeper than that (`depth_toJson_lt_length`).
-/

namespace RowTypes

namespace Codec

theorem depth_toJson_lt_length (o : Options) (t : Ty) :
    t.toJson.depth < (text o t).length := by
  obtain ⟨L, hL⟩ := exists_toList_text o t
  rw [← String.length_toList, hL]
  exact Json.depth_lt_length L 0 t.toJson []

/-- If no kind is nested in more than eight levels of JSON, a type is
nested in at most five for each level of its own, in either layout. So
within the limit on depth it passes both guards and is read back. Only
where the limit on nesting has to be cut to a machine word does the text
have to be one whose length is a machine word, as all texts are that can
be stored. -/
theorem passes_guards_of_shallow_kinds {t : Ty} (h : ∀ k ∈ t.kinds, k.toJson.depth ≤ 8) :
    (Json.textExceeds (5 * t.depth) t.toJson.compact.toList = false ∧
      Json.textExceeds (5 * t.depth) t.toJson.pretty.toList = false) ∧
    (∀ o o' : Options, t.depth ≤ o.maxDepth.toNat → t.depth ≤ o'.maxDepth.toNat →
      ∃ s, encode t o' = .ok s ∧
        (5 * o.maxDepth.toNat < 2 ^ 64 ∨ s.length < 2 ^ 64 →
          Json.textExceeds o.nestingLimit s.toList = false ∧ decode s o = .ok t)) ∧
    (t.depth ≤ 2048 → ∃ v, toValue t = .ok v ∧
      v.exceeds ({} : Options).nestingLimit = false ∧ fromValue v = .ok t) := by
  have hlevels : t.toJson.depth ≤ 5 * t.depth := Ty.depth_toJson_le h
  have hpass : ∀ {limit : Nat} (o : Options), t.toJson.depth ≤ limit →
      Json.textExceeds limit (text o t).toList = false := by
    intro limit o hlimit
    rw [textExceeds_text]
    exact decide_eq_false (Nat.not_lt_of_le hlimit)
  refine ⟨⟨hpass ⟨0, false⟩ hlevels, hpass ⟨0, true⟩ hlevels⟩, ?_, ?_⟩
  · intro o o' hdepth hdepth'
    refine ⟨text o' t, encode_of_le hdepth', fun hword => ?_⟩
    have hlength := depth_toJson_lt_length o' t
    have hlimit : t.toJson.depth ≤ o.nestingLimit := by
      have hmax : maxWord = 2 ^ 64 - 1 := rfl
      rw [Options.nestingLimit, levelsPerType, hmax]
      omega
    refine ⟨hpass o' hlimit, ?_⟩
    rw [decode_text hdepth, if_pos hlimit]
  · intro hdepth
    have hlimit : t.toJson.depth ≤ 10240 := by omega
    refine ⟨t.toJson.canonical, toValue_of_le hdepth, ?_, ?_⟩
    · rw [exceeds_canonical]
      exact decide_eq_false (Nat.not_lt_of_le hlimit)
    · rw [fromValue_canonical hdepth, if_pos hlimit]

/-- Seven rows are as many as two levels of a type have room for. -/
theorem passes_guards_of_shallow_kinds_rows :
    (∀ k ∈ (Ty.kinded (.var "a") (Nat.repeat .row 7 .star)).kinds, k.toJson.depth ≤ 8) ∧
      (∃ s, encode (.kinded (.var "a") (Nat.repeat .row 7 .star)) ⟨2, true⟩ = .ok s ∧
        Json.textExceeds 10 s.toList = false ∧
        decode s ⟨2, false⟩ = .ok (.kinded (.var "a") (Nat.repeat .row 7 .star))) ∧
      ∃ v, toValue (.kinded (.var "a") (Nat.repeat .row 7 .star)) = .ok v ∧
        v.exceeds 10240 = false ∧
        fromValue v = .ok (.kinded (.var "a") (Nat.repeat .row 7 .star)) := by
  have hkinds : ∀ k ∈ (Ty.kinded (.var "a") (Nat.repeat .row 7 .star)).kinds,
      k.toJson.depth ≤ 8 := by decide
  have hdepth : (Ty.kinded (.var "a") (Nat.repeat .row 7 .star)).depth ≤ 2 := by
    simp [Ty.depth_eq, Ty.children]
  obtain ⟨-, htext, hvalue⟩ := passes_guards_of_shallow_kinds hkinds
  obtain ⟨s, hwritten, hread⟩ := htext ⟨2, false⟩ ⟨2, true⟩ hdepth hdepth
  exact ⟨hkinds, ⟨s, hwritten, hread (.inl (by decide))⟩,
    hvalue (Nat.le_trans hdepth (by decide))⟩

end Codec

end RowTypes
