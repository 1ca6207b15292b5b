import RowTypes.Codec

/-!
# The order of the checks

A text or value is first measured, then read, and the type that was read
is measured last; each check that fails decides the error. `decode_eq`
and `fromValue_eq` say so in one equation each, and what they have in
common is `accept`.
-/

namespace RowTypes

namespace Codec

/-! ## Depth -/

theorem checkDepth_of_le {o : Options} {t : Ty} (h : t.depth ≤ o.maxDepth.toNat) :
    checkDepth o t = .ok () := by
  rw [checkDepth, if_neg (Nat.not_lt_of_le h)]

theorem depth_le_of_checkDepth {o : Options} {t : Ty} {u : Unit} (h : checkDepth o t = .ok u) :
    t.depth ≤ o.maxDepth.toNat := by
  rw [checkDepth] at h
  split at h
  · cases h
  · next hle => exact Nat.le_of_not_lt hle

/-! ## Reading -/

/-- What is made of JSON that is not nested too deeply. -/
def accept (o : Options) (j : Json) : Except Error Ty :=
  match Ty.ofJson? j with
  | none => .error .malformed
  | some t =>
    if o.maxDepth.toNat < t.depth then .error (.depthExceeded t.depth o.maxDepth) else .ok t

theorem accept_eq (o : Options) (j : Json) :
    accept o j =
      match Ty.ofJson? j with
      | none => throw .malformed
      | some t => do
        checkDepth o t
        return t := by
  rw [accept]
  split
  · rfl
  · rw [checkDepth]
    split <;> rfl

theorem decode_eq (s : String) (o : Options) :
    decode s o =
      if Json.textExceeds o.nestingLimit s.toList then .error (.depthExceeded o.beyond o.maxDepth)
      else match Json.parse s.toList with
        | .error _ => .error .malformed
        | .ok j => accept o j := by
  rw [decode]
  split
  · rfl
  · simp only [accept_eq]
    rfl

theorem fromValue_eq (j : Json) :
    fromValue j =
      if j.canonical.exceeds ({} : Options).nestingLimit then .error (.depthExceeded 2049 2048)
      else accept {} j.canonical := by
  rw [fromValue]
  split
  · rfl
  · exact (accept_eq {} j.canonical).symm

theorem accept_eq_ok_iff {o : Options} {j : Json} {t : Ty} :
    accept o j = .ok t ↔ Ty.ofJson? j = some t ∧ t.depth ≤ o.maxDepth.toNat := by
  rw [accept]
  cases Ty.ofJson? j with
  | none => simp
  | some u =>
      simp only [Option.some.injEq]
      split
      · next hdeep =>
        refine ⟨fun h => (by cases h), ?_⟩
        rintro ⟨rfl, hle⟩
        exact absurd hdeep (Nat.not_lt_of_le hle)
      · next hle =>
        simp only [Except.ok.injEq]
        refine ⟨?_, And.left⟩
        rintro rfl
        exact ⟨rfl, Nat.le_of_not_lt hle⟩

theorem accept_eq_malformed_iff {o : Options} {j : Json} :
    accept o j = .error .malformed ↔ Ty.ofJson? j = none := by
  rw [accept]
  cases Ty.ofJson? j with
  | none => simp
  | some t =>
      simp only [reduceCtorEq, iff_false]
      split
      · rintro ⟨⟩
      · rintro ⟨⟩

end Codec

end RowTypes
