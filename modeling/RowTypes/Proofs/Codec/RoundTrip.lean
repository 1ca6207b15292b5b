import RowTypes.Proofs.Codec.Checks
import RowTypes.Proofs.Json.Nesting
import RowTypes.Proofs.Json.ReadBack
import RowTypes.Proofs.Traversal.Descent
import RowTypes.Proofs.Wire.ReadBack

/-!
# Round trips

A text that is written for a type is that of its JSON value, which is
read back; so is a value made of a type. Between the two stands the
guard against nesting alone, which compares the nesting of the JSON with
the depth of the type. A kind is nested in JSON but is no level of the
type, so that a type may be written and not read back.
-/

namespace RowTypes

namespace Codec

/-! ## Writing -/

/-- The text of a type, in either layout. -/
def text (o : Options) (t : Ty) : String :=
  if o.pretty then t.toJson.pretty else t.toJson.compact

theorem encode_of_le {o : Options} {t : Ty} (h : t.depth ≤ o.maxDepth.toNat) :
    encode t o = .ok (text o t) := by
  rw [encode, checkDepth_of_le h]
  rfl

theorem of_encode_eq_ok {o : Options} {t : Ty} {s : String} (h : encode t o = .ok s) :
    t.depth ≤ o.maxDepth.toNat ∧ s = text o t := by
  rw [encode] at h
  cases hcheck : checkDepth o t with
  | error e =>
      rw [hcheck] at h
      cases h
  | ok u =>
      rw [hcheck] at h
      cases h
      exact ⟨depth_le_of_checkDepth hcheck, rfl⟩

theorem toValue_of_le {t : Ty} (h : t.depth ≤ 2048) :
    toValue t = .ok t.toJson.canonical := by
  rw [toValue, checkDepth_of_le (o := {}) h]
  rfl

theorem of_toValue_eq_ok {t : Ty} {v : Json} (h : toValue t = .ok v) :
    t.depth ≤ 2048 ∧ v = t.toJson.canonical := by
  rw [toValue] at h
  cases hcheck : checkDepth {} t with
  | error e =>
      rw [hcheck] at h
      cases h
  | ok u =>
      rw [hcheck] at h
      cases h
      exact ⟨depth_le_of_checkDepth hcheck, rfl⟩

theorem exists_toList_text (o : Options) (t : Ty) :
    ∃ L : Json.Layout, (text o t).toList = Json.renderIn L 0 t.toJson [] := by
  cases hpretty : o.pretty with
  | true =>
      refine ⟨.pretty, ?_⟩
      rw [text, hpretty, if_pos rfl, Json.pretty, String.toList_ofList, Json.renderPretty_eq]
  | false =>
      refine ⟨.compact, ?_⟩
      rw [text, hpretty, if_neg Bool.false_ne_true, Json.compact, String.toList_ofList,
        Json.render_eq 0]

theorem parse_text (o : Options) (t : Ty) : Json.parse (text o t).toList = .ok t.toJson := by
  obtain ⟨L, hL⟩ := exists_toList_text o t
  rw [hL, Json.parse_renderIn L (Json.inRange_of_all t.all_toJson)]

/-! ## Guards -/

theorem textExceeds_text (limit : Nat) (o : Options) (t : Ty) :
    Json.textExceeds limit (text o t).toList = decide (limit < t.toJson.depth) := by
  obtain ⟨L, hL⟩ := exists_toList_text o t
  rw [hL, Json.textExceeds_renderIn]

theorem exceeds_canonical (limit : Nat) (t : Ty) :
    t.toJson.canonical.exceeds limit = decide (limit < t.toJson.depth) := by
  rw [Json.exceeds_eq, Json.depth_canonical _ (Json.hasDistinctKeys_of_all t.all_toJson)]

/-! ## Reading -/

/-- The text of a type is read back as that type, unless it is nested
too deeply. -/
theorem decode_text {o : Options} {t : Ty} (h : t.depth ≤ o.maxDepth.toNat) (o' : Options) :
    decode (text o' t) o =
      if t.toJson.depth ≤ o.nestingLimit then .ok t
      else .error (.depthExceeded o.beyond o.maxDepth) := by
  have hread : accept o t.toJson = .ok t := accept_eq_ok_iff.mpr ⟨Ty.ofJson?_toJson false t, h⟩
  -- the guard alone decides: everything after it succeeds
  rw [decode_eq, textExceeds_text, parse_text]
  simp only [hread, decide_eq_true_eq, ← Nat.not_le, ite_not]

/-- A value made of a type is read back as that type, unless it is
nested too deeply. -/
theorem fromValue_canonical {t : Ty} (h : t.depth ≤ 2048) :
    fromValue t.toJson.canonical =
      if t.toJson.depth ≤ 10240 then .ok t else .error (.depthExceeded 2049 2048) := by
  have hread : accept {} t.toJson.canonical = .ok t :=
    accept_eq_ok_iff.mpr ⟨Ty.ofJson?_toJson true t, h⟩
  have hlimit : ({} : Options).nestingLimit = 10240 := rfl
  rw [fromValue_eq, Json.canonical_canonical, exceeds_canonical, hread, hlimit]
  simp only [decide_eq_true_eq, ← Nat.not_le, ite_not]

/-! ## Round trips -/

/-- A type within the limit on depth is written, in any layout, and read
back with the same limit: it is that type again if its JSON is nested in
at most five levels for each level allowed, and is refused as too deep
if not. -/
theorem decode_encode (t : Ty) (m : UInt64) (p q : Bool) (h : t.depth ≤ m.toNat) :
    ∃ s, encode t ⟨m, p⟩ = .ok s ∧ Json.parse s.toList = .ok t.toJson ∧
      decode s ⟨m, q⟩ =
        if t.toJson.depth ≤ min (5 * m.toNat) (2 ^ 64 - 1) then .ok t
        else .error (.depthExceeded (min (m.toNat + 1) (2 ^ 64 - 1)) m) := by
  have hwritten : encode t ⟨m, p⟩ = .ok (text ⟨m, p⟩ t) := encode_of_le h
  have hread := decode_text (o := ⟨m, q⟩) h ⟨m, p⟩
  exact ⟨_, hwritten, parse_text ⟨m, p⟩ t, hread⟩

theorem decode_encode_function :
    (Ty.function (.var "a") (.var "b")).depth ≤ (3 : UInt64).toNat ∧
      ∃ s, encode (.function (.var "a") (.var "b")) ⟨3, true⟩ = .ok s ∧
        decode s ⟨3, false⟩ = .ok (.function (.var "a") (.var "b")) := by
  have hdepth : (Ty.function (.var "a") (.var "b")).depth ≤ (3 : UInt64).toNat := by
    simp [Ty.function, Ty.depth_eq, Ty.children]
  obtain ⟨s, hwritten, -, hread⟩ := decode_encode _ 3 true false hdepth
  exact ⟨hdepth, s, hwritten, hread⟩

/-- What is written for a type is read back as that type exactly if its
JSON is nested in at most five levels for each level of depth allowed,
and so is a value made of a type. -/
theorem decode_encode_iff (t : Ty) :
    (∀ (o : Options) (s : String), encode t o = .ok s →
      (decode s o = .ok t ↔ t.toJson.depth ≤ min (5 * o.maxDepth.toNat) (2 ^ 64 - 1))) ∧
    ∀ v : Json, toValue t = .ok v → (fromValue v = .ok t ↔ t.toJson.depth ≤ 10240) := by
  have hif : ∀ {limit depth : Nat} {max : UInt64},
      (if t.toJson.depth ≤ limit then Except.ok t
        else .error (Error.depthExceeded depth max)) = .ok t ↔ t.toJson.depth ≤ limit := by
    intro limit depth max
    split
    · next hle => exact ⟨fun _ => hle, fun _ => rfl⟩
    · next hdeep => exact ⟨fun heq => (by cases heq), fun hle => absurd hle hdeep⟩
  refine ⟨fun o s hwritten => ?_, fun v hwritten => ?_⟩
  · obtain ⟨hdepth, rfl⟩ := of_encode_eq_ok hwritten
    rw [decode_text hdepth]
    exact hif
  · obtain ⟨hdepth, rfl⟩ := of_toValue_eq_ok hwritten
    rw [fromValue_canonical hdepth]
    exact hif

/-- Each row of a kind is one more level of JSON. -/
theorem depth_toJson_rows (n : Nat) :
    (Nat.repeat Kind.row n .star).toJson.depth = n + 1 := by
  induction n with
  | zero => rfl
  | succ n ih => rw [Nat.repeat, Kind.toJson, Json.depth_tagged, ih]

/-- With two levels of a type allowed, there is room for seven rows in its
kind and not for eight; in a value, for as many as leave three levels to
the type. -/
theorem decode_encode_iff_rows :
    let rows (n : Nat) : Ty := .kinded (.var "a") (Nat.repeat .row n .star)
    (∃ s, encode (rows 7) ⟨2, true⟩ = .ok s ∧ decode s ⟨2, true⟩ = .ok (rows 7)) ∧
      (∃ s, encode (rows 8) ⟨2, true⟩ = .ok s ∧ decode s ⟨2, true⟩ ≠ .ok (rows 8)) ∧
      (∃ v, toValue (rows 10237) = .ok v ∧ fromValue v = .ok (rows 10237)) ∧
      ∃ v, toValue (rows 10238) = .ok v ∧ fromValue v ≠ .ok (rows 10238) := by
  intro rows
  have hdepth : ∀ n, (rows n).depth = 2 := fun n => by simp [rows, Ty.depth_eq, Ty.children]
  have hnested : ∀ n, (rows n).toJson.depth = n + 3 := fun n => by
    simp [rows, Ty.toJson, Json.depth_tagged, Json.depth, Json.depthItems, depth_toJson_rows]
  have hwritten : ∀ n, encode (rows n) ⟨2, true⟩ = .ok (text ⟨2, true⟩ (rows n)) := fun n =>
    encode_of_le (Nat.le_of_eq (hdepth n))
  have hvalue : ∀ n, toValue (rows n) = .ok (rows n).toJson.canonical := fun n =>
    toValue_of_le (by rw [hdepth]; decide)
  have htext : ∀ n, decode (text ⟨2, true⟩ (rows n)) ⟨2, true⟩ = .ok (rows n) ↔ n + 3 ≤ 10 :=
    fun n => hnested n ▸ (decode_encode_iff (rows n)).1 ⟨2, true⟩ _ (hwritten n)
  have hfrom : ∀ n, fromValue (rows n).toJson.canonical = .ok (rows n) ↔ n + 3 ≤ 10240 :=
    fun n => hnested n ▸ (decode_encode_iff (rows n)).2 _ (hvalue n)
  exact ⟨⟨_, hwritten 7, (htext 7).mpr (by decide)⟩, ⟨_, hwritten 8, mt (htext 8).mp (by decide)⟩,
    ⟨_, hvalue 10237, (hfrom 10237).mpr (by decide)⟩,
    ⟨_, hvalue 10238, mt (hfrom 10238).mp (by decide)⟩⟩

/-- A kind of eight rows is nested in nine levels of JSON and adds none
to the type that it annotates. -/
theorem decode_encode_rows : ∃ s,
    encode (.kinded (.var "a") (Nat.repeat .row 8 .star)) ⟨2, false⟩ = .ok s ∧
      decode s ⟨2, false⟩ = .error (.depthExceeded 3 2) := by
  have hdepth : (Ty.kinded (.var "a") (Nat.repeat .row 8 .star)).depth ≤ (2 : UInt64).toNat := by
    simp [Ty.depth_eq, Ty.children]
  have hwritten := encode_of_le (o := ⟨2, false⟩) hdepth
  have hread := decode_text (o := ⟨2, false⟩) hdepth ⟨2, false⟩
  have hnested : (Ty.kinded (.var "a") (Nat.repeat .row 8 .star)).toJson.depth = 11 := by decide
  rw [hnested] at hread
  exact ⟨_, hwritten, hread⟩

end Codec

end RowTypes
