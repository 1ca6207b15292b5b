import RowTypes.Proofs.Json.Canonical
import RowTypes.Proofs.Json.Numeral
import RowTypes.Wire.Decode
import RowTypes.Wire.Encode

/-!
# Objects in two arrangements

A value written for a type reaches the reader as it was written, or in
canonical form. `arrange` is either of the two. What the reader sees of
an object does not depend on which: it finds the fields of a record
(`record?_arrange`) and a tag with its contents (`exists_tagged?`). In
canonical form contents come before their tag, so that they are held.
-/

namespace RowTypes

namespace Json

/-! ## Written values are ordinary -/

theorem all_ofUInt32 (n : UInt32) : (ofUInt32 n).all ordinary := by
  have hlt : n.toNat < Nat.pow 2 53 := Nat.lt_trans n.toNat_lt (by decide)
  have hrange := Number.inRange_ofNat hlt
  show ((Number.ofNat n.toNat).inRange && true && true) = true
  rw [hrange]
  rfl

theorem all_ofOption {α : Type} {f : α → Json} (h : ∀ a, (f a).all ordinary) (o : Option α) :
    (ofOption f o).all ordinary := by
  cases o with
  | none => rfl
  | some a => exact h a

theorem all_arr (items : List Json) :
    (Json.arr items).all ordinary = allItems ordinary items := by
  rw [all]
  rfl

theorem all_obj {fields : List (String × Json)} (hkeys : (fields.map Prod.fst).Nodup) :
    (Json.obj fields).all ordinary = allFields ordinary fields := by
  rw [all, ordinary, hasDistinctKeys, decide_eq_true hkeys]
  rfl

theorem all_tagged (tag : String) (contents : Json) :
    (tagged tag contents).all ordinary = contents.all ordinary := by
  rw [tagged, all_obj (by simp), allFields, allFields, allFields, Bool.and_true]
  rfl

theorem all_bare (tag : String) : (bare tag).all ordinary := by
  rw [bare, all_obj (by simp)]
  rfl

theorem readable_of_all {j : Json} (h : j.all ordinary) : j.all isReadable :=
  all_mono (fun j hj => by simp_all [ordinary]) j h

theorem inRange_of_all {j : Json} (h : j.all ordinary) : j.all inRange :=
  all_mono (fun j hj => by simp_all [ordinary]) j h

theorem hasDistinctKeys_of_all {j : Json} (h : j.all ordinary) : j.all hasDistinctKeys :=
  all_mono (fun j hj => by simp_all [ordinary]) j h

theorem depth_tagged (tag : String) (contents : Json) :
    (tagged tag contents).depth = contents.depth + 1 := by
  simp only [tagged, depth, depthFields, Nat.max_zero, Nat.zero_max]

/-! ## Arrangements -/

/-- A value as it is, or in canonical form. -/
def arrange (sorted : Bool) (j : Json) : Json := if sorted then j.canonical else j

section

variable (sorted : Bool)

theorem arrange_null : arrange sorted .null = .null := by cases sorted <;> rfl

theorem arrange_str (s : String) : arrange sorted (.str s) = .str s := by cases sorted <;> rfl

theorem arrange_ofUInt32 (n : UInt32) : arrange sorted (ofUInt32 n) = ofUInt32 n := by
  cases sorted <;> rfl

theorem arrange_arr (items : List Json) :
    arrange sorted (.arr items) = .arr (items.map (arrange sorted)) := by
  have hitems : ∀ js : List Json, canonicalItems js = js.map canonical := by
    intro js
    induction js with
    | nil => rfl
    | cons j js ih => rw [canonicalItems, ih, List.map_cons]
  cases sorted with
  | false => exact congrArg Json.arr (List.map_id items).symm
  | true => exact congrArg Json.arr (hitems items)

theorem depth_arrange {j : Json} (h : j.all ordinary) : (arrange sorted j).depth = j.depth := by
  cases sorted with
  | false => rfl
  | true => exact depth_canonical j (hasDistinctKeys_of_all h)

theorem readable_arrange {j : Json} (h : j.all ordinary) : (arrange sorted j).readable := by
  rw [readable_eq]
  cases sorted with
  | false => exact readable_of_all h
  | true => exact readable_canonical j (readable_of_all h)

/-- The fields of a record. -/
theorem record?_arrange {fields : List (String × Json)} (h : (fields.map Prod.fst).Nodup)
    (keys : List String) :
    (arrange sorted (.obj fields)).record? keys =
      (keys.mapM (field? · fields)).map (·.map (Option.map (arrange sorted))) := by
  cases sorted with
  | false =>
      have hsame : (fun js : List (Option Json) => js.map (Option.map (arrange false))) = id := by
        funext js
        show js.map (Option.map id) = js
        rw [Option.map_id, List.map_id]
      rw [hsame, Option.map_id]
      rfl
  | true =>
      show keys.mapM (field? · (canonicalFields fields)) = _
      induction keys with
      | nil => rfl
      | cons k ks ih =>
          rw [List.mapM_cons, List.mapM_cons, ih, field?_canonical h]
          cases field? k fields with
          | none => rfl
          | some j =>
              cases ks.mapM (field? · fields) with
              | none => rfl
              | some js => rfl

/-! ## Tags -/

theorem tagged?_bare (held : Bool) (tag : String) :
    (arrange sorted (bare tag)).tagged? held = some ⟨.name tag, none, held⟩ := by
  cases sorted <;> cases held <;> rfl

/-- A tag and its contents, held or not. -/
theorem exists_tagged? (held : Bool) {tag : String} {contents : Json}
    (h : (tagged tag contents).all ordinary) : ∃ held',
      (arrange sorted (tagged tag contents)).tagged? held =
        some ⟨.name tag, some (arrange sorted contents), held'⟩ := by
  cases sorted with
  | false => exact ⟨held, by cases held <;> rfl⟩
  | true =>
      -- the contents come first and are held, for which they have to be readable
      have hfields : arrange true (tagged tag contents) =
          .obj [("contents", contents.canonical), ("tag", .str tag)] := by
        rfl
      have hreadable : contents.canonical.readable :=
        readable_arrange true (all_tagged tag contents ▸ h)
      refine ⟨true, ?_⟩
      rw [hfields]
      cases held with
      | true => rfl
      | false =>
          have hguard : guard ((some contents.canonical).all readable) = some () := by
            rw [Option.all_some, hreadable]
            rfl
          show (guard ((some contents.canonical).all readable) >>= fun _ =>
            some (⟨.name tag, some contents.canonical, true⟩ : Tagged)) = _
          rw [hguard]
          rfl

end

/-! ## Leaves -/

theorem toUInt32?_ofUInt32 (n : UInt32) : (ofUInt32 n).toUInt32? = some n := by
  have hlt : n.toNat < UInt32.size := n.toNat_lt
  simp only [ofUInt32, toUInt32?, Number.toNat?, Number.ofNat, and_self, if_true, if_pos hlt,
    UInt32.ofNat_toNat]

/-- What may be missing. -/
theorem optional?_ofOption (sorted : Bool) {α : Type} {f : α → Json} {g : Json → Option α}
    (hnull : g .null = none) (h : ∀ a, g (arrange sorted (f a)) = some a) (o : Option α) :
    optional? g (some (arrange sorted (ofOption f o))) = some o := by
  cases o with
  | none =>
      rw [ofOption, arrange_null]
      rfl
  | some a =>
      have ha := h a
      rw [ofOption, optional?, ha]
      · rfl
      · intro hnone
        rw [hnone, hnull] at ha
        cases ha

end Json

end RowTypes
