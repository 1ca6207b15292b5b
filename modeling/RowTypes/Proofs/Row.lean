import RowTypes.Row
import RowTypes.Ty.Tag

/-!
# Rows and lists of entries

Taking a type apart into entries and a tail loses nothing
(`ofRow_toRow`), and the tail is never an entry itself (`tag_toRow`).
Entries put in front of a row run together with the entries it has
(`toRow_ofRow`), so there is exactly one way to write a type as entries
in front of a tail that is no entry (`toRow_eq_iff`).
-/

namespace RowTypes

namespace Ty

theorem toRow_rowCons (l : Label) (head tail : Ty) :
    (rowCons l head tail).toRow = ((l, head) :: tail.toRow.1, tail.toRow.2) := rfl

theorem toRow_of_tag_ne {t : Ty} (h : t.tag ≠ .rowCons) : t.toRow = ([], t) := by
  cases t with
  | rowCons l head tail => exact absurd rfl h
  | _ => rfl

theorem ofRow_cons (l : Label) (head : Ty) (fields : List (Label × Ty)) (tail : Ty) :
    ofRow ((l, head) :: fields) tail = .rowCons l head (ofRow fields tail) := rfl

/-- What holds of every type that is no entry, and of an entry whenever it
holds of the rest of the row, holds of every type. -/
theorem induction_on_entries {P : Ty → Prop} (last : ∀ t, t.tag ≠ .rowCons → P t)
    (entry : ∀ l head tail, P tail → P (.rowCons l head tail)) (t : Ty) : P t := by
  induction t using induction_on_children with
  | step t ih =>
      cases t with
      | rowCons l head tail => exact entry l head tail (ih tail (by simp [children]))
      | _ => exact last _ (by simp [tag])

/-- The tail of a row is no entry. -/
theorem tag_toRow (t : Ty) : t.toRow.2.tag ≠ .rowCons := by
  induction t using induction_on_entries with
  | last t h => rwa [toRow_of_tag_ne h]
  | entry l head tail ih => exact ih

/-- The entries and the tail make up the type. -/
theorem ofRow_toRow (t : Ty) : ofRow t.toRow.1 t.toRow.2 = t := by
  induction t using induction_on_entries with
  | last t h => rw [toRow_of_tag_ne h]; rfl
  | entry l head tail ih => rw [toRow_rowCons, ofRow_cons, ih]

/-- Entries in front of a row come before those the row has, and its tail
stays. -/
theorem toRow_ofRow (fields : List (Label × Ty)) (tail : Ty) :
    (ofRow fields tail).toRow = (fields ++ tail.toRow.1, tail.toRow.2) := by
  induction fields with
  | nil => rfl
  | cons e fields ih => rw [ofRow_cons, toRow_rowCons, ih]; rfl

/-- A type is written in one way as entries in front of a tail that is no
entry. -/
theorem toRow_eq_iff {t last : Ty} {fields : List (Label × Ty)} :
    t.toRow = (fields, last) ↔ t = ofRow fields last ∧ last.tag ≠ .rowCons := by
  constructor
  · intro h
    have htype := ofRow_toRow t
    have htail := tag_toRow t
    rw [h] at htype htail
    exact ⟨htype.symm, htail⟩
  · rintro ⟨rfl, hlast⟩
    rw [toRow_ofRow, toRow_of_tag_ne hlast, List.append_nil]

/-- Taking a type apart and putting it together gives back the type,
whether it is a row or not, and leaves a tail that is no entry. Putting
entries in front of a tail and taking the row apart gives the entries, in
order and with all repetitions, followed by those of the tail; so it gives
back entries and tail exactly if the tail is no entry. -/
theorem row_conversions (t tail : Ty) (fields : List (Label × Ty)) :
    (ofRow t.toRow.1 t.toRow.2 = t ∧ t.toRow.2.tag ≠ .rowCons) ∧
      (ofRow fields tail).toRow = (fields ++ tail.toRow.1, tail.toRow.2) ∧
      ((ofRow fields tail).toRow = (fields, tail) ↔ tail.tag ≠ .rowCons) := by
  refine ⟨⟨ofRow_toRow t, tag_toRow t⟩, toRow_ofRow fields tail, ?_⟩
  rw [toRow_eq_iff]
  exact and_iff_right rfl

/-- A label may repeat, and a tail that is no row stays what it is. -/
example : (ofRow [("x", .wildcard), ("x", .var "a")] (.rowCons "y" .rowEmpty (.unknown 4))).toRow =
    ([("x", .wildcard), ("x", .var "a"), ("y", .rowEmpty)], .unknown 4) := rfl

end Ty

end RowTypes
