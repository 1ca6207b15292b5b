import RowTypes.Proofs.Row
import RowTypes.Proofs.Subst.Termination

/-!
# Substitution in rows

Substitution goes through a row entry by entry and then into its tail
(`subst_ofRow`). It makes an entry of nothing but a variable
(`tag_subst`). So a row gets new entries only where its tail is a
variable that is replaced by a row, and those are the entries of the
replacement as they are (`toRow_subst`).
-/

namespace RowTypes

namespace Ty

variable (b : Bindings)

theorem subst_rowCons (l : Label) (head tail : Ty) :
    (rowCons l head tail).subst b = .rowCons l (head.subst b) (tail.subst b) := by
  rw [subst_plain rfl]
  rfl

/-- Substituting in entries in front of a tail is substituting in each of
them and in the tail. -/
theorem subst_ofRow (fields : List (Label × Ty)) (tail : Ty) :
    (ofRow fields tail).subst b =
      ofRow (fields.map fun (l, head) => (l, head.subst b)) (tail.subst b) := by
  induction fields with
  | nil => rfl
  | cons e fields ih => rw [ofRow_cons, subst_rowCons, ih]; rfl

/-! ## Tails -/

theorem tag_rebuild (t : Ty) (new : List Ty) : (t.rebuild new).tag = t.tag := by
  cases t with
  | constrained cs body => rfl
  | _ => rcases new with _ | ⟨_, _ | ⟨_, _⟩⟩ <;> rfl

/-- Every type but a variable keeps its form. -/
theorem tag_subst {t : Ty} (h : t.tag ≠ .var) : (t.subst b).tag = t.tag := by
  cases t using cases_plain with
  | var v => exact absurd rfl h
  | forAll v body scope =>
      rw [subst_eq_substUnder_succ, substUnder_forAll]
      split <;> rfl
  | display t hd => rw [subst, substUnder_display hd]
  | plain t hp => rw [subst_plain hp, tag_rebuild]

/-- What becomes of a tail: a variable is replaced by a row or another
type, and every other tail is a tail again. -/
theorem toRow_subst_tail (last : Ty) : last.tag ≠ .rowCons →
    (last.subst b).toRow =
      match last with
      | .var v => ((b.get? v).getD (.var v)).toRow
      | last => ([], last.subst b) := by
  intro h
  cases last with
  | var v => rw [subst_var]
  | _ => exact toRow_of_tag_ne (by rwa [tag_subst b (by simp [tag])])

/-- The entries of a row after substitution are those it had, in their
order and with their labels, with each head substituted in, followed by
the entries that come out of the tail. These are the entries of the
replacement if the tail is a variable that is replaced, and none
otherwise. -/
theorem toRow_subst (r : Ty) :
    (r.subst b).toRow =
        ((r.toRow.1.map fun (l, head) => (l, head.subst b)) ++ (r.toRow.2.subst b).toRow.1,
          (r.toRow.2.subst b).toRow.2) ∧
      (r.toRow.2.subst b).toRow =
        match r.toRow.2 with
        | .var v => ((b.get? v).getD (.var v)).toRow
        | last => ([], last.subst b) := by
  refine ⟨?_, toRow_subst_tail b _ (tag_toRow r)⟩
  conv_lhs => rw [← ofRow_toRow r, subst_ofRow, toRow_ofRow]

end Ty

end RowTypes
