import Mathlib.Data.List.Basic
import RowTypes.Proofs.Ty.Nameless
import RowTypes.Proofs.Ty.Nodes

/-!
# Quantifiers in view

The quantifiers that stand outside display-only forms, by name
(`quantified`), and types that have neither quantifiers nor display-only
forms (`Bare`), where every variable is free and in view.
-/

namespace RowTypes

namespace Ty

/-! ## Names of quantifiers -/

/-- The names of the quantifiers outside display-only forms, from the root
down and from left to right. -/
def quantified : Ty → List Name := fold fun t below =>
  match t with
  | .forAll v _ _ => v :: below.flatten
  | .prettyFunction _ _ | .prettyObject _ | .prettyForAll _ _ => []
  | _ => below.flatten

theorem quantified_forAll (v : Name) (body : Ty) (scope : Option SkolemScope) :
    (forAll v body scope).quantified = v :: body.quantified := by
  rw [quantified, fold_eq]
  exact congrArg (v :: ·) (List.append_nil _)

theorem quantified_plain {t : Ty} (h : t.head.plain) :
    t.quantified = t.children.flatMap quantified := by
  rw [quantified, fold_eq, List.flatMap_def]
  cases t <;> simp [head, Head.plain, Head.display] at h <;> rfl

/-! ## Types without quantifiers -/

/-- Whether a node is neither a quantifier nor a display-only form. -/
def Head.bare : Head → Bool
  | .forAll _ _ => false
  | h => !h.display

/-- No node of the type is a quantifier or a display-only form. -/
def Bare (t : Ty) : Prop := ∀ u ∈ t.preorder, u.head.bare

instance (t : Ty) : Decidable t.Bare :=
  inferInstanceAs (Decidable (∀ u ∈ t.preorder, u.head.bare))

theorem bare_iff {t : Ty} : t.Bare ↔ t.head.bare ∧ ∀ c ∈ t.children, c.Bare := by
  rw [Bare, preorder_eq, List.forall_mem_cons, List.forall_mem_flatMap]
  rfl

/-- What holds of variables, and of a node of any other kind that is not
a quantifier or a display-only form whenever it holds of its children,
holds of every bare type. -/
theorem induction_on_bare {P : Ty → Prop} (var : ∀ v, P (.var v))
    (plain : ∀ t, t.head.plain → (∀ c ∈ t.children, P c) → P t) {t : Ty} (h : t.Bare) : P t := by
  induction t using induction_on_plain with
  | var v => exact var v
  | forAll v body scope ih => cases (bare_iff.mp h).1
  | display t hd =>
      have hbare := (bare_iff.mp h).1
      cases t <;> cases hd <;> cases hbare
  | plain t hp ih => exact plain t hp fun c hc => ih c hc ((bare_iff.mp h).2 c hc)

end Ty

end RowTypes
