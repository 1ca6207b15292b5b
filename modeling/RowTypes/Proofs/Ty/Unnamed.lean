import Mathlib.Data.List.Basic
import RowTypes.Proofs.Traversal.Descent
import RowTypes.Proofs.Ty.Paths

/-!
# Types without names

What is left of a type when the names of its variables and quantifiers
are taken out. Types that differ in such names alone have this in common,
and it tells all the rest: how large and how deep a type is
(`size_eq_of_unnamed`, `depth_eq_of_unnamed`), which positions it has, and
what else the node at each of them holds (`head_unnamed_eq_of_unnamed`).
-/

namespace RowTypes

namespace Ty

/-- A head without the name of a variable or of a quantifier. -/
def Head.unnamed : Head → Head
  | .var _ => .var ""
  | .forAll _ scope => .forAll "" scope
  | h => h

/-- A node without the name of a variable or of a quantifier. -/
def blank : Ty → Ty
  | .var _ => .var ""
  | .forAll _ body scope => .forAll "" body scope
  | t => t

theorem head_blank (t : Ty) : t.blank.head = t.head.unnamed := by cases t <;> rfl

theorem children_blank (t : Ty) : t.blank.children = t.children := by cases t <;> rfl

/-- A type without the names of its variables and quantifiers. -/
def unnamed : Ty → Ty := fold fun t children => t.blank.rebuild children

theorem unnamed_eq (t : Ty) : t.unnamed = t.blank.rebuild (t.children.map unnamed) :=
  fold_eq _ t

theorem head_unnamed (t : Ty) : t.unnamed.head = t.head.unnamed := by
  rw [unnamed_eq, head_rebuild, head_blank]

theorem children_unnamed (t : Ty) : t.unnamed.children = t.children.map unnamed := by
  rw [unnamed_eq, children_rebuild_of_length (by rw [List.length_map, children_blank])]

/-- The head and the children decide, each without names. -/
theorem unnamed_eq_iff {t u : Ty} :
    t.unnamed = u.unnamed ↔
      t.head.unnamed = u.head.unnamed ∧ t.children.map unnamed = u.children.map unnamed := by
  rw [← head_unnamed, ← head_unnamed, ← children_unnamed, ← children_unnamed]
  exact ⟨fun h => ⟨congrArg head h, congrArg children h⟩,
    fun ⟨hhead, hkids⟩ => eq_of_head_of_children hhead hkids⟩

/-! ## What names do not tell -/

theorem size_unnamed (t : Ty) : t.unnamed.size = t.size := by
  induction t using induction_on_children with
  | step t ih =>
      have hkids : t.children.map (size ∘ unnamed) = t.children.map size := List.map_congr_left ih
      rw [size_eq, size_eq t, children_unnamed, List.map_map, hkids]

theorem depth_unnamed (t : Ty) : t.unnamed.depth = t.depth := by
  induction t using induction_on_children with
  | step t ih =>
      have hkids : t.children.map (depth ∘ unnamed) = t.children.map depth := List.map_congr_left ih
      rw [depth_eq, depth_eq t, children_unnamed, List.map_map, hkids]

theorem get?_unnamed (t : Ty) (p : Path) : t.unnamed.get? p = (t.get? p).map unnamed := by
  induction p generalizing t with
  | nil => rfl
  | cons i p ih =>
      rw [get?, get?, children_unnamed, List.getElem?_map, Option.bind_map, Option.map_bind]
      exact congrArg _ (funext ih)

section

variable {t u : Ty}

theorem size_eq_of_unnamed (h : t.unnamed = u.unnamed) : t.size = u.size := by
  rw [← size_unnamed, h, size_unnamed]

theorem depth_eq_of_unnamed (h : t.unnamed = u.unnamed) : t.depth = u.depth := by
  rw [← depth_unnamed, h, depth_unnamed]

/-- The two types have the same positions, and the same nodes there but
for their names. -/
theorem head_unnamed_eq_of_unnamed (h : t.unnamed = u.unnamed) (p : Path) :
    ((t.get? p).map fun c => c.head.unnamed) = (u.get? p).map fun c => c.head.unnamed := by
  have hnode : ∀ w : Ty,
      ((w.get? p).map fun c => c.head.unnamed) = (w.unnamed.get? p).map head := by
    intro w
    rw [get?_unnamed, Option.map_map]
    exact congrArg (Option.map · _) (funext fun c => (head_unnamed c).symm)
  rw [hnode, h, hnode]

end

end Ty

end RowTypes
