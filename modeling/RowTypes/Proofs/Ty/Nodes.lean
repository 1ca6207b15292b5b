import Mathlib.Algebra.Order.BigOperators.Group.List
import Mathlib.Algebra.Order.Group.Nat
import RowTypes.Ty.Basic

/-!
# The nodes of a type in order

Every node of a type once, before or after the nodes below it. Both
orders go through the children of a node from left to right, and both
are as long as the type is large.
-/

namespace RowTypes

namespace Ty

/-- The nodes of a type, each before those below it. -/
def preorder : Ty → List Ty := fold fun t below => t :: below.flatten

/-- The nodes of a type, each after those below it. -/
def postorder : Ty → List Ty := fold fun t below => below.flatten ++ [t]

theorem preorder_eq (t : Ty) : t.preorder = t :: t.children.flatMap preorder := by
  rw [List.flatMap_def]
  exact fold_eq _ t

theorem postorder_eq (t : Ty) : t.postorder = t.children.flatMap postorder ++ [t] := by
  rw [List.flatMap_def]
  exact fold_eq _ t

/-- An order of the nodes of every child is an order of all nodes but the
one above them. -/
theorem length_flatMap_children {order : Ty → List Ty} {t : Ty}
    (h : ∀ c ∈ t.children, (order c).length = c.size) :
    (t.children.flatMap order).length + 1 = t.size := by
  rw [size_eq, List.length_flatMap, List.map_congr_left h, List.sum_eq_foldr, Nat.add_comm]

theorem length_preorder (t : Ty) : t.preorder.length = t.size := by
  induction t using induction_on_children with
  | step t ih => rw [preorder_eq, List.length_cons, length_flatMap_children ih]

theorem length_postorder (t : Ty) : t.postorder.length = t.size := by
  induction t using induction_on_children with
  | step t ih =>
      rw [postorder_eq, List.length_append, List.length_singleton, length_flatMap_children ih]

theorem size_pos (t : Ty) : 0 < t.size := by
  rw [size_eq]
  omega

theorem size_child_lt {c t : Ty} (h : c ∈ t.children) : c.size < t.size := by
  have hle := List.le_sum_of_mem (List.mem_map_of_mem (f := size) h)
  rw [size_eq t, ← List.sum_eq_foldr]
  omega

end Ty

end RowTypes
