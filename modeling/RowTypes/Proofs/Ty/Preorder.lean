import RowTypes.Proofs.Ty.Nodes
import RowTypes.Proofs.Ty.Paths

/-!
# Preorder by paths

The nodes of a type in preorder are the ends of all its paths, each path
once, in the order of the paths (`map_get?_paths`, `mem_paths`,
`pairwise_paths`). Paths are compared from the root down, so a node comes
before those below it and before those further right.
-/

namespace RowTypes

namespace Ty

/-! ## Numbered lists -/

theorem pairwise_zipIdx {α : Type} (xs : List α) (n : Nat) :
    (xs.zipIdx n).Pairwise fun a b => a.2 < b.2 := by
  induction xs generalizing n with
  | nil => exact .nil
  | cons x xs ih =>
      exact List.pairwise_cons.mpr ⟨fun _ hb => List.le_snd_of_mem_zipIdx hb, ih (n + 1)⟩

theorem flatMap_zipIdx_fst {α β : Type} (f : α → List β) (xs : List α) :
    (xs.zipIdx.flatMap fun xi => f xi.1) = xs.flatMap f := by
  conv_rhs => rw [← List.zipIdx_map_fst 0 xs, List.flatMap_map]

/-- Lists set one after the other, each made from an element and its
number. -/
theorem pairwise_flatMap_zipIdx {α β : Type} (f : α → Nat → List β) {R : β → β → Prop}
    {xs : List α} (hwithin : ∀ x ∈ xs, ∀ i, (f x i).Pairwise R)
    (hacross : ∀ x y i j, i < j → ∀ a ∈ f x i, ∀ b ∈ f y j, R a b) :
    (xs.zipIdx.flatMap fun xi => f xi.1 xi.2).Pairwise R :=
  List.pairwise_flatMap.mpr
    ⟨fun _ hx => hwithin _ (List.fst_mem_of_mem_zipIdx hx) _,
      (pairwise_zipIdx xs 0).imp fun hij => hacross _ _ _ _ hij⟩

/-! ## The paths -/

/-- The paths to all nodes, from the root down and from left to right. -/
def paths : Ty → List Path := fold fun _ below =>
  [] :: below.zipIdx.flatMap fun (ps, i) => ps.map (i :: ·)

theorem paths_eq (t : Ty) :
    t.paths = [] :: t.children.zipIdx.flatMap fun (c, i) => c.paths.map (i :: ·) := by
  rw [paths, fold_eq, List.zipIdx_map, List.flatMap_map]
  rfl

theorem mem_paths {t : Ty} {p : Path} : p ∈ t.paths ↔ ∃ u, t.get? p = some u := by
  induction t using induction_on_children generalizing p with
  | step t ih =>
      rw [paths_eq]
      cases p with
      | nil => exact ⟨fun _ => ⟨t, rfl⟩, fun _ => List.mem_cons_self⟩
      | cons i p =>
          simp only [List.mem_cons, reduceCtorEq, false_or, List.mem_flatMap, List.mem_map,
            List.cons.injEq, Prod.exists, List.mem_zipIdx_iff_getElem?, get?_cons_eq_some_iff]
          constructor
          · rintro ⟨c, _, hc, _, hp, rfl, rfl⟩
            obtain ⟨u, hu⟩ := (ih c (List.mem_of_getElem? hc)).mp hp
            exact ⟨u, c, hc, hu⟩
          · rintro ⟨u, c, hc, hu⟩
            exact ⟨c, i, hc, p, (ih c (List.mem_of_getElem? hc)).mpr ⟨u, hu⟩, rfl, rfl⟩

/-- No path is listed twice, and each comes before all that are greater. -/
theorem pairwise_paths (t : Ty) : t.paths.Pairwise (· < ·) := by
  induction t using induction_on_children with
  | step t ih =>
      rw [paths_eq, List.pairwise_cons]
      refine ⟨fun p hp => ?_, pairwise_flatMap_zipIdx (fun (c : Ty) i => c.paths.map (i :: ·))
        (fun c hc i => ?_) fun c d i j hij p hp q hq => ?_⟩
      · obtain ⟨_, -, hp⟩ := List.mem_flatMap.mp hp
        obtain ⟨_, -, rfl⟩ := List.mem_map.mp hp
        exact List.nil_lt_cons _ _
      · rw [List.pairwise_map]
        exact (ih c hc).imp List.cons_lt_cons_self.mpr
      · obtain ⟨_, -, rfl⟩ := List.mem_map.mp hp
        obtain ⟨_, -, rfl⟩ := List.mem_map.mp hq
        exact List.Lex.rel hij

/-- The nodes in preorder are the ends of the paths in their order. -/
theorem map_get?_paths (t : Ty) : t.paths.map t.get? = t.preorder.map some := by
  induction t using induction_on_children with
  | step t ih =>
      have hbelow : ∀ ci ∈ t.children.zipIdx,
          (ci.1.paths.map (ci.2 :: ·)).map t.get? = ci.1.preorder.map some := by
        rintro ⟨c, i⟩ hc
        rw [List.map_map, ← ih c (List.fst_mem_of_mem_zipIdx hc)]
        exact List.map_congr_left fun p _ =>
          get?_cons (List.mem_zipIdx_iff_getElem?.mp hc) p
      rw [paths_eq, preorder_eq, List.map_cons, List.map_cons, List.map_flatMap, List.map_flatMap,
        List.flatMap_congr hbelow, flatMap_zipIdx_fst fun c : Ty => c.preorder.map some]
      rfl

end Ty

end RowTypes
