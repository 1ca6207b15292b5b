import Mathlib.Data.List.Basic
import RowTypes.Proofs.Traversal.Evaluation
import RowTypes.Traversal.Summary

/-!
# Folds that always descend

The stack machine forgotten: a folder that descends everywhere evaluates
the children of a node from left to right and combines their results
(`evalDescending_eq`), and without effects it is the structural fold
(`evalDescending_pure`). So summaries are recursive
(`everything_eq`, `depth_eq`).
-/

namespace RowTypes

variable {σ ε α : Type}

/-- A failure skips what comes after it. -/
theorem Effect.bind_apply {β : Type} (x : Effect σ ε α) (f : α → Effect σ ε β) (s : σ) :
    (x >>= f) s = match x s with
      | (.error e, s') => (.error e, s')
      | (.ok a, s') => f a s' := by
  show (ExceptT.bind x f) s = _
  rcases h : x s with ⟨_ | a, s'⟩
  · simp [ExceptT.bind, ExceptT.mk, ExceptT.bindCont, bind, StateT.bind, h]
    rfl
  · simp [ExceptT.bind, ExceptT.mk, ExceptT.bindCont, bind, StateT.bind, h]

/-! ## Recursion over the children -/

section Descending

variable (combine : Ty → List α → Effect σ ε α)

theorem Outcome.value_of_eq {o : Outcome σ ε α} {r : Except ε α} {s : σ}
    (ho : o = .finished r s) (h : ∃ r s, o = .finished r s) : o.value h = (r, s) := by
  subst ho
  rfl

theorem evalDescending_of_evaluates {t : Ty} {s s' : σ} {r : Except ε α}
    (h : Evaluates (.descending combine) t s r s') :
    evalDescending combine t s = (r, s') := by
  obtain ⟨r₀, s₀, h₀⟩ := run_descending combine 0 t s
  obtain ⟨cost, hcost⟩ := h.drive_eq
  have hvalue : (Folder.descending combine).drive 0 t s = .finished r s' := by
    rcases run_add (F := .descending combine) cost 0 [.visit t] [] s with hex | hadd
    · rw [Folder.drive, hex] at h₀
      cases h₀
    · exact hadd.symm.trans (hcost 0)
  rw [evalDescending, Outcome.value_of_eq hvalue]

theorem evaluates_evalDescending (t : Ty) (s : σ) :
    Evaluates (.descending combine) t s (evalDescending combine t s).1
      (evalDescending combine t s).2 := by
  obtain ⟨r, s', h⟩ := run_descending combine 0 t s
  rw [evalDescending, Outcome.value_of_eq h]
  exact evaluates_of_drive h

theorem evaluatesAll_mapM (ts : List Ty) (s : σ) :
    EvaluatesAll (.descending combine) ts s (ts.mapM (evalDescending combine) s).1
      (ts.mapM (evalDescending combine) s).2 := by
  induction ts generalizing s with
  | nil => exact .nil
  | cons t ts ih =>
      rw [List.mapM_cons, Effect.bind_apply]
      have ht := evaluates_evalDescending combine t s
      rcases hev : evalDescending combine t s with ⟨e | r, s₁⟩
      · rw [hev] at ht
        exact .failHead ht
      · rw [hev] at ht
        have hts := ih s₁
        simp only [Effect.bind_apply]
        rcases hmap : ts.mapM (evalDescending combine) s₁ with ⟨e | rs, s₂⟩
        · rw [hmap] at hts
          exact .failTail ht hts
        · rw [hmap] at hts
          exact .cons ht hts

/-- The results of the children, from left to right, are combined. -/
theorem evalDescending_eq (t : Ty) :
    evalDescending combine t =
      t.children.mapM (evalDescending combine) >>= combine t := by
  funext s
  have hkids := evaluatesAll_mapM combine t.children s
  rw [Effect.bind_apply]
  rcases hmap : t.children.mapM (evalDescending combine) s with ⟨e | rs, s₁⟩
  · rw [hmap] at hkids
    exact evalDescending_of_evaluates combine (.recurse rfl (.fail hkids))
  · rw [hmap] at hkids
    exact evalDescending_of_evaluates combine (.recurse rfl (.combine hkids rfl))

end Descending

/-! ## Folds without effects -/

theorem mapM_eq_pure {f : Ty → Effect σ ε α} {g : Ty → α} {ts : List Ty}
    (h : ∀ t ∈ ts, f t = pure (g t)) : ts.mapM f = pure (ts.map g) := by
  induction ts with
  | nil => rfl
  | cons t ts ih =>
      rw [List.mapM_cons, h t (List.mem_cons_self ..),
        ih fun u hu => h u (List.mem_cons_of_mem _ hu)]
      simp

theorem evalDescending_pure (g : Ty → List α → α) (t : Ty) :
    evalDescending (σ := σ) (ε := ε) (fun u rs => pure (g u rs)) t =
      pure (t.fold g) := by
  induction t using Ty.induction_on_children with
  | step t ih =>
      rw [evalDescending_eq, mapM_eq_pure ih, pure_bind]
      exact congrArg pure (Ty.fold_eq g t).symm

namespace Ty

theorem everything_eq_fold (combine : α → α → α) (f : Ty → α) (t : Ty) :
    everything combine f t = t.fold fun u rs => rs.foldl combine (f u) := by
  have hpure : ∀ (u : Ty) (rs : List α),
      (Effect.total (ε := Empty) (do
        let own ← (pure (f u) : StateM Unit α)
        rs.foldlM (fun a b => pure (combine a b)) own)) =
        (pure (rs.foldl combine (f u)) : Effect Unit Empty α) := by
    intro u rs
    rw [pure_bind, List.foldlM_pure]
    rfl
  simp only [everything, everythingM, hpure, evalDescending_pure]
  rfl

/-- The value of a node is combined with those of its children, from left
to right. -/
theorem everything_eq (combine : α → α → α) (f : Ty → α) (t : Ty) :
    everything combine f t =
      (t.children.map (everything combine f)).foldl combine (f t) := by
  rw [everything_eq_fold, fold_eq]
  congr 1
  exact List.map_congr_left fun u _ => (everything_eq_fold combine f u).symm

theorem depth_eq (t : Ty) :
    t.depth = (t.children.map depth).foldl (fun deepest d => max deepest (d + 1)) 1 :=
  everything_eq _ _ t

theorem foldl_max_le_iff {ds : List Nat} {a n : Nat} :
    ds.foldl (fun deepest d => max deepest (d + 1)) a ≤ n ↔
      a ≤ n ∧ ∀ d ∈ ds, d < n := by
  induction ds generalizing a with
  | nil => simp
  | cons d ds ih =>
      rw [List.foldl_cons, ih]
      simp only [List.mem_cons, forall_eq_or_imp, Nat.max_le, Nat.succ_le_iff, and_assoc]

/-- A type is as deep as one level and the levels of its deepest child. -/
theorem depth_le_iff {t : Ty} {n : Nat} :
    t.depth ≤ n ↔ 0 < n ∧ ∀ c ∈ t.children, c.depth < n := by
  rw [depth_eq, foldl_max_le_iff]
  simp only [List.mem_map, forall_exists_index, and_imp, forall_apply_eq_imp_iff₂]
  rfl

theorem depth_pos (t : Ty) : 0 < t.depth :=
  (depth_le_iff.mp (Nat.le_refl t.depth)).1

theorem depth_child_lt {c t : Ty} (h : c ∈ t.children) : c.depth < t.depth :=
  (depth_le_iff.mp (Nat.le_refl t.depth)).2 c h

theorem depth_body_lt (v : Name) (body : Ty) (scope : Option SkolemScope) :
    body.depth < (forAll v body scope).depth :=
  depth_child_lt List.mem_cons_self

end Ty

end RowTypes
