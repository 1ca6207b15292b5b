import Mathlib.Data.List.Basic
import RowTypes.Proofs.Ty.Nameless
import RowTypes.Vars

/-!
# Free variables

The collector goes through a type with one state for all of it. Passing
over the types without variables changes nothing, so it satisfies one
equation for each kind of node (`collect_plain` and its companions). A
quantifier takes its name out of the bound ones only if it put it there,
so that they are in the end what they were (`bound_collect`), and the
names listed stay those that are looked up (`Collector.Mirrors`).

So the collector does the work of a recursion that hands the bound names
down (`collectFree`), and the free variables of a type are the free names
of its nameless form, each listed where it occurs first (`freeVars_eq`).
-/

namespace RowTypes

/-! ## What the collector does at a node -/

namespace Collector

/-- The names listed are those that are looked up. -/
def Mirrors (s : Collector) : Prop := ∀ x, x ∈ s.seen ↔ x ∈ s.free

theorem mirrors_start : start.Mirrors := fun _ => Iff.rfl

theorem bound_note (s : Collector) (v : Name) : (s.note v).bound = s.bound := by
  rw [note]
  split
  · rfl
  · split <;> rfl

theorem free_note {s : Collector} (h : s.Mirrors) (v : Name) :
    (s.note v).free = if v ∈ s.bound ∨ v ∈ s.free then s.free else s.free ++ [v] := by
  by_cases hb : v ∈ s.bound
  · rw [note, if_pos hb, if_pos (.inl hb)]
  by_cases hv : v ∈ s.seen
  · rw [note, if_neg hb, NameSet.insert_of_mem hv, if_pos (.inr ((h v).mp hv))]
  · rw [note, if_neg hb, NameSet.insert_of_not_mem hv, if_neg]
    exact not_or.mpr ⟨hb, mt (h v).mpr hv⟩

theorem Mirrors.note {s : Collector} (h : s.Mirrors) (v : Name) : (s.note v).Mirrors := by
  by_cases hb : v ∈ s.bound
  · rwa [Collector.note, if_pos hb]
  by_cases hv : v ∈ s.seen
  · rwa [Collector.note, if_neg hb, NameSet.insert_of_mem hv]
  · rw [Collector.note, if_neg hb, NameSet.insert_of_not_mem hv]
    intro x
    calc
      x ∈ v :: s.seen.names ↔ x = v ∨ x ∈ s.free := List.mem_cons.trans (or_congr_right (h x))
      _ ↔ x ∈ s.free ++ [v] := by rw [List.mem_append, List.mem_singleton, or_comm]

section

variable (s : Collector) (v : Name) (body : Collector → Collector)

/-- Also where the name of the quantifier was bound before. -/
theorem bound_under (h : ∀ s, (body s).bound = s.bound) : (s.under v body).bound = s.bound := by
  by_cases hv : v ∈ s.bound
  · rw [under, NameSet.insert_of_mem hv]
    exact h s
  · -- the name is taken out of the very set it was put in
    have hinner : (body { s with bound := (s.bound.insert v).2 }).bound.erase v = s.bound := by
      rw [h]
      exact NameSet.erase_insert hv
    rw [NameSet.insert_of_not_mem hv] at hinner
    rw [under, NameSet.insert_of_not_mem hv]
    exact hinner

theorem free_under :
    (s.under v body).free = (body { s with bound := (s.bound.insert v).2 }).free := by
  by_cases hv : v ∈ s.bound
  · rw [under, NameSet.insert_of_mem hv]
  · rw [under, NameSet.insert_of_not_mem hv]

theorem mirrors_under :
    (s.under v body).Mirrors ↔ (body { s with bound := (s.bound.insert v).2 }).Mirrors := by
  by_cases hv : v ∈ s.bound
  · rw [under, NameSet.insert_of_mem hv]
  · rw [under, NameSet.insert_of_not_mem hv]
    exact Iff.rfl

theorem under_id : (s.under v fun s => s) = s := by
  have hbound := s.bound_under v (fun s => s) fun _ => rfl
  by_cases hv : v ∈ s.bound
  · rw [under, NameSet.insert_of_mem hv]
  · rw [under, NameSet.insert_of_not_mem hv] at hbound ⊢
    exact congrArg (fun bound => { s with bound }) hbound

end

end Collector

namespace Ty

/-! ## The collector, case by case -/

theorem collect_eq (t : Ty) (s : Collector) :
    t.collect s =
      if t.has .vars then
        match t with
        | .var v => s.note v
        | .forAll v _ _ => s.under v fun s => t.children.foldl (fun s c => c.collect s) s
        | .app _ _ | .constrained _ _ | .rowCons _ _ _ | .kinded _ _ =>
          t.children.foldl (fun s c => c.collect s) s
        | _ => s
      else s := by
  rw [collect, fold_eq]
  split
  · cases t <;> simp only [List.foldl_map]
  · rfl

theorem collect_of_not_has {t : Ty} (h : t.has .vars = false) (s : Collector) :
    t.collect s = s := by
  rw [collect_eq, h]
  rfl

theorem collect_var (v : Name) (s : Collector) : (var v).collect s = s.note v := by
  rw [collect_eq]
  rfl

theorem collect_forAll (v : Name) (body : Ty) (scope : Option SkolemScope) (s : Collector) :
    (forAll v body scope).collect s = s.under v body.collect := by
  rw [collect_eq]
  split
  · rfl
  · next h =>
    have hbody : body.has .vars = false := by simpa [has] using h
    rw [funext (collect_of_not_has hbody), Collector.under_id]

theorem collect_display {t : Ty} (h : t.head.display) (s : Collector) : t.collect s = s := by
  rw [collect_eq]
  cases t <;> simp [head, Head.display] at h <;> simp

theorem collect_plain {t : Ty} (h : t.head.plain) (s : Collector) :
    t.collect s = t.children.foldl (fun s c => c.collect s) s := by
  by_cases hv : t.has .vars
  · rw [collect_eq, if_pos hv]
    cases t <;> simp [head, Head.plain, Head.display] at h <;> rfl
  · have hkids : ∀ c ∈ t.children, c.has .vars = false := by
      rw [has_eq, Bool.or_eq_true, List.any_eq_true, not_or, not_exists] at hv
      intro c hc
      simpa [hc] using hv.2 c
    rw [collect_of_not_has (by simpa using hv), List.foldl_ext _ (fun s _ => s) _
      fun s c hc => collect_of_not_has (hkids c hc) s]
    exact (List.foldl_fixed t.children).symm

/-! ## The bound names are put right -/

theorem bound_foldl_collect {ts : List Ty} (h : ∀ t ∈ ts, ∀ s, (t.collect s).bound = s.bound)
    (s : Collector) : (ts.foldl (fun s t => t.collect s) s).bound = s.bound := by
  induction ts generalizing s with
  | nil => rfl
  | cons t ts ih =>
      rw [List.foldl_cons, ih fun u hu => h u (List.mem_cons_of_mem _ hu),
        h t List.mem_cons_self]

/-- Whatever state a type is met in, the same names are bound after it as
before it. -/
theorem bound_collect (t : Ty) (s : Collector) : (t.collect s).bound = s.bound := by
  induction t using induction_on_plain generalizing s with
  | var v => rw [collect_var, Collector.bound_note]
  | forAll v body scope ih => rw [collect_forAll, Collector.bound_under _ _ _ ih]
  | display t h => rw [collect_display h]
  | plain t h ih => rw [collect_plain h, bound_foldl_collect ih]

/-! ## Bound names handed down -/

/-- Adds the free variables of a type that `bound` does not have to
`found`. -/
def collectFree : Ty → (bound found : List Name) → List Name :=
  fold fun t children bound found =>
    match t with
    | .var v => if v ∈ bound ∨ v ∈ found then found else found ++ [v]
    | .forAll v _ _ => children.foldl (fun found c => c (v :: bound) found) found
    | .app _ _ | .constrained _ _ | .rowCons _ _ _ | .kinded _ _ =>
      children.foldl (fun found c => c bound found) found
    | _ => found

theorem collectFree_eq (t : Ty) (bound found : List Name) :
    t.collectFree bound found =
      match t with
      | .var v => if v ∈ bound ∨ v ∈ found then found else found ++ [v]
      | .forAll v _ _ =>
        t.children.foldl (fun found c => c.collectFree (v :: bound) found) found
      | .app _ _ | .constrained _ _ | .rowCons _ _ _ | .kinded _ _ =>
        t.children.foldl (fun found c => c.collectFree bound found) found
      | _ => found := by
  rw [collectFree, fold_eq]
  cases t <;> simp only [List.foldl_map]

theorem collectFree_var (v : Name) (bound found : List Name) :
    (var v).collectFree bound found =
      if v ∈ bound ∨ v ∈ found then found else found ++ [v] := rfl

theorem collectFree_forAll (v : Name) (body : Ty) (scope : Option SkolemScope)
    (bound found : List Name) :
    (forAll v body scope).collectFree bound found = body.collectFree (v :: bound) found := rfl

theorem collectFree_display {t : Ty} (h : t.head.display) (bound found : List Name) :
    t.collectFree bound found = found := by
  rw [collectFree_eq]
  cases t <;> simp [head, Head.display] at h <;> rfl

theorem collectFree_plain {t : Ty} (h : t.head.plain) (bound found : List Name) :
    t.collectFree bound found =
      t.children.foldl (fun found c => c.collectFree bound found) found := by
  rw [collectFree_eq]
  cases t <;> simp [head, Head.plain, Head.display] at h <;> rfl

/-- From a state that has the names of a recursion bound, and whose names
listed are those looked up, the collector lists what the recursion does,
and both stay so. -/
def Collects (t : Ty) : Prop :=
  ∀ {s : Collector} {bound : List Name}, s.Mirrors → (∀ x, x ∈ s.bound ↔ x ∈ bound) →
    (t.collect s).Mirrors ∧ (t.collect s).free = t.collectFree bound s.free

theorem foldl_collect {ts : List Ty} (h : ∀ t ∈ ts, t.Collects) {s : Collector}
    {bound : List Name} (hs : s.Mirrors) (hbound : ∀ x, x ∈ s.bound ↔ x ∈ bound) :
    (ts.foldl (fun s t => t.collect s) s).Mirrors ∧
      (ts.foldl (fun s t => t.collect s) s).free =
        ts.foldl (fun found t => t.collectFree bound found) s.free := by
  induction ts generalizing s with
  | nil => exact ⟨hs, rfl⟩
  | cons t ts ih =>
      obtain ⟨hmirrors, hfree⟩ := h t List.mem_cons_self hs hbound
      -- the next sibling is met with the same names bound
      have hnext : ∀ x, x ∈ (t.collect s).bound ↔ x ∈ bound := by rwa [bound_collect]
      rw [List.foldl_cons, List.foldl_cons, ← hfree]
      exact ih (fun u hu => h u (List.mem_cons_of_mem _ hu)) hmirrors hnext

theorem collects (t : Ty) : t.Collects := by
  induction t using induction_on_plain with
  | var v =>
      intro s bound hs hbound
      rw [collect_var, Collector.free_note hs, collectFree_var]
      exact ⟨hs.note v, if_congr (or_congr_left (hbound v)) rfl rfl⟩
  | forAll v body scope ih =>
      intro s bound hs hbound
      have hinner : ∀ x, x ∈ (s.bound.insert v).2 ↔ x ∈ v :: bound := fun x => by
        rw [NameSet.mem_insert, List.mem_cons, hbound]
      rw [collect_forAll, Collector.mirrors_under, Collector.free_under, collectFree_forAll]
      exact ih (s := { s with bound := (s.bound.insert v).2 }) hs hinner
  | display t h =>
      intro s bound hs _
      rw [collect_display h, collectFree_display h]
      exact ⟨hs, rfl⟩
  | plain t h ih =>
      intro s bound hs hbound
      rw [collect_plain h, collectFree_plain h]
      exact foldl_collect ih hs hbound

theorem mirrors_collect {s : Collector} (h : s.Mirrors) (t : Ty) : (t.collect s).Mirrors :=
  (t.collects h fun _ => Iff.rfl).1

theorem free_collect {s : Collector} (h : s.Mirrors) (t : Ty) :
    (t.collect s).free = t.collectFree s.bound.names s.free :=
  (t.collects h fun _ => Iff.rfl).2

/-! ## Agreement with the nameless form -/

/-- Adds a name at the end, unless it is there already. -/
def addName (found : List Name) (x : Name) : List Name :=
  if x ∈ found then found else found ++ [x]

theorem mem_foldl_addName {xs found : List Name} {x : Name} :
    x ∈ xs.foldl addName found ↔ x ∈ found ∨ x ∈ xs := by
  induction xs generalizing found with
  | nil => simp
  | cons y xs ih =>
      rw [List.foldl_cons, ih, addName]
      split
      · next hy =>
        refine ⟨fun h => h.imp_right (List.mem_cons_of_mem _), fun h => ?_⟩
        rcases h with h | h
        · exact .inl h
        · rcases List.mem_cons.mp h with rfl | h
          · exact .inl hy
          · exact .inr h
      · simp [or_assoc]

theorem collectFree_eq_foldl (t : Ty) (bound found : List Name) :
    t.collectFree bound found = (t.erase bound).freeNames.foldl addName found := by
  induction t using induction_on_plain generalizing bound found with
  | var v =>
      rw [collectFree_var, erase, resolve]
      by_cases hb : v ∈ bound
      · obtain ⟨i, hi⟩ := Option.isSome_iff_exists.mp (List.isSome_idxOf?.mpr hb)
        rw [hi, if_pos (.inl hb)]
        rfl
      · rw [List.idxOf?_eq_none_iff.mpr hb]
        simp [hb, Nameless.freeNames, addName]
  | forAll v body scope ih =>
      rw [collectFree_forAll, ih]
      rfl
  | display t h => rw [collectFree_display h, erase_display h]; rfl
  | plain t h ih =>
      rw [collectFree_plain h, erase_plain h, Nameless.freeNames_node, List.flatMap_map,
        List.foldl_flatMap]
      exact List.foldl_ext _ _ _ fun found c hc => ih c hc bound found

/-- The free variables are the free names of the nameless form, in order
of first occurrence. -/
theorem freeVars_eq (t : Ty) : t.freeVars = t.nameless.freeNames.foldl addName [] :=
  (free_collect Collector.mirrors_start t).trans (collectFree_eq_foldl t [] [])

theorem mem_freeVars {t : Ty} {x : Name} : x ∈ t.freeVars ↔ x ∈ t.nameless.freeNames := by
  rw [freeVars_eq, mem_foldl_addName]
  simp

end Ty

end RowTypes
