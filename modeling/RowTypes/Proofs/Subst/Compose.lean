import RowTypes.Proofs.Subst.FreeVars
import RowTypes.Proofs.Ty.Alpha

/-!
# Substitutions one after the other

Two substitutions in turn come to one substitution, by `b₁.andThen b₂`.
The quantifiers that have to give way are not the same on both sides, nor
do they give way at the same time, so that the results differ in the names
of bound variables; but they are alpha-equivalent
(`alphaEquiv_subst_subst`), since nameless forms know of no such names and
two replacements of free names are one (`Nameless.subst_subst`).
-/

namespace RowTypes

/-! ## One replacement for two -/

namespace Nameless

theorem bindAt_eq_subst (image : Name → Option Nameless) (n : Nameless) (level : Nat) :
    n.bindAt (fun _ x => (image x).getD (.free x)) level = n.subst image := by
  rw [subst]
  generalize 0 = level'
  induction n using induction_on_parts generalizing level level' with
  | bound i => rfl
  | free x => rfl
  | forAll scope n ih => rw [bindAt, bindAt, ih (level + 1) (level' + 1)]
  | display t => rfl
  | node h ps ih =>
      rw [bindAt_node, bindAt_node]
      exact congrArg (node h) (List.map_congr_left fun p hp => ih p hp level level')

/-- A name that the first replacement does not touch is left to the
second one, which also goes through what the first one brings in. -/
theorem subst_subst (first second : Name → Option Nameless) (n : Nameless) :
    (n.subst first).subst second =
      n.subst fun x => ((first x).map (subst second)).or (second x) := by
  have hboth := bindAt_bindAt (fun _ x => (first x).getD (.free x))
    (fun _ x => (second x).getD (.free x)) n 0 0
  rw [← subst, ← subst] at hboth
  rw [hboth, subst]
  refine bindAt_congr fun i x _ => ?_
  rw [bindAt_eq_subst]
  cases first x with
  | none => rfl
  | some p => rfl

end Nameless

/-! ## One substitution for two -/

namespace Bindings

/-- What `b₁` binds, with `b₂` substituted in it, and what `b₂` alone
binds. -/
def andThen (b₁ b₂ : Bindings) : Bindings where
  entries := b₁.entries.map (fun (x, u) => (x, u.subst b₂)) ++
    b₂.entries.filter (·.1 ∉ b₁.keys)
  nodup := by
    rw [List.map_append, List.map_map]
    refine List.nodup_append.mpr ⟨b₁.nodup, b₂.nodup.sublist (List.filter_sublist.map _), ?_⟩
    rintro x hx _ hy rfl
    obtain ⟨e, he, rfl⟩ := List.mem_map.mp hy
    have hnot : e.1 ∉ b₁.keys := by simpa using (List.mem_filter.mp he).2
    exact hnot hx

theorem lookup_map (f : Ty → Ty) (entries : List (Name × Ty)) (x : Name) :
    (entries.map fun (y, u) => (y, f u)).lookup x = (entries.lookup x).map f := by
  induction entries with
  | nil => rfl
  | cons e entries ih =>
      rw [List.map_cons, lookup_cons_eq, lookup_cons_eq, ih]
      split <;> rfl

theorem get?_andThen (b₁ b₂ : Bindings) (x : Name) :
    (b₁.andThen b₂).get? x = ((b₁.get? x).map (Ty.subst b₂)).or (b₂.get? x) := by
  have hfirst : (b₁.entries.map fun (x, u) => (x, u.subst b₂)).lookup x =
      (b₁.get? x).map (Ty.subst b₂) := lookup_map _ _ _
  have hsecond : (b₂.entries.filter (·.1 ∉ b₁.keys)).lookup x =
      if decide (x ∉ b₁.keys) then b₂.get? x else none :=
    lookup_filter (fun y => decide (y ∉ b₁.keys)) b₂.entries x
  rw [get?, andThen, List.lookup_append, hfirst, hsecond]
  cases hx : b₁.get? x with
  | none => simp [get?_eq_none.mp hx]
  | some u => rfl

end Bindings

namespace Ty

/-- Substituting twice is substituting once, up to the names of bound
variables. -/
theorem alphaEquiv_subst_subst (b₁ b₂ : Bindings) (t : Ty) :
    AlphaEquiv ((t.subst b₁).subst b₂) (t.subst (b₁.andThen b₂)) := by
  have hnameless : ∀ (b : Bindings) (u : Ty), (u.subst b).nameless = u.nameless.subst b.image :=
    fun b u => nameless_substUnder u.depth b [] u (Nat.le_refl _)
  have himage : (b₁.andThen b₂).image =
      fun x => ((b₁.image x).map (Nameless.subst b₂.image)).or (b₂.image x) := by
    funext x
    rw [Bindings.image, Bindings.get?_andThen, Bindings.image, Bindings.image]
    cases b₁.get? x with
    | none => rfl
    | some u => exact congrArg some (hnameless b₂ u)
  rw [alphaEquiv_iff, hnameless, hnameless, hnameless, himage, Nameless.subst_subst]

end Ty

end RowTypes
