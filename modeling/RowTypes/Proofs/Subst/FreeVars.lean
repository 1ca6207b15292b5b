import RowTypes.Proofs.Subst.Nameless

/-!
# Free variables of a substitution

On nameless forms there are no binders to name, so the free names of a
replacement are those of the replacements put in place of the names that
are replaced (`Nameless.freeNames_subst`). `mem_freeVars_subst` reads
this off for types: nothing is captured, nothing that was bound comes
free, and a fresh name is never among the free ones.
-/

namespace RowTypes

theorem Bindings.get?_eq_none {b : Bindings} {x : Name} : b.get? x = none ↔ x ∉ b.keys := by
  rw [get?, List.lookup_eq_none_iff, keys, List.mem_map]
  constructor
  · rintro h ⟨e, he, rfl⟩
    simpa using h e he
  · intro h e he
    simpa using fun hx : x = e.1 => h ⟨e, he, hx.symm⟩

theorem Nameless.freeNames_subst (image : Name → Option Nameless) (n : Nameless) :
    (n.subst image).freeNames =
      n.freeNames.flatMap fun y => ((image y).getD (.free y)).freeNames :=
  freeNames_bindAt (g := fun y => ((image y).getD (.free y)).freeNames) (fun _ _ => rfl) n 0

namespace Ty

/-- A variable is free after a substitution if it was free and is not
replaced, or if it is free in what replaces a free variable. -/
theorem mem_freeVars_subst (b : Bindings) (t : Ty) (x : Name) :
    x ∈ (t.subst b).freeVars ↔
      (x ∈ t.freeVars ∧ x ∉ b.keys) ∨
        ∃ y u, b.get? y = some u ∧ y ∈ t.freeVars ∧ x ∈ u.freeVars := by
  have hnameless : (t.subst b).nameless = t.nameless.subst b.image :=
    nameless_substUnder t.depth b [] t (Nat.le_refl _)
  rw [mem_freeVars, hnameless, Nameless.freeNames_subst, List.mem_flatMap]
  constructor
  · rintro ⟨y, hy, hx⟩
    rw [Bindings.image] at hx
    cases hget : b.get? y with
    | none =>
        rw [hget] at hx
        obtain rfl : x = y := List.mem_singleton.mp hx
        exact .inl ⟨mem_freeVars.mpr hy, Bindings.get?_eq_none.mp hget⟩
    | some u =>
        rw [hget] at hx
        exact .inr ⟨y, u, hget, mem_freeVars.mpr hy, mem_freeVars.mpr hx⟩
  · rintro (⟨hx, hkey⟩ | ⟨y, u, hget, hy, hx⟩)
    · refine ⟨x, mem_freeVars.mp hx, ?_⟩
      rw [Bindings.image, Bindings.get?_eq_none.mpr hkey]
      exact List.mem_singleton_self x
    · refine ⟨y, mem_freeVars.mp hy, ?_⟩
      rw [Bindings.image, hget]
      exact mem_freeVars.mp hx

end Ty

end RowTypes
