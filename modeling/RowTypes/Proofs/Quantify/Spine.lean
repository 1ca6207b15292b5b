import RowTypes.Quantify

/-!
# Spines

The quantifiers and constraints at the root of a type, layer by layer.
`Carries` says what the layers hold without saying how they are taken
off; peeling finds just that (`carries_iff`). The canonical form of a
spine is taken apart into the same spine (`spine_toTy`), so bringing
quantifiers to the front forgets how the layers lay among each other and
nothing else (`hoist_canonical`).
-/

namespace RowTypes

namespace Ty

/-- Whether a node is a layer of the spine above it, and not what the
spine ends in. -/
def isLayer : Ty → Bool
  | .forAll _ _ _ | .constrained _ _ => true
  | _ => false

/-- What a spine ends in, and one layer put around after the other. -/
theorem induction_on_spine {P : Ty → Prop}
    (forAll : ∀ v body scope, P body → P (.forAll v body scope))
    (constrained : ∀ cs body, P body → P (.constrained cs body))
    (inner : ∀ t, t.isLayer = false → P t) (t : Ty) : P t := by
  induction t using induction_on_children with
  | step t ih =>
      cases t with
      | forAll v body scope => exact forAll v body scope (ih body (by simp [children]))
      | constrained cs body => exact constrained cs body (ih body (by simp [children]))
      | _ => exact inner _ rfl

theorem spine_inner {t : Ty} (h : t.isLayer = false) : t.spine = ⟨[], [], t⟩ := by
  cases t with
  | forAll _ _ _ | constrained _ _ => cases h
  | _ => rfl

/-- The layers at the root of a type hold the quantifiers and constraints
of a spine, each from outside to inside, around its inner type. -/
inductive Carries : Ty → Spine → Prop where
  | inner {t : Ty} (h : t.isLayer = false) : Carries t ⟨[], [], t⟩
  | forAll {body : Ty} {s : Spine} (v : Name) (scope : Option SkolemScope) (h : Carries body s) :
      Carries (.forAll v body scope) { s with quantifiers := (v, scope) :: s.quantifiers }
  | constrained {body : Ty} {s : Spine} (cs : List (Constraint Ty)) (h : Carries body s) :
      Carries (.constrained cs body) { s with constraints := cs ++ s.constraints }

section

variable {t : Ty} {s : Spine}

theorem carries_spine (t : Ty) : Carries t t.spine := by
  induction t using induction_on_spine with
  | forAll v body scope ih =>
      rw [spine_forAll]
      exact .forAll v scope ih
  | constrained cs body ih =>
      rw [spine_constrained]
      exact .constrained cs ih
  | inner t h =>
      rw [spine_inner h]
      exact .inner h

theorem carries_iff : Carries t s ↔ s = t.spine := by
  constructor
  · intro h
    induction h with
    | inner h => exact (spine_inner h).symm
    | forAll v scope _ ih => rw [spine_forAll, ← ih]
    | constrained cs _ ih => rw [spine_constrained, ← ih]
  · rintro rfl
    exact carries_spine t

/-- A spine ends where no layer is left. -/
theorem isLayer_inner (t : Ty) : t.spine.inner.isLayer = false := by
  induction t using induction_on_spine with
  | forAll v body scope ih => rwa [spine_forAll]
  | constrained cs body ih => rwa [spine_constrained]
  | inner t h => rwa [spine_inner h]

/-! ## The canonical form -/

/-- The canonical form of a spine carries this spine. -/
theorem spine_toTy (h : s.inner.isLayer = false) : s.toTy.spine = s := by
  obtain ⟨quantifiers, constraints, inner⟩ := s
  induction quantifiers with
  | nil =>
      rw [Spine.toTy, List.foldr_nil, guarded]
      split
      · next hnil =>
        obtain rfl : constraints = [] := List.isEmpty_iff.mp hnil
        exact spine_inner h
      · rw [spine_constrained, spine_inner h, List.append_nil]
  | cons q quantifiers ih =>
      rw [Spine.toTy, List.foldr_cons, spine_forAll]
      exact congrArg (fun s => { s with quantifiers := q :: s.quantifiers }) (ih h)

theorem spine_hoist (t : Ty) : t.hoist.spine = t.spine :=
  spine_toTy (isLayer_inner t)

/-- A type carries exactly one spine. Bringing quantifiers to the front
gives its quantifiers in their order, with their scopes, around one list
of all its constraints, which is left out if it is empty, around its
inner type. Doing so again changes nothing, and it gives the same for
every type that carries the same spine. -/
theorem hoist_canonical (t : Ty) :
    ∃ s, Carries t s ∧ (∀ s', Carries t s' → s' = s) ∧
      t.hoist = s.quantifiers.foldr (fun q body => .forAll q.1 body q.2)
        (if s.constraints = [] then s.inner else .constrained s.constraints s.inner) ∧
      t.hoist.hoist = t.hoist ∧ ∀ u, Carries u s → u.hoist = t.hoist := by
  refine ⟨t.spine, carries_spine t, fun s' h => carries_iff.mp h, ?_, ?_, fun u hu => ?_⟩
  · simp only [hoist, Spine.toTy, guarded, List.isEmpty_iff]
  · rw [hoist, spine_hoist, ← hoist]
  · rw [hoist, hoist, ← carries_iff.mp hu]

end

end Ty

end RowTypes
