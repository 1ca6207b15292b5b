import RowTypes.Vars

/-!
# Quantifiers

Closing types over variables, and the canonical form in which the
quantifiers at the root of a type stand before its constraints.
-/

namespace RowTypes

namespace Ty

/-- Whether the outermost node is not a quantifier. -/
def isMono : Ty → Bool
  | .forAll _ _ _ => false
  | _ => true

/-- Quantifies over the given names, the first of them outermost. -/
def quantify (names : List Name) (body : Ty) : Ty :=
  names.foldr (fun v t => .forAll v t none) body

/-- Quantifies over the free variables. -/
def close (t : Ty) : Ty := quantify t.freeVars t

/-! ## The spine -/

/-- What the quantifiers and constraints at the root of a type hold: the
quantified names with their scopes and the constraints, each from
outside to inside, and the type below them. -/
structure Spine where
  quantifiers : List (Name × Option SkolemScope)
  constraints : List (Constraint Ty)
  inner : Ty

/-- Takes the quantifiers and constraints at the root of a type off, one
layer after the other, and puts what they hold behind what has been taken
off so far. -/
def peel (quantifiers : Array (Name × Option SkolemScope))
    (constraints : Array (Constraint Ty)) : Ty → Spine
  | .forAll v body scope => peel (quantifiers.push (v, scope)) constraints body
  | .constrained cs body => peel quantifiers (constraints ++ cs) body
  | t => ⟨quantifiers.toList, constraints.toList, t⟩

/-- Takes a type apart along the quantifiers and constraints at its
root. -/
def spine (t : Ty) : Spine := peel #[] #[] t

/-- What is taken off comes behind what has been taken off before. -/
theorem peel_eq (quantifiers : Array (Name × Option SkolemScope))
    (constraints : Array (Constraint Ty)) (t : Ty) :
    peel quantifiers constraints t =
      ⟨quantifiers.toList ++ t.spine.quantifiers, constraints.toList ++ t.spine.constraints,
        t.spine.inner⟩ := by
  induction t using induction_on_children generalizing quantifiers constraints with
  | step t ih =>
    cases t with
    | forAll v body scope =>
      rw [peel, spine, peel, ih body (by simp [children]) (quantifiers.push _),
        ih body (by simp [children]) (#[].push _)]
      simp
    | constrained cs body =>
      rw [peel, spine, peel, ih body (by simp [children]) _ (constraints ++ cs),
        ih body (by simp [children]) _ (#[] ++ cs)]
      simp
    | _ => simp [spine, peel]

theorem spine_forAll (v : Name) (body : Ty) (scope : Option SkolemScope) :
    (forAll v body scope).spine =
      { body.spine with quantifiers := (v, scope) :: body.spine.quantifiers } := by
  rw [spine, peel, peel_eq]
  rfl

theorem spine_constrained (cs : List (Constraint Ty)) (body : Ty) :
    (constrained cs body).spine =
      { body.spine with constraints := cs ++ body.spine.constraints } := by
  rw [spine, peel, peel_eq]
  simp

/-- Guards a type by constraints, if there are any. -/
def guarded (constraints : List (Constraint Ty)) (t : Ty) : Ty :=
  if constraints.isEmpty then t else .constrained constraints t

/-- The quantifiers around the constraints around the inner type. -/
def Spine.toTy (s : Spine) : Ty :=
  s.quantifiers.foldr (fun (v, scope) t => .forAll v t scope)
    (guarded s.constraints s.inner)

/-- Brings the quantifiers at the root of a type to the front, and the
constraints among them into one list behind. -/
def hoist (t : Ty) : Ty := t.spine.toTy

end Ty

end RowTypes
