import RowTypes.Ty.Basic

/-!
# Flags

What a type contains, display-only forms and constraint arguments
included. A flag is set for a node if it is the node's own or is set for
one of its children (`has_eq`); the search stops at the first node that
sets it. A node is given all its flags at once when it is made, from
those its children were given (`flags`), and they are what the search
finds (`mem_flags`).
-/

namespace RowTypes

/-- A property of types that one node anywhere inside decides. -/
inductive Flag where
  | vars | wildcards | unknowns | skolems | quantifiers
deriving DecidableEq, Repr

/-- The flags in the order in which they are listed. -/
def Flag.all : List Flag := [.vars, .wildcards, .unknowns, .skolems, .quantifiers]

theorem Flag.mem_all (flag : Flag) : flag ∈ Flag.all := by cases flag <;> decide

namespace Ty

/-- Whether the node itself, its children apart, sets a flag. -/
def sets (flag : Flag) : Ty → Bool
  | .unknown _ => flag = .unknowns
  | .var _ => flag = .vars
  | .wildcard => flag = .wildcards
  | .skolem _ _ _ _ => flag = .skolems
  | .forAll _ _ _ => flag = .quantifiers
  | .prettyForAll _ _ => flag = .quantifiers
  | _ => false

mutual

/-- Whether some node of a type sets a flag. -/
def has (flag : Flag) : Ty → Bool
  | .unknown _ => flag = .unknowns
  | .var _ => flag = .vars
  | .wildcard => flag = .wildcards
  | .constructor _ => false
  | .app f a => has flag f || has flag a
  | .forAll _ body _ => flag = .quantifiers || has flag body
  | .constrained cs body => hasConstraints flag cs || has flag body
  | .skolem _ _ _ _ => flag = .skolems
  | .rowEmpty => false
  | .rowCons _ head tail => has flag head || has flag tail
  | .kinded type _ => has flag type
  | .prettyFunction a r => has flag a || has flag r
  | .prettyObject row => has flag row
  | .prettyForAll _ body => flag = .quantifiers || has flag body

/-- Whether some node of a constraint argument sets a flag. -/
def hasConstraints (flag : Flag) : List (Constraint Ty) → Bool
  | [] => false
  | ⟨_, args⟩ :: cs => hasArgs flag args || hasConstraints flag cs

/-- Whether some node of one of the types sets a flag. -/
def hasArgs (flag : Flag) : List Ty → Bool
  | [] => false
  | t :: ts => has flag t || hasArgs flag ts

end

theorem hasArgs_eq (flag : Flag) (ts : List Ty) :
    hasArgs flag ts = ts.any (has flag) := by
  induction ts with
  | nil => rfl
  | cons t ts ih => simp [hasArgs, ih]

theorem hasConstraints_eq (flag : Flag) (cs : List (Constraint Ty)) :
    hasConstraints flag cs = (cs.flatMap (·.args)).any (has flag) := by
  induction cs with
  | nil => rfl
  | cons c cs ih => cases c; simp [hasConstraints, hasArgs_eq, ih]

/-- A node has the flags that it sets and those of its children. -/
theorem has_eq (flag : Flag) (t : Ty) :
    t.has flag = (t.sets flag || t.children.any (has flag)) := by
  cases t <;> simp [has, sets, children, hasConstraints_eq]

/-! ## The flags given to a node -/

/-- The flags a node is given when it is made: its own, united with those
given to its children. -/
def stampFlags (t : Ty) (given : List (List Flag)) : List Flag :=
  Flag.all.filter fun flag => t.sets flag || given.any fun flags => flag ∈ flags

/-- The flags of a type, each node having been given its own on top of
its children. -/
def flags : Ty → List Flag := fold stampFlags

theorem flags_eq (t : Ty) : t.flags = t.stampFlags (t.children.map flags) :=
  fold_eq _ t

theorem mem_flags {flag : Flag} {t : Ty} : flag ∈ t.flags ↔ t.has flag := by
  induction t using induction_on_children with
  | step t ih =>
    rw [flags_eq, stampFlags, List.mem_filter, has_eq]
    simp only [Flag.mem_all, true_and, List.any_map, Bool.or_eq_true, List.any_eq_true,
      Function.comp_apply, decide_eq_true_eq]
    exact or_congr_right (exists_congr fun c => and_congr_right (ih c))

end Ty

end RowTypes
