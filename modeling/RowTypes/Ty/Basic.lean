import RowTypes.Kind

/-!
# Types

The syntax trees of a type language with quantifiers, class constraints
and rows. Every node is seen in two ways: as one of the forms of `Ty`,
and uniformly as payload around a list of `children`, which `rebuild`
replaces. `Ty.fold` is the structural fold over that uniform view, and
`fold_eq` is its only equation.
-/

namespace RowTypes

/-- A class applied to arguments. -/
structure Constraint (α : Type) where
  className : Qualified
  args : List α
deriving DecidableEq, Repr

/-- A type. -/
inductive Ty where
  /-- A unification variable. -/
  | unknown (id : UInt32)
  /-- A named variable. -/
  | var (name : Name)
  /-- A gap left open in a partial signature. -/
  | wildcard
  | constructor (name : Qualified)
  | app (function argument : Ty)
  /-- A universal quantifier; the scope tags the skolems it gives rise to. -/
  | forAll (name : Name) (body : Ty) (scope : Option SkolemScope)
  /-- A type guarded by class constraints. -/
  | constrained (constraints : List (Constraint Ty)) (body : Ty)
  /-- A rigid constant that stands for a quantified variable. -/
  | skolem (name : Name) (id : UInt32) (scope : SkolemScope) (span : Option Span)
  | rowEmpty
  /-- A labelled entry in front of the rest of a row. -/
  | rowCons (label : Label) (head tail : Ty)
  /-- A type with a kind annotation. -/
  | kinded (type : Ty) (kind : Kind)
  /-- For display: a function arrow. -/
  | prettyFunction (argument result : Ty)
  /-- For display: a record. -/
  | prettyObject (row : Ty)
  /-- For display: several quantifiers in one. -/
  | prettyForAll (names : List Name) (body : Ty)

namespace Ty

/-- The type of functions from `argument` to `result`. -/
def function (argument result : Ty) : Ty :=
  .app (.app (.constructor ⟨some "Prim", "Function"⟩) argument) result

/-! ## Children -/

/-- The types directly inside a node, left to right; the arguments of all
constraints come before the constrained type. -/
def children : Ty → List Ty
  | .app f a => [f, a]
  | .forAll _ body _ => [body]
  | .constrained cs body => cs.flatMap (·.args) ++ [body]
  | .rowCons _ head tail => [head, tail]
  | .kinded type _ => [type]
  | .prettyFunction a r => [a, r]
  | .prettyObject row => [row]
  | .prettyForAll _ body => [body]
  | _ => []

/-- Replaces each element of `old` by the next of `new` while there is
one; gives what is left of `new` as well. -/
def supply : List Ty → List Ty → List Ty × List Ty
  | [], new => ([], new)
  | old, [] => (old, [])
  | _ :: old, t :: new =>
    let (ts, rest) := supply old new
    (t :: ts, rest)

/-- `supply` for the arguments of a list of constraints. -/
def supplyConstraints :
    List (Constraint Ty) → List Ty → List (Constraint Ty) × List Ty
  | [], new => ([], new)
  | c :: cs, new =>
    let (args, rest) := supply c.args new
    let (cs', rest') := supplyConstraints cs rest
    ({ c with args } :: cs', rest')

/-- The node with its children replaced in order. Where `new` is too
short the last children stay as they are; what is too much is ignored. -/
def rebuild (t : Ty) (new : List Ty) : Ty :=
  match t, new with
  | .app _ a, [f] => .app f a
  | .app _ _, f :: a :: _ => .app f a
  | .forAll v _ scope, body :: _ => .forAll v body scope
  | .constrained cs body, new =>
    let (cs', rest) := supplyConstraints cs new
    .constrained cs' (rest.headD body)
  | .rowCons l _ tail, [head] => .rowCons l head tail
  | .rowCons l _ _, head :: tail :: _ => .rowCons l head tail
  | .kinded _ k, type :: _ => .kinded type k
  | .prettyFunction _ r, [a] => .prettyFunction a r
  | .prettyFunction _ _, a :: r :: _ => .prettyFunction a r
  | .prettyObject _, row :: _ => .prettyObject row
  | .prettyForAll vs _, body :: _ => .prettyForAll vs body
  | t, _ => t

/-! ## The structural fold -/

mutual

/-- Gives each node, together with the results of its children, to
`f`. -/
def fold {β : Type} (f : Ty → List β → β) : Ty → β
  | .unknown id => f (.unknown id) []
  | .var v => f (.var v) []
  | .wildcard => f .wildcard []
  | .constructor q => f (.constructor q) []
  | .app g a => f (.app g a) [fold f g, fold f a]
  | .forAll v body scope => f (.forAll v body scope) [fold f body]
  | .constrained cs body =>
    f (.constrained cs body) (foldConstraints f cs [fold f body])
  | .skolem v id scope span => f (.skolem v id scope span) []
  | .rowEmpty => f .rowEmpty []
  | .rowCons l head tail => f (.rowCons l head tail) [fold f head, fold f tail]
  | .kinded type k => f (.kinded type k) [fold f type]
  | .prettyFunction a r => f (.prettyFunction a r) [fold f a, fold f r]
  | .prettyObject row => f (.prettyObject row) [fold f row]
  | .prettyForAll vs body => f (.prettyForAll vs body) [fold f body]

/-- The results of all constraint arguments, in front of `rest`. -/
def foldConstraints {β : Type} (f : Ty → List β → β) :
    List (Constraint Ty) → List β → List β
  | [], rest => rest
  | ⟨_, args⟩ :: cs, rest => foldArgs f args (foldConstraints f cs rest)

/-- The results of a list of types, in front of `rest`. -/
def foldArgs {β : Type} (f : Ty → List β → β) : List Ty → List β → List β
  | [], rest => rest
  | t :: ts, rest => fold f t :: foldArgs f ts rest

end

theorem foldArgs_eq {β : Type} (f : Ty → List β → β) (ts : List Ty)
    (rest : List β) : foldArgs f ts rest = ts.map (fold f) ++ rest := by
  induction ts with
  | nil => rfl
  | cons t ts ih => simp [foldArgs, ih]

theorem foldConstraints_eq {β : Type} (f : Ty → List β → β)
    (cs : List (Constraint Ty)) (rest : List β) :
    foldConstraints f cs rest = (cs.flatMap (·.args)).map (fold f) ++ rest := by
  induction cs with
  | nil => rfl
  | cons c cs ih => cases c; simp [foldConstraints, foldArgs_eq, ih]

/-- The fold of a node is `f` of the node and the folds of its children. -/
theorem fold_eq {β : Type} (f : Ty → List β → β) (t : Ty) :
    fold f t = f t (t.children.map (fold f)) := by
  cases t <;> simp [fold, children, foldConstraints_eq]

/-! ## Induction on children -/

theorem sizeOf_lt_of_mem_children {c t : Ty} (h : c ∈ t.children) :
    sizeOf c < sizeOf t := by
  cases t with
  | constrained cs body =>
    simp only [children, List.mem_append, List.mem_flatMap, List.mem_singleton] at h
    rcases h with ⟨k, hk, hc⟩ | rfl
    · have h1 := List.sizeOf_lt_of_mem hk
      have h2 := List.sizeOf_lt_of_mem hc
      have h3 : sizeOf k.args < sizeOf k := by
        obtain ⟨q, args⟩ := k
        simp only [Constraint.mk.sizeOf_spec]
        omega
      simp only [constrained.sizeOf_spec]
      omega
    · simp only [constrained.sizeOf_spec]
      omega
  | _ => simp [children] at h <;> rcases h with rfl | rfl <;> simp <;> omega

/-- What holds of a node whenever it holds of its children holds of every
type. -/
theorem induction_on_children {P : Ty → Prop}
    (step : ∀ t, (∀ c ∈ t.children, P c) → P t) (t : Ty) : P t :=
  step t fun c h =>
    have := sizeOf_lt_of_mem_children h
    induction_on_children step c
termination_by t

/-- Number of nodes. -/
def size : Ty → Nat := fold fun _ sizes => 1 + sizes.foldr (· + ·) 0

theorem size_eq (t : Ty) : t.size = 1 + (t.children.map size).foldr (· + ·) 0 :=
  fold_eq _ t

end Ty

end RowTypes
