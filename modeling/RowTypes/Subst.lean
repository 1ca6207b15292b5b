import RowTypes.Vars

/-!
# Substitution

Replaces free variables by types, all at once: what a replacement brings
in is not replaced again, and no quantifier of the target captures a
variable of a replacement. A quantifier that would do so is renamed to
the first of `v`, `v0`, `v1`, … that is free to use (`freshName`), so the
result is the same on every run.
-/

namespace RowTypes

/-! ## Bindings -/

/-- A finite map from variable names to types. -/
structure Bindings where
  entries : List (Name × Ty)
  nodup : (entries.map Prod.fst).Nodup

namespace Bindings

/-- No binding. -/
def empty : Bindings := ⟨[], by simp⟩

/-- One binding. -/
def single (v : Name) (t : Ty) : Bindings := ⟨[(v, t)], by simp⟩

/-- The names that are bound. -/
def keys (b : Bindings) : List Name := b.entries.map Prod.fst

/-- The type that a name is bound to. -/
def get? (b : Bindings) (v : Name) : Option Ty := b.entries.lookup v

/-- Whether nothing is bound. -/
def isEmpty (b : Bindings) : Bool := b.entries.isEmpty

/-- Takes the binding of a name away. -/
def erase (b : Bindings) (v : Name) : Bindings where
  entries := b.entries.filter (·.1 ≠ v)
  nodup := b.nodup.sublist (List.filter_sublist.map _)

/-- Binds a name; an earlier binding of it is replaced. -/
def insert (b : Bindings) (v : Name) (t : Ty) : Bindings where
  entries := (v, t) :: (b.erase v).entries
  nodup := by
    rw [List.map_cons, List.nodup_cons]
    exact ⟨by simp [erase], (b.erase v).nodup⟩

/-- The bindings of a list, the last one counting for each name. -/
def ofList (entries : List (Name × Ty)) : Bindings :=
  entries.foldl (fun b (v, t) => b.insert v t) empty

/-- The free variables of the replacements. -/
def freeVars (b : Bindings) : List Name := b.entries.flatMap (·.2.freeVars)

end Bindings

/-! ## Fresh names -/

/-- The first of `v` followed by `n`, by `n + 1`, … that is not
forbidden, among the next `tries`. -/
def numberedName? (v : Name) (forbidden : List Name) : (tries n : Nat) → Option Name
  | 0, _ => none
  | tries + 1, n =>
    let candidate := v ++ String.ofList (renderNat n [])
    if candidate ∈ forbidden then numberedName? v forbidden tries (n + 1)
    else some candidate

/-- The first of `v`, `v0`, `v1`, … that is not forbidden. One more try
than there are forbidden names is enough. -/
def freshName (v : Name) (forbidden : List Name) : Name :=
  if v ∈ forbidden then
    (numberedName? v forbidden (forbidden.length + 1) 0).getD v
  else v

/-! ## Substitution -/

namespace Ty

/-- Substitutes in a type that stands under quantifiers binding the
names `bound`; `levels` is at least its depth.

A type with nothing to replace is kept. A quantifier ends the scope of
an outer binding of its name. If its name is free in a replacement it is
renamed, which keeps the depth of its body. -/
def substUnder : (levels : Nat) → Bindings → (bound : List Name) → Ty → Ty
  | 0, _, _, t => t
  | levels + 1, b, bound, t =>
    if b.isEmpty || !(t.has .vars || t.has .quantifiers) then t
    else
      match t with
      | .var v => (b.get? v).getD t
      | .forAll v body scope =>
        let b := b.erase v
        if b.isEmpty then t
        else if v ∈ b.freeVars then
          let fresh := freshName v (b.keys ++ bound ++ b.freeVars ++ body.freeVars)
          let renamed := substUnder levels (.single v (.var fresh)) bound body
          .forAll fresh (substUnder levels b (fresh :: bound) renamed) scope
        else .forAll v (substUnder levels b (v :: bound) body) scope
      | .app _ _ | .constrained _ _ | .rowCons _ _ _ | .kinded _ _ =>
        t.rebuild (t.children.map (substUnder levels b bound))
      | _ => t

/-- Replaces the free variables of a type that are bound in `b`, all at
once and without capture. -/
def subst (b : Bindings) (t : Ty) : Ty := substUnder t.depth b [] t

/-- Replaces the free occurrences of one variable. -/
def substOne (v : Name) (replacement t : Ty) : Ty :=
  subst (.single v replacement) t

end Ty

end RowTypes
