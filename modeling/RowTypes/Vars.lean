import RowTypes.Traversal.Summary
import RowTypes.Ty.Flags

/-!
# Variables

The variables that occur in a type. `usedVars` lists those of all
variable nodes; `freeVars` only those that no quantifier binds, and none
from inside a display-only form. Both list each name once, in order of
first occurrence. The free ones are collected in one state, whose set of
bound names every quantifier changes and puts right again (`Collector`).
-/

namespace RowTypes

namespace Ty

/-- The names at the variable nodes, each once. -/
def usedVars (t : Ty) : List Name :=
  (everything (· ++ ·) (fun | .var v => [v] | _ => []) t).eraseDups

/-- Whether a type has a gap somewhere. -/
def containsWildcards (t : Ty) : Bool :=
  everything (· || ·) (fun | .wildcard => true | _ => false) t

end Ty

/-! ## Free variables -/

/-- What is kept while the free variables are collected. -/
structure Collector where
  /-- The names that the quantifiers around bind. -/
  bound : NameSet
  /-- The free names met, in order of first occurrence. -/
  free : List Name
  /-- The same names again, to be looked up. -/
  seen : NameSet

namespace Collector

/-- Nothing is bound and nothing was met. -/
def start : Collector := ⟨.empty, [], .empty⟩

/-- Meets a variable. One that is free is listed the first time. -/
def note (s : Collector) (v : Name) : Collector :=
  if v ∈ s.bound then s
  else
    match s.seen.insert v with
    | (true, seen) => { s with free := s.free ++ [v], seen }
    | (false, _) => s

/-- Goes through what stands below a quantifier, by `body`. A name that
was bound before stays bound after it. -/
def under (s : Collector) (v : Name) (body : Collector → Collector) : Collector :=
  match s.bound.insert v with
  | (true, bound) =>
    let s := body { s with bound }
    { s with bound := s.bound.erase v }
  | (false, _) => body s

end Collector

namespace Ty

/-- Goes through a type. One without variables is passed over. -/
def collect : Ty → Collector → Collector :=
  fold fun t children s =>
    if t.has .vars then
      match t with
      | .var v => s.note v
      | .forAll v _ _ => s.under v fun s => children.foldl (fun s c => c s) s
      | .app _ _ | .constrained _ _ | .rowCons _ _ _ | .kinded _ _ =>
        children.foldl (fun s c => c s) s
      | _ => s
    else s

/-- The variables that no enclosing quantifier binds. -/
def freeVars (t : Ty) : List Name := (t.collect .start).free

end Ty

end RowTypes
