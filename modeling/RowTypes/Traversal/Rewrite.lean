import RowTypes.Traversal.Engine

/-!
# Rewriting everywhere

A rewrite applies one step to every node of a type. Bottom-up, the step
sees each node with its children already rewritten, and its answer is
not looked at again. Top-down, the step sees each node first, and its
answer's children are rewritten next; since an answer may be larger than
the node, this form has a budget of calls.
-/

namespace RowTypes

namespace Ty

variable {σ ε : Type}

/-- Applies `step` to every node, children before parents. -/
def rewriteUpM (step : Ty → Effect σ ε Ty) (t : Ty) : Effect σ ε Ty :=
  evalDescending (fun u children => step (u.rebuild children)) t

/-- Replaces every node by its image under `step`, children before
parents. -/
def rewriteUp (step : Ty → Ty) (t : Ty) : Ty :=
  match rewriteUpM (σ := Unit) (ε := Empty) (fun u => pure (step u)) t () with
  | (.ok u, _) => u

/-- The folder that descends into the answer of `step`. -/
def topDown (step : Ty → Effect σ ε Ty) : Folder σ ε Ty where
  visit t := do return .recurseInto (← step t)
  combine t children := pure (t.rebuild children)

/-- Applies `step` to every node, parents before children, at most
`calls` times. -/
def rewriteDownM (calls : Nat) (step : Ty → Effect σ ε Ty) (t : Ty) :
    σ → Outcome σ ε Ty :=
  (topDown step).drive calls t

/-- Replaces every node by its image under `step`, parents before
children; `none` if that takes more than `calls` calls. -/
def rewriteDown (calls : Nat) (step : Ty → Ty) (t : Ty) : Option Ty :=
  match rewriteDownM (σ := Unit) (ε := Empty) calls (fun u => pure (step u)) t () with
  | .finished (.ok u) _ => some u
  | _ => none

end Ty

end RowTypes
