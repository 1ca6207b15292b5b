import RowTypes.Traversal.Engine

/-!
# Summaries

A summary computes something of every node and combines what it finds.
`everything` asks each node after its children and combines from the
node over the children, left to right. `everythingWithContext` asks each
node before its children, and a node may hand a changed context down to
them; it runs on a stack of its own, whose tasks keep what the nodes
gave. Both have a form whose functions thread a state.
-/

namespace RowTypes

/-- Lets a computation that cannot fail stand among those that can. -/
def Effect.total {σ ε α : Type} (x : StateM σ α) : Effect σ ε α :=
  fun s => let (a, s) := x s; (.ok a, s)

/-- Runs a computation whose failures have no values. -/
def Effect.infallible {σ α : Type} (x : Effect σ Empty α) : StateM σ α :=
  fun s =>
    match x s with
    | (.ok a, s) => (a, s)

namespace Ty

variable {σ α γ : Type}

/-! ## Plain summaries -/

/-- Combines the value of each node with those of its children, in the
order of the children. -/
def everythingM (combine : α → α → StateM σ α) (f : Ty → StateM σ α)
    (t : Ty) : StateM σ α :=
  Effect.infallible <| evalDescending (ε := Empty)
    (fun u results => Effect.total do
      let own ← f u
      results.foldlM combine own) t

/-- Combines the values of all nodes, each node's from the left with those
of its children. -/
def everything (combine : α → α → α) (f : Ty → α) (t : Ty) : α :=
  (everythingM (σ := Unit) (fun a b => pure (combine a b)) (fun u => pure (f u)) t ()).1

/-- Number of nodes on the longest way from the root to a leaf. -/
def depth (t : Ty) : Nat :=
  everything (fun deepest d => max deepest (d + 1)) (fun _ => 1) t

/-! ## Summaries with a context -/

/-- Something still to be done in a summary with a context. -/
inductive ContextTask (γ α : Type) where
  | visit (context : γ) (t : Ty)
  /-- Combine the given value with as many results as `arity` says. -/
  | combine (arity : Nat) (own : α)

/-- Number of turns that the tasks take. -/
def pendingContext : List (ContextTask γ α) → Nat
  | [] => 0
  | .visit _ t :: k => 2 * t.size + pendingContext k
  | .combine _ _ :: k => 1 + pendingContext k

theorem pendingContext_append (k l : List (ContextTask γ α)) :
    pendingContext (k ++ l) = pendingContext k + pendingContext l := by
  induction k with
  | nil => simp [pendingContext]
  | cons x k ih => cases x <;> simp [pendingContext, ih] <;> omega

theorem pendingContext_visits (context : γ) (ts : List Ty) :
    pendingContext (ts.map (ContextTask.visit (α := α) context)) =
      2 * (ts.map Ty.size).foldr (· + ·) 0 := by
  induction ts with
  | nil => rfl
  | cons t ts ih => simp [pendingContext, ih]; omega

/-- Works off the tasks of a summary with a context. A node without
children combines its value with `zero`. -/
def runContext (combine : α → α → StateM σ α)
    (f : γ → Ty → StateM σ (γ × α)) (zero : α)
    (tasks : List (ContextTask γ α)) (results : List α) (s : σ) :
    Outcome σ Empty α :=
  match tasks with
  | [] =>
    match results with
    | [r] => .finished (.ok r) s
    | _ => .unbalanced
  | .visit context t :: k =>
    match f context t s with
    | ((inner, own), s) =>
      match h : t.children with
      | [] =>
        match combine own zero s with
        | (r, s) => runContext combine f zero k (r :: results) s
      | c :: cs =>
        runContext combine f zero
          ((c :: cs).map (.visit inner) ++ .combine (c :: cs).length own :: k)
          results s
  | .combine n own :: k =>
    match takeResults n [] results with
    | none => .underflow
    | some (rs, results) =>
      match rs.foldlM combine own s with
      | (r, s) => runContext combine f zero k (r :: results) s
termination_by pendingContext tasks
decreasing_by
  · have := Ty.size_eq t
    simp only [pendingContext]
    omega
  · have := Ty.size_eq t
    rw [h] at this
    simp only [pendingContext_append, pendingContext_visits, pendingContext]
    omega
  · simp only [pendingContext]
    omega

section Context

variable (combine : α → α → StateM σ α) (f : γ → Ty → StateM σ (γ × α)) (zero : α)

theorem runContext_visits {ts : List Ty}
    (h : ∀ t ∈ ts, ∀ context k results s, ∃ r s',
      runContext combine f zero (.visit context t :: k) results s =
        runContext combine f zero k (r :: results) s') :
    ∀ context k results s, ∃ (new : List α) (s' : σ), new.length = ts.length ∧
      runContext combine f zero (ts.map (.visit context) ++ k) results s =
        runContext combine f zero k (new.reverse ++ results) s' := by
  induction ts with
  | nil => exact fun _ _ _ s => ⟨[], s, rfl, rfl⟩
  | cons t ts ih =>
    intro context k results s
    obtain ⟨r, s', hr⟩ := h t (by simp) context (ts.map (.visit context) ++ k) results s
    obtain ⟨new, s'', hlen, hnew⟩ :=
      ih (fun u hu => h u (by simp [hu])) context k (r :: results) s'
    exact ⟨r :: new, s'', by simp [hlen], by simpa [hr] using hnew⟩

/-- Visiting a type leaves exactly one result. -/
theorem runContext_visit (t : Ty) : ∀ context k results s, ∃ r s',
    runContext combine f zero (.visit context t :: k) results s =
      runContext combine f zero k (r :: results) s' := by
  induction t using Ty.induction_on_children with
  | step t ih =>
    intro context k results s
    rw [runContext]
    obtain ⟨⟨inner, own⟩, s'⟩ := f context t s
    simp only
    split
    · exact ⟨_, _, rfl⟩
    · rename_i c cs hcs
      rw [← hcs]
      obtain ⟨new, s'', hlen, hnew⟩ :=
        runContext_visits combine f zero ih inner (.combine t.children.length own :: k)
          results s'
      have htake := takeResults_append new.reverse [] results
      rw [List.length_reverse, hlen, List.reverse_reverse, List.append_nil] at htake
      rw [hnew, runContext, htake]
      exact ⟨_, _, rfl⟩

/-- A summary with a context comes to an end with one result. -/
theorem runContext_finished (context : γ) (t : Ty) (s : σ) : ∃ r s',
    runContext combine f zero [.visit context t] [] s = .finished r s' := by
  obtain ⟨r, s', h⟩ := runContext_visit combine f zero t context [] [] s
  exact ⟨.ok r, s', by rw [h, runContext]⟩

/-- Combines the values that all nodes give in their contexts. -/
def everythingWithContextM (context : γ) (t : Ty) : StateM σ α :=
  Effect.infallible fun s =>
    (runContext combine f zero [.visit context t] [] s).value
      (runContext_finished combine f zero context t s)

end Context

/-- Combines the values that all nodes give in their contexts, for
functions without state. -/
def everythingWithContext (combine : α → α → α) (f : γ → Ty → γ × α)
    (zero : α) (context : γ) (t : Ty) : α :=
  (everythingWithContextM (σ := Unit) (fun a b => pure (combine a b))
    (fun c u => pure (f c u)) zero context t ()).1

end Ty

end RowTypes
