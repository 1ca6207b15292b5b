import RowTypes.Ty.Basic

/-!
# Folding with an explicit stack

A `Folder` looks at each node before its children (`visit`) and answers
with a `Step`: go on to the children, go on to those of another node,
start again at another node, or give a result at once. `combine` then
makes a node's result from those of its children. `run` drives a folder
with a stack of tasks and a stack of results, so that no type is too
deep for it; only the number kept in a task says how many results belong
to it. An effect threads a state and may fail.

Steps that lead away from the type being folded need not come to an end,
so they are paid from a budget. A folder that always descends into the
node it looks at needs none (`run_descending`) and so always gives a
result: `evalDescending`.
-/

namespace RowTypes

/-- A computation that threads a state and may fail; a failure keeps the
state it was reached in. -/
abbrev Effect (σ ε : Type) := ExceptT ε (StateM σ)

/-- What to do at a node. -/
inductive Step (α : Type) where
  /-- Fold the children, then combine. -/
  | recurse
  /-- Fold the children of another node, then combine them there. -/
  | recurseInto (t : Ty)
  /-- Give a result without looking at the children. -/
  | done (result : α)
  /-- Fold another type in place of this one. -/
  | replace (t : Ty)

/-- A fold given by what it does before and after the children of each
node. -/
structure Folder (σ ε α : Type) where
  visit : Ty → Effect σ ε (Step α)
  combine : Ty → List α → Effect σ ε α

/-- Something still to be done. -/
inductive Task where
  | visit (t : Ty)
  /-- Combine as many results as `arity` says at the node `t`. -/
  | combine (arity : Nat) (t : Ty)

/-- How a run ends. -/
inductive Outcome (σ ε α : Type) where
  | finished (result : Except ε α) (state : σ)
  /-- Fewer results than a task asks for. -/
  | underflow
  /-- Not exactly one result when all tasks are done. -/
  | unbalanced
  /-- The budget is used up. -/
  | exhausted

/-! ## The machine -/

/-- Takes `n` results off the top of the stack, the oldest of them
first. -/
def takeResults {α : Type} : Nat → List α → List α → Option (List α × List α)
  | 0, taken, stack => some (taken, stack)
  | n + 1, taken, r :: stack => takeResults n (r :: taken) stack
  | _ + 1, _, [] => none

/-- The tasks that fold the children of `t` and combine them, in front of
those that wait. -/
def descend (t : Ty) (waiting : List Task) : List Task :=
  let children := t.children
  children.map Task.visit ++ Task.combine children.length t :: waiting

/-- Number of turns the machine takes for the tasks if every visit
descends. -/
def pending : List Task → Nat
  | [] => 0
  | .visit t :: k => 2 * t.size + pending k
  | .combine _ _ :: k => 1 + pending k

theorem pending_append (k l : List Task) :
    pending (k ++ l) = pending k + pending l := by
  induction k with
  | nil => simp [pending]
  | cons x k ih => cases x <;> simp [pending, ih] <;> omega

theorem pending_visits (ts : List Ty) :
    pending (ts.map Task.visit) = 2 * (ts.map Ty.size).foldr (· + ·) 0 := by
  induction ts with
  | nil => rfl
  | cons t ts ih => simp [pending, ih]; omega

/-- Descending takes one turn. -/
theorem pending_descend (t : Ty) (k : List Task) :
    pending (descend t k) + 1 = pending (.visit t :: k) := by
  simp only [descend, pending_append, pending_visits, pending]
  rw [Ty.size_eq t]
  omega

/-- Drives a folder until all tasks are done. Each step to another node
takes one from the budget. -/
def run {σ ε α : Type} (F : Folder σ ε α) (budget : Nat) (tasks : List Task)
    (results : List α) (s : σ) : Outcome σ ε α :=
  match tasks with
  | [] =>
    match results with
    | [r] => .finished (.ok r) s
    | _ => .unbalanced
  | .visit t :: k =>
    match F.visit t s with
    | (.error e, s) => .finished (.error e) s
    | (.ok .recurse, s) => run F budget (descend t k) results s
    | (.ok (.done r), s) => run F budget k (r :: results) s
    | (.ok (.recurseInto u), s) =>
      match budget with
      | 0 => .exhausted
      | budget + 1 => run F budget (descend u k) results s
    | (.ok (.replace u), s) =>
      match budget with
      | 0 => .exhausted
      | budget + 1 => run F budget (.visit u :: k) results s
  | .combine n t :: k =>
    match takeResults n [] results with
    | none => .underflow
    | some (rs, results) =>
      match F.combine t rs s with
      | (.error e, s) => .finished (.error e) s
      | (.ok r, s) => run F budget k (r :: results) s
termination_by (budget, pending tasks)
decreasing_by
  · exact Prod.Lex.right _ (by have := pending_descend t k; omega)
  · exact Prod.Lex.right _ (by
      have := Ty.size_eq t
      simp only [pending]
      omega)
  · exact Prod.Lex.left _ _ (by omega)
  · exact Prod.Lex.left _ _ (by omega)
  · exact Prod.Lex.right _ (by simp only [pending]; omega)

/-- Folds a type. -/
def Folder.drive {σ ε α : Type} (F : Folder σ ε α) (budget : Nat) (t : Ty)
    (s : σ) : Outcome σ ε α :=
  run F budget [.visit t] [] s

/-! ## Folders that always descend -/

/-- The folder that goes down to the leaves everywhere. -/
def Folder.descending {σ ε α : Type} (combine : Ty → List α → Effect σ ε α) :
    Folder σ ε α :=
  ⟨fun _ => pure .recurse, combine⟩

theorem takeResults_append {α : Type} (top taken stack : List α) :
    takeResults top.length taken (top ++ stack) =
      some (top.reverse ++ taken, stack) := by
  induction top generalizing taken with
  | nil => rfl
  | cons r top ih => simp [takeResults, ih]

section Descending

variable {σ ε α : Type} (combine : Ty → List α → Effect σ ε α)

/-- Visiting a type ends the run with an error or leaves one result. -/
def Settles (t : Ty) : Prop :=
  ∀ budget k results s,
    (∃ e s', run (.descending combine) budget (.visit t :: k) results s =
      .finished (.error e) s') ∨
    (∃ r s', run (.descending combine) budget (.visit t :: k) results s =
      run (.descending combine) budget k (r :: results) s')

theorem run_visits {ts : List Ty} (h : ∀ t ∈ ts, Settles combine t) :
    ∀ budget k results s,
      (∃ e s', run (.descending combine) budget (ts.map .visit ++ k) results s =
        .finished (.error e) s') ∨
      (∃ (new : List α) (s' : σ), new.length = ts.length ∧
        run (.descending combine) budget (ts.map .visit ++ k) results s =
          run (.descending combine) budget k (new.reverse ++ results) s') := by
  induction ts with
  | nil => exact fun _ _ _ s => .inr ⟨[], s, rfl, rfl⟩
  | cons t ts ih =>
    intro budget k results s
    rcases h t (by simp) budget (ts.map .visit ++ k) results s with
      ⟨e, s', he⟩ | ⟨r, s', hr⟩
    · exact .inl ⟨e, s', by simpa using he⟩
    · rcases ih (fun u hu => h u (by simp [hu])) budget k (r :: results) s' with
        ⟨e, s'', he⟩ | ⟨new, s'', hlen, hnew⟩
      · exact .inl ⟨e, s'', by simpa [hr] using he⟩
      · exact .inr ⟨r :: new, s'', by simp [hlen], by simpa [hr] using hnew⟩

theorem settles (t : Ty) : Settles combine t := by
  induction t using Ty.induction_on_children with
  | step t ih =>
    intro budget k results s
    have hvisit : run (.descending combine) budget (.visit t :: k) results s =
        run (.descending combine) budget (descend t k) results s := by
      rw [run]
      rfl
    rw [hvisit, descend]
    rcases run_visits combine ih budget (.combine t.children.length t :: k) results s
      with ⟨e, s', he⟩ | ⟨new, s', hlen, hnew⟩
    · exact .inl ⟨e, s', he⟩
    · have htake := takeResults_append new.reverse [] results
      rw [List.length_reverse, hlen, List.reverse_reverse, List.append_nil] at htake
      rw [hnew, run, htake]
      rcases hc : combine t new s' with ⟨e | r, s''⟩
      · exact .inl ⟨e, s'', by simp [Folder.descending, hc]⟩
      · exact .inr ⟨r, s'', by simp [Folder.descending, hc]⟩

/-- A folder that always descends comes to an end, whatever the
budget. -/
theorem run_descending (budget : Nat) (t : Ty) (s : σ) :
    ∃ r s', (Folder.descending combine).drive budget t s = .finished r s' := by
  rcases settles combine t budget [] [] s with ⟨e, s', h⟩ | ⟨r, s', h⟩
  · exact ⟨_, _, h⟩
  · exact ⟨.ok r, s', by rw [Folder.drive, h, run]⟩

/-- The result of a run that has ended. -/
def Outcome.value (o : Outcome σ ε α) (h : ∃ r s, o = .finished r s) :
    Except ε α × σ :=
  match o with
  | .finished r s => (r, s)
  | .underflow => absurd h (by simp)
  | .unbalanced => absurd h (by simp)
  | .exhausted => absurd h (by simp)

/-- The result of folding a type by a folder that always descends. -/
def evalDescending (t : Ty) : Effect σ ε α := fun s =>
  ((Folder.descending combine).drive 0 t s).value (run_descending combine 0 t s)

end Descending

end RowTypes
