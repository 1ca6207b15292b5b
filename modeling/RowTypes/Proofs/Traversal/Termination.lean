import RowTypes.Proofs.Traversal.Calls

/-!
# Rewrites parents first that end

Parents first, a rewrite goes on with the children of whatever the step
answers, so the type it began with is no measure of what is left to do.
The measure is the number of nodes that wait on the task stack
(`waiting`), siblings still to be visited and children of answers alike.
A call takes a type off the stack and puts the children of its answer
there; if the answer is no larger than the type, at least one node is
gone (`waiting_descend`). So a step that never grows a type is called at
most once for each node of the type (`rewriteDownM_ends`), while a step
none of whose answers is a leaf is called forever
(`NeverSettles.rewriteDownM_eq`).
-/

namespace RowTypes

namespace Ty

variable {σ ε : Type}

/-! ## Nodes that wait -/

/-- Number of nodes in the types that wait to be visited. -/
def waiting : List Task → Nat
  | [] => 0
  | .visit t :: k => t.size + waiting k
  | .combine _ _ :: k => waiting k

theorem waiting_append (k l : List Task) : waiting (k ++ l) = waiting k + waiting l := by
  induction k with
  | nil => simp [waiting]
  | cons x k ih => cases x <;> simp [waiting, ih, Nat.add_assoc]

theorem waiting_visits (ts : List Ty) :
    waiting (ts.map Task.visit) = (ts.map size).foldr (· + ·) 0 := by
  induction ts with
  | nil => rfl
  | cons t ts ih => simp [waiting, ih]

/-- The children of a node are one node less than the node. -/
theorem waiting_descend (t : Ty) (k : List Task) :
    waiting (descend t k) + 1 = t.size + waiting k := by
  rw [descend, waiting_append, waiting_visits, waiting, size_eq t]
  omega

/-! ## Steps that never grow a type -/

/-- No answer of the step has more nodes than the type it was given. -/
def NeverGrows (f : Ty → Effect σ ε Ty) : Prop :=
  ∀ t s u s₁, f t s = (.ok u, s₁) → u.size ≤ t.size

theorem NeverGrows.recorded {f : Ty → Effect σ ε Ty} (hf : NeverGrows f) :
    NeverGrows (recorded f) := by
  rintro t ⟨s, calls⟩ u s₁ h
  have hanswer : (f t s).1 = .ok u := congrArg Prod.fst h
  exact hf t s u (f t s).2 (Prod.ext hanswer rfl)

/-- The run does not use up its budget, and if it ends, then in a state
where no more than `limit` is counted. -/
def EndsWithin (count : σ → Nat) (limit : Nat) : Outcome σ ε Ty → Prop
  | .finished _ s => count s ≤ limit
  | .exhausted => False
  | _ => True

section Counting

variable {f : Ty → Effect σ ε Ty} {count : σ → Nat}

/-- What a call counts for at most once is counted at most as often as
nodes wait. The invariant of the machine: the budget and what may still
be counted both cover the nodes that wait. -/
theorem run_endsWithin (hf : NeverGrows f) (hcount : ∀ t s, count (f t s).2 ≤ count s + 1)
    {limit : Nat} (budget : Nat) (tasks : List Task) (results : List Ty) (s : σ)
    (hbudget : waiting tasks ≤ budget) (hlimit : count s + waiting tasks ≤ limit) :
    EndsWithin count limit (run (topDown f) budget tasks results s) := by
  induction budget, tasks, results, s using run.induct (topDown f) with
  | case1 budget s r =>
      rw [run_nil]
      exact hlimit
  | case2 budget results s hne =>
      unfold run
      split
      · next r => exact absurd rfl (hne r)
      · trivial
  | case3 budget results s t k e s₁ hv =>
      have hcall : count s₁ ≤ count s + 1 := by
        simpa only [visit_eq_error_iff.mp hv] using hcount t s
      rw [run_fail _ hv]
      have hpos := size_pos t
      simp only [waiting] at hlimit
      exact Nat.le_trans hcall (by omega)
  | case4 budget results s t k s₁ hv ih => simp [visit_eq_ok_iff] at hv
  | case5 budget results s t k r s₁ hv ih => simp [visit_eq_ok_iff] at hv
  | case6 results s t k u s₁ hv =>
      -- No call is left, yet the type on top of the stack still waits.
      have hpos := size_pos t
      simp only [waiting] at hbudget
      omega
  | case7 results s t k u s₁ hv budget ih =>
      have hanswer := visit_eq_recurseInto_iff.mp hv
      have hsize := hf t s u s₁ hanswer
      have hcall : count s₁ ≤ count s + 1 := by simpa only [hanswer] using hcount t s
      have hdescend := waiting_descend u k
      simp only [waiting] at hbudget hlimit
      rw [run_recurseInto _ hv]
      exact ih (by omega) (by omega)
  | case8 results s t k u s₁ hv => simp [visit_eq_ok_iff] at hv
  | case9 results s t k u s₁ hv budget ih => simp [visit_eq_ok_iff] at hv
  | case10 budget results s n t k hn =>
      rw [run, hn]
      trivial
  | case11 budget results s n t k rs results' hn e s₁ hc => cases hc
  | case12 budget results s n t k rs results' hn r s₁ hc ih =>
      cases hc
      rw [run, hn]
      exact ih hbudget hlimit

theorem rewriteDownM_endsWithin (count : σ → Nat) (hf : NeverGrows f)
    (hcount : ∀ t s, count (f t s).2 ≤ count s + 1) {t : Ty} {calls : Nat}
    (hle : t.size ≤ calls) (s : σ) :
    EndsWithin count (count s + t.size) (rewriteDownM calls f t s) :=
  run_endsWithin hf hcount calls [.visit t] [] s hle (Nat.le_refl _)

end Counting

section Ending

variable {f : Ty → Effect σ ε Ty} {t : Ty} {s s' : σ} {r : Except ε Ty}

/-- There is one way for a rewrite to end. -/
theorem Downward.unique {r₁ : Except ε Ty} {s₁ : σ} (h : Downward f t s r s')
    (h₁ : Downward f t s r₁ s₁) : r = r₁ ∧ s' = s₁ := by
  obtain ⟨cost, hrun⟩ := (downward_iff f t s r s').mp h
  obtain ⟨cost₁, hrun₁⟩ := (downward_iff f t s r₁ s₁).mp h₁
  have heq := (hrun cost₁).symm.trans (Nat.add_comm cost cost₁ ▸ hrun₁ cost)
  cases heq
  exact ⟨rfl, rfl⟩

/-- As many calls as there are nodes are enough. -/
theorem exists_downward (hf : NeverGrows f) {calls : Nat} (hle : t.size ≤ calls) (s : σ) :
    ∃ r s', rewriteDownM calls f t s = .finished r s' ∧ Downward f t s r s' := by
  have hends := rewriteDownM_endsWithin (fun _ => 0) hf (fun _ _ => Nat.zero_le _) hle s
  rcases rewriteDownM_cases f t s calls with hexhausted | hfinished
  · rw [hexhausted] at hends
    exact hends.elim
  · exact hfinished

theorem Downward.rewriteDownM_eq (h : Downward f t s r s') (hf : NeverGrows f) {calls : Nat}
    (hle : t.size ≤ calls) : rewriteDownM calls f t s = .finished r s' := by
  obtain ⟨r₁, s₁, hrun, h₁⟩ := exists_downward hf hle s
  obtain ⟨rfl, rfl⟩ := h.unique h₁
  exact hrun

end Ending

/-- If the step never grows a type, a rewrite parents first comes to an
end after at most one call for each node of the type, the failing one
included if there is one. -/
theorem rewriteDownM_ends {f : Ty → Effect σ ε Ty} (hf : NeverGrows f) (t : Ty) (s : σ) :
    ∃ r s' calls, calls.length ≤ t.size ∧ Stops r calls ∧ ∀ more,
      rewriteDownM (t.size + more) f t s = .finished r s' ∧
        rewriteDownM (t.size + more) (recorded f) t (s, []) = .finished r (s', calls) := by
  obtain ⟨r, s', -, h⟩ := exists_downward hf (Nat.le_refl t.size) s
  obtain ⟨calls, hrecorded, hstops⟩ := h.recorded []
  have hends := rewriteDownM_endsWithin (fun p => p.2.length) hf.recorded
    (fun u p => by simp [recorded]) (Nat.le_refl t.size) (s, [])
  rw [hrecorded.rewriteDownM_eq hf.recorded (Nat.le_refl t.size)] at hends
  refine ⟨r, s', calls, by simpa [EndsWithin] using hends, hstops, fun more => ⟨?_, ?_⟩⟩
  · exact h.rewriteDownM_eq hf (Nat.le_add_right ..)
  · exact hrecorded.rewriteDownM_eq hf.recorded (Nat.le_add_right ..)

/-- A step that takes quantifiers off, counts them and fails at a gap. Of
eight nodes it is not called on the body that takes its quantifier's
place, nor on what comes after the gap. -/
theorem rewriteDownM_ends_unquantifying :
    let f : Ty → Effect Nat String Ty := fun t n =>
      match t with
      | .forAll _ body _ => (.ok body, n + 1)
      | .wildcard => (.error "gap", n)
      | t => (.ok t, n)
    let t : Ty := .app (.forAll "a" (.app (.var "a") (.var "b")) none) (.app .wildcard (.var "c"))
    NeverGrows f ∧ ∃ r s' calls, calls.length ≤ t.size ∧ Stops r calls ∧ ∀ more,
      rewriteDownM (t.size + more) f t 0 = .finished r s' ∧
        rewriteDownM (t.size + more) (recorded f) t (0, []) = .finished r (s', calls) := by
  intro f t
  have hf : NeverGrows f := by
    intro t n u n' h
    cases t with
    | forAll v body scope =>
        cases h
        exact Nat.le_of_lt (size_child_lt List.mem_cons_self)
    | wildcard => cases h
    | _ =>
        cases h
        exact Nat.le_refl _
  exact ⟨hf, rewriteDownM_ends hf t 0⟩

/-! ## Steps that always grow a type -/

/-- The step never fails, and none of its answers is a leaf. -/
def NeverSettles (f : Ty → Effect σ ε Ty) : Prop :=
  ∀ t s, ∃ u s₁, f t s = (.ok u, s₁) ∧ u.children ≠ []

section Growing

variable {f : Ty → Effect σ ε Ty}

theorem NeverSettles.children_ne_nil (hf : NeverSettles f) {t u : Ty} {s s₁ : σ}
    (h : f t s = (.ok u, s₁)) : u.children ≠ [] := by
  obtain ⟨u', s', hanswer, hne⟩ := hf t s
  rw [h] at hanswer
  cases hanswer
  exact hne

mutual

theorem NeverSettles.not_downward (hf : NeverSettles f) : ∀ {t : Ty} {s s' : σ} {r : Except ε Ty},
    ¬ Downward f t s r s'
  | t, s, _, _, .fail h => by
      obtain ⟨u, s₁, hanswer, -⟩ := hf t s
      rw [h] at hanswer
      cases hanswer
  | _, _, _, _, .failBelow h hus => hf.not_downwardAll (hf.children_ne_nil h) hus
  | _, _, _, _, .rebuild h hus => hf.not_downwardAll (hf.children_ne_nil h) hus

theorem NeverSettles.not_downwardAll (hf : NeverSettles f) :
    ∀ {ts : List Ty} {s s' : σ} {rs : Except ε (List Ty)},
      ts ≠ [] → ¬ DownwardAll f ts s rs s'
  | _, _, _, _, hne, .nil => hne rfl
  | _, _, _, _, _, .failHead ht => hf.not_downward ht
  | _, _, _, _, _, .failTail ht _ => hf.not_downward ht
  | _, _, _, _, _, .cons ht _ => hf.not_downward ht

end

/-- If the step never settles, a rewrite parents first comes to no end,
however many calls it is given. -/
theorem NeverSettles.rewriteDownM_eq (hf : NeverSettles f) (calls : Nat) (t : Ty) (s : σ) :
    rewriteDownM calls f t s = .exhausted := by
  rcases rewriteDownM_cases f t s calls with hexhausted | ⟨r, s', -, h⟩
  · exact hexhausted
  · exact (hf.not_downward h).elim

end Growing

end Ty

end RowTypes
