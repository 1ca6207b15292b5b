import RowTypes.Traversal.Engine

/-!
# Recursive evaluation of folds

What a folder means without any stack: `Evaluates` visits a node, then
evaluates the children that the answer asks for from left to right, and
combines their results; the first error ends it. An evaluation may not
end, so it is a relation.

The machine `run` computes exactly this relation
(`drive_finished_iff_evaluates`). The invariant is `Tracks`: whatever
waits on the task stack and whatever results lie below, visiting a type
either uses up the budget or comes to where the evaluation of that type
ends, with at most the same budget and, unless there was an error, with
exactly one more result.
-/

namespace RowTypes

variable {σ ε α β : Type}

/-! ## The relation -/

mutual

/-- Evaluating a type from a state ends with a result or an error, in
another state. -/
inductive Evaluates (F : Folder σ ε α) : Ty → σ → Except ε α → σ → Prop
  | fail {t s e s'} (hv : F.visit t s = (.error e, s')) :
      Evaluates F t s (.error e) s'
  | done {t s r s'} (hv : F.visit t s = (.ok (.done r), s')) :
      Evaluates F t s (.ok r) s'
  | replace {t u s s₁ r s'} (hv : F.visit t s = (.ok (.replace u), s₁))
      (hu : Evaluates F u s₁ r s') : Evaluates F t s r s'
  | recurse {t s s₁ r s'} (hv : F.visit t s = (.ok .recurse, s₁))
      (ht : Completes F t s₁ r s') : Evaluates F t s r s'
  | recurseInto {t u s s₁ r s'} (hv : F.visit t s = (.ok (.recurseInto u), s₁))
      (hu : Completes F u s₁ r s') : Evaluates F t s r s'

/-- Evaluating the children of a node and combining their results ends
with a result or an error. -/
inductive Completes (F : Folder σ ε α) : Ty → σ → Except ε α → σ → Prop
  | fail {t s e s'} (hc : EvaluatesAll F t.children s (.error e) s') :
      Completes F t s (.error e) s'
  | combine {t s rs s₁ r s'} (hc : EvaluatesAll F t.children s (.ok rs) s₁)
      (hr : F.combine t rs s₁ = (r, s')) : Completes F t s r s'

/-- Evaluating types one after the other ends with all their results, or
with the first error. -/
inductive EvaluatesAll (F : Folder σ ε α) :
    List Ty → σ → Except ε (List α) → σ → Prop
  | nil {s} : EvaluatesAll F [] s (.ok []) s
  | failHead {t ts s e s'} (ht : Evaluates F t s (.error e) s') :
      EvaluatesAll F (t :: ts) s (.error e) s'
  | failTail {t ts s r s₁ e s'} (ht : Evaluates F t s (.ok r) s₁)
      (hts : EvaluatesAll F ts s₁ (.error e) s') :
      EvaluatesAll F (t :: ts) s (.error e) s'
  | cons {t ts s r s₁ rs s'} (ht : Evaluates F t s (.ok r) s₁)
      (hts : EvaluatesAll F ts s₁ (.ok rs) s') :
      EvaluatesAll F (t :: ts) s (.ok (r :: rs)) s'

end

theorem EvaluatesAll.length_eq {F : Folder σ ε α} :
    ∀ {ts : List Ty} {s s' : σ} {rs : List α},
      EvaluatesAll F ts s (.ok rs) s' → rs.length = ts.length
  | [], _, _, _, .nil => rfl
  | _ :: _, _, _, _, .cons _ hts => by
      rw [List.length_cons, List.length_cons, hts.length_eq]

/-! ## Turns of the machine -/

/-- What becomes of a run once some part of it is evaluated: an error
ends it, and with a result it goes on. -/
def goOn (next : β → σ → Outcome σ ε α) : Except ε β → σ → Outcome σ ε α
  | .error e, s => .finished (.error e) s
  | .ok b, s => next b s

section Turns

variable (F : Folder σ ε α) {budget : Nat} {k : List Task} {results : List α}
  {t u : Ty} {s s₁ : σ}

theorem run_nil (r : α) : run F budget [] [r] s = .finished (.ok r) s := by
  rw [run]

theorem run_fail {e : ε} (hv : F.visit t s = (.error e, s₁)) :
    run F budget (.visit t :: k) results s = .finished (.error e) s₁ := by
  rw [run, hv]

theorem run_done {r : α} (hv : F.visit t s = (.ok (.done r), s₁)) :
    run F budget (.visit t :: k) results s = run F budget k (r :: results) s₁ := by
  rw [run, hv]

theorem run_recurse (hv : F.visit t s = (.ok .recurse, s₁)) :
    run F budget (.visit t :: k) results s = run F budget (descend t k) results s₁ := by
  rw [run, hv]

theorem run_recurseInto (hv : F.visit t s = (.ok (.recurseInto u), s₁)) :
    run F (budget + 1) (.visit t :: k) results s =
      run F budget (descend u k) results s₁ := by
  rw [run, hv]

theorem run_replace (hv : F.visit t s = (.ok (.replace u), s₁)) :
    run F (budget + 1) (.visit t :: k) results s =
      run F budget (.visit u :: k) results s₁ := by
  rw [run, hv]

/-- The results of the children lie on top of the stack, the last of them
first. -/
theorem run_combine {rs : List α} (hlen : rs.length = t.children.length) :
    run F budget (.combine t.children.length t :: k) (rs.reverse ++ results) s =
      goOn (fun r s' => run F budget k (r :: results) s')
        (F.combine t rs s).1 (F.combine t rs s).2 := by
  have htake := takeResults_append rs.reverse [] results
  rw [List.length_reverse, hlen, List.reverse_reverse, List.append_nil] at htake
  rw [run, htake]
  rcases hc : F.combine t rs s with ⟨_ | r, s'⟩ <;> simp [goOn, hc]

end Turns

/-! ## Every run follows the evaluation -/

/-- An outcome of a run tracks an evaluation: the budget is used up, or
the evaluation ends and the run ends with its error or goes on from its
result with what is left of the budget. -/
inductive Tracks (budget : Nat) (ends : Except ε β → σ → Prop)
    (next : Nat → β → σ → Outcome σ ε α) : Outcome σ ε α → Prop
  | exhausted : Tracks budget ends next .exhausted
  | ended {left r s'} (hle : left ≤ budget) (hr : ends r s') :
      Tracks budget ends next (goOn (next left) r s')

/-- Visiting a type tracks its evaluation, whatever waits and whatever
results lie below. -/
def TracksVisit (F : Folder σ ε α) (budget : Nat) (t : Ty) : Prop :=
  ∀ k results s, Tracks budget (Evaluates F t s)
    (fun left r s' => run F left k (r :: results) s')
    (run F budget (.visit t :: k) results s)

section Tracking

variable {F : Folder σ ε α} {budget : Nat}

theorem Tracks.mono {b : Nat} {ends : Except ε β → σ → Prop}
    {next : Nat → β → σ → Outcome σ ε α} {o : Outcome σ ε α} (hle : b ≤ budget)
    {ends' : Except ε β → σ → Prop} (hends : ∀ r s', ends r s' → ends' r s')
    (h : Tracks b ends next o) : Tracks budget ends' next o := by
  cases h with
  | exhausted => exact .exhausted
  | ended hleft hr => exact .ended (Nat.le_trans hleft hle) (hends _ _ hr)

theorem tracks_visits {ts : List Ty} {left : Nat} (hle : left ≤ budget)
    (h : ∀ b ≤ budget, ∀ t ∈ ts, TracksVisit F b t)
    (k : List Task) (results : List α) (s : σ) :
    Tracks left (EvaluatesAll F ts s)
      (fun left rs s' => run F left k (rs.reverse ++ results) s')
      (run F left (ts.map .visit ++ k) results s) := by
  induction ts generalizing left results s with
  | nil => exact .ended (r := .ok []) (Nat.le_refl left) .nil
  | cons t ts ih =>
      have hhead := h left hle t (List.mem_cons_self ..) (ts.map .visit ++ k) results s
      rw [List.map_cons, List.cons_append]
      generalize run F left (.visit t :: (ts.map .visit ++ k)) results s = o at hhead ⊢
      cases hhead with
      | exhausted => exact .exhausted
      | @ended left₁ r s₁ hle₁ hr =>
          cases r with
          | error e => exact .ended (r := .error e) hle₁ (.failHead hr)
          | ok r =>
              have htail := ih (Nat.le_trans hle₁ hle)
                (fun b hb u hu => h b hb u (List.mem_cons_of_mem _ hu)) (r :: results) s₁
              simp only [goOn]
              generalize run F left₁ (ts.map .visit ++ k) (r :: results) s₁ = o at htail ⊢
              cases htail with
              | exhausted => exact .exhausted
              | @ended left₂ rs s₂ hle₂ hrs =>
                  cases rs with
                  | error e =>
                      exact .ended (r := .error e) (Nat.le_trans hle₂ hle₁) (.failTail hr hrs)
                  | ok rs =>
                      have hstack : rs.reverse ++ r :: results = (r :: rs).reverse ++ results := by
                        simp
                      simp only [goOn]
                      rw [hstack]
                      exact .ended (r := .ok (r :: rs)) (Nat.le_trans hle₂ hle₁) (.cons hr hrs)

theorem tracks_descend {t : Ty} (h : ∀ b ≤ budget, ∀ c ∈ t.children, TracksVisit F b c)
    (k : List Task) (results : List α) (s : σ) :
    Tracks budget (Completes F t s) (fun left r s' => run F left k (r :: results) s')
      (run F budget (descend t k) results s) := by
  have hkids := tracks_visits (Nat.le_refl budget) h
    (.combine t.children.length t :: k) results s
  rw [descend]
  generalize run F budget (t.children.map .visit ++ .combine t.children.length t :: k)
    results s = o at hkids ⊢
  cases hkids with
  | exhausted => exact .exhausted
  | @ended left rs s₁ hle hrs =>
      cases rs with
      | error e => exact .ended (r := .error e) hle (.fail hrs)
      | ok rs =>
          simp only [goOn]
          rw [run_combine F hrs.length_eq]
          exact .ended hle (.combine hrs rfl)

/-- The invariant of the machine, by induction on the budget and, within
one budget, on the type. -/
theorem tracks_visit (budget : Nat) : ∀ t, TracksVisit F budget t := by
  induction budget using Nat.strongRecOn with
  | _ budget ihb =>
      intro t
      induction t using Ty.induction_on_children with
      | step t iht =>
          intro k results s
          have hkids : ∀ b ≤ budget, ∀ c ∈ t.children, TracksVisit F b c := by
            intro b hb c hc
            rcases Nat.lt_or_eq_of_le hb with hlt | rfl
            · exact ihb b hlt c
            · exact iht c hc
          rcases hv : F.visit t s with ⟨e | step, s₁⟩
          · rw [run_fail F hv]
            exact .ended (r := .error e) (Nat.le_refl budget) (.fail hv)
          · cases step with
            | recurse =>
                rw [run_recurse F hv]
                exact (tracks_descend hkids k results s₁).mono (Nat.le_refl budget)
                  fun _ _ => .recurse hv
            | done r =>
                rw [run_done F hv]
                exact .ended (r := .ok r) (Nat.le_refl budget) (.done hv)
            | recurseInto u =>
                cases budget with
                | zero => rw [run, hv]; exact .exhausted
                | succ b =>
                    rw [run_recurseInto F hv]
                    exact (tracks_descend (fun b' hb' c _ => ihb b' (by omega) c)
                      k results s₁).mono (Nat.le_succ b) fun _ _ => .recurseInto hv
            | replace u =>
                cases budget with
                | zero => rw [run, hv]; exact .exhausted
                | succ b =>
                    rw [run_replace F hv]
                    exact (ihb b (Nat.lt_succ_self b) u k results s₁).mono (Nat.le_succ b)
                      fun _ _ => .replace hv

end Tracking

/-! ## Every evaluation is run -/

section Running

variable {F : Folder σ ε α}

mutual

/-- Where an evaluation ends the machine comes to, given enough of a
budget for the steps that lead away from the type. -/
theorem Evaluates.run_eq : ∀ {t : Ty} {s s' : σ} {r : Except ε α},
    Evaluates F t s r s' → ∃ cost, ∀ budget k results,
      run F (budget + cost) (.visit t :: k) results s =
        goOn (fun r s' => run F budget k (r :: results) s') r s'
  | _, _, _, _, .fail hv => ⟨0, fun _ _ _ => run_fail F hv⟩
  | _, _, _, _, .done hv => ⟨0, fun _ _ _ => run_done F hv⟩
  | _, _, _, _, .replace hv hu => by
      obtain ⟨cost, h⟩ := hu.run_eq
      exact ⟨cost + 1, fun budget k results => by
        rw [← Nat.add_assoc, run_replace F hv, h]⟩
  | _, _, _, _, .recurse hv ht => by
      obtain ⟨cost, h⟩ := ht.run_eq
      exact ⟨cost, fun budget k results => by rw [run_recurse F hv, h]⟩
  | _, _, _, _, .recurseInto hv hu => by
      obtain ⟨cost, h⟩ := hu.run_eq
      exact ⟨cost + 1, fun budget k results => by
        rw [← Nat.add_assoc, run_recurseInto F hv, h]⟩

theorem Completes.run_eq : ∀ {t : Ty} {s s' : σ} {r : Except ε α},
    Completes F t s r s' → ∃ cost, ∀ budget k results,
      run F (budget + cost) (descend t k) results s =
        goOn (fun r s' => run F budget k (r :: results) s') r s'
  | t, _, _, _, .fail hc => by
      obtain ⟨cost, h⟩ := hc.run_eq
      exact ⟨cost, fun budget k results => by rw [descend, h]; rfl⟩
  | t, _, _, _, .combine hc hr => by
      obtain ⟨cost, h⟩ := hc.run_eq
      exact ⟨cost, fun budget k results => by
        rw [descend, h, goOn, run_combine F hc.length_eq, hr]⟩

theorem EvaluatesAll.run_eq : ∀ {ts : List Ty} {s s' : σ} {rs : Except ε (List α)},
    EvaluatesAll F ts s rs s' → ∃ cost, ∀ budget k results,
      run F (budget + cost) (ts.map .visit ++ k) results s =
        goOn (fun rs s' => run F budget k (rs.reverse ++ results) s') rs s'
  | _, _, _, _, .nil => ⟨0, fun _ _ _ => rfl⟩
  | _, _, _, _, .failHead ht => by
      obtain ⟨cost, h⟩ := ht.run_eq
      exact ⟨cost, fun budget k results => h budget _ results⟩
  | _, _, _, _, .failTail ht hts => by
      obtain ⟨cost₁, h₁⟩ := ht.run_eq
      obtain ⟨cost₂, h₂⟩ := hts.run_eq
      exact ⟨cost₂ + cost₁, fun budget k results => by
        rw [← Nat.add_assoc, List.map_cons, List.cons_append, h₁]
        exact h₂ budget k (_ :: results)⟩
  | _, _, _, _, .cons ht hts => by
      obtain ⟨cost₁, h₁⟩ := ht.run_eq
      obtain ⟨cost₂, h₂⟩ := hts.run_eq
      exact ⟨cost₂ + cost₁, fun budget k results => by
        rw [← Nat.add_assoc, List.map_cons, List.cons_append, h₁]
        simpa [goOn] using h₂ budget k (_ :: results)⟩

end

/-- More of a budget changes nothing in a run that does not use it up. -/
theorem run_add (more : Nat) (budget : Nat) (tasks : List Task) (results : List α) (s : σ) :
    run F budget tasks results s = .exhausted ∨
      run F (budget + more) tasks results s = run F budget tasks results s := by
  induction budget, tasks, results, s using run.induct F with
  | case1 budget s r => right; rw [run, run]
  | case2 budget results s hne =>
      right
      unfold run
      rfl
  | case3 budget results s t k e s₁ hv => right; rw [run_fail F hv, run_fail F hv]
  | case4 budget results s t k s₁ hv ih => rwa [run_recurse F hv, run_recurse F hv]
  | case5 budget results s t k r s₁ hv ih => rwa [run_done F hv, run_done F hv]
  | case6 results s t k u s₁ hv => left; rw [run, hv]
  | case7 results s t k u s₁ hv budget ih =>
      rwa [Nat.succ_add, run_recurseInto F hv, run_recurseInto F hv]
  | case8 results s t k u s₁ hv => left; rw [run, hv]
  | case9 results s t k u s₁ hv budget ih =>
      rwa [Nat.succ_add, run_replace F hv, run_replace F hv]
  | case10 budget results s n t k hn => right; rw [run, run, hn]
  | case11 budget results s n t k rs results' hn e s₁ hc => right; rw [run, run, hn]; simp [hc]
  | case12 budget results s n t k rs results' hn r s₁ hc ih =>
      rw [run, run, hn]
      simpa only [hc] using ih

end Running

/-! ## The machine computes the evaluation -/

section Driving

variable {F : Folder σ ε α} {t : Ty} {s s' : σ} {r : Except ε α}

theorem tracks_drive (F : Folder σ ε α) (budget : Nat) (t : Ty) (s : σ) :
    Tracks budget (Evaluates F t s) (fun _ r s' => .finished (.ok r) s')
      (F.drive budget t s) := by
  have h := tracks_visit (F := F) budget t [] [] s
  simp only [run_nil] at h
  exact h

theorem evaluates_of_drive {budget : Nat} (h : F.drive budget t s = .finished r s') :
    Evaluates F t s r s' := by
  have htracks := tracks_drive F budget t s
  rw [h] at htracks
  generalize ho : Outcome.finished r s' = o at htracks
  cases htracks with
  | exhausted => cases ho
  | @ended _ r' _ _ hr =>
      cases r' <;> cases ho <;> exact hr

theorem Evaluates.drive_eq (h : Evaluates F t s r s') :
    ∃ cost, ∀ more, F.drive (more + cost) t s = .finished r s' := by
  obtain ⟨cost, hrun⟩ := h.run_eq
  refine ⟨cost, fun more => (hrun more [] []).trans ?_⟩
  cases r with
  | error e => rfl
  | ok r => exact run_nil F r

end Driving

/-- The machine ends with a result or an error exactly where the
recursive evaluation does, and in the same state. It never finds fewer
results than a task asks for, nor anything but one result at the end,
and a budget that is enough stays enough. -/
theorem drive_finished_iff_evaluates (F : Folder σ ε α) (t : Ty) (s : σ) :
    (∀ r s', (∃ budget, F.drive budget t s = .finished r s') ↔ Evaluates F t s r s') ∧
      (∀ budget, F.drive budget t s ≠ .underflow ∧ F.drive budget t s ≠ .unbalanced) ∧
      ∀ budget more, F.drive budget t s = .exhausted ∨
        F.drive (budget + more) t s = F.drive budget t s := by
  refine ⟨fun r s' => ⟨?_, ?_⟩, ?_, fun budget more => run_add more budget _ _ s⟩
  · rintro ⟨budget, h⟩
    exact evaluates_of_drive h
  · intro h
    obtain ⟨cost, hrun⟩ := h.drive_eq
    exact ⟨0 + cost, hrun 0⟩
  · intro budget
    have h := tracks_drive F budget t s
    generalize F.drive budget t s = o at h
    cases h with
    | exhausted => simp
    | @ended _ r _ _ _ => cases r <;> simp [goOn]

end RowTypes
