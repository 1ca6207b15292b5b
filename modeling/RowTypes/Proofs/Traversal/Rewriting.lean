import RowTypes.Proofs.Traversal.Descent
import RowTypes.Proofs.Ty.Rebuild
import RowTypes.Traversal.Rewrite

/-!
# Rewrites as recursions

What a rewrite does, said without a machine. Bottom-up it is a function
(`upward`): the children are rewritten from left to right, then the step
is called once. Top-down it need not end, so it is a relation
(`Downward`): the step is called on the node, the children of its answer
are rewritten, and the answer is rebuilt with them. The machine computes
just these (`rewriteUpM_eq_upward`, `downward_iff`).
-/

namespace RowTypes

namespace Ty

variable {σ ε : Type}

/-! ## Children first -/

/-- Rewrites the children from left to right, then calls the step on the
node rebuilt with the results. -/
def upward (f : Ty → Effect σ ε Ty) (t : Ty) : Effect σ ε Ty := do
  let us ← t.children.attach.mapM fun ⟨c, _⟩ => upward f c
  f (t.rebuild us)
termination_by t
decreasing_by exact sizeOf_lt_of_mem_children ‹_›

theorem upward_eq (f : Ty → Effect σ ε Ty) (t : Ty) :
    upward f t = t.children.mapM (upward f) >>= fun us => f (t.rebuild us) := by
  rw [upward, List.mapM_subtype fun _ _ => rfl, List.unattach_attach]

theorem rewriteUpM_eq_upward (f : Ty → Effect σ ε Ty) (t : Ty) :
    rewriteUpM f t = upward f t := by
  induction t using induction_on_children with
  | step t ih =>
      rw [rewriteUpM, evalDescending_eq, upward,
        List.mapM_subtype fun c hc => (ih c hc).symm, List.unattach_attach]
      rfl

/-- A step that changes nothing leaves the type as it is. -/
theorem upward_pure (t : Ty) : upward (pure : Ty → Effect σ ε Ty) t = pure t := by
  induction t using induction_on_children with
  | step t ih =>
      rw [upward_eq, mapM_eq_pure ih, pure_bind, List.map_id', rebuild_children]

/-! ## Parents first -/

mutual

/-- Rewriting a type from a state, parents first, ends with a type or an
error, in another state. -/
inductive Downward (f : Ty → Effect σ ε Ty) : Ty → σ → Except ε Ty → σ → Prop
  | fail {t s e s'} (hf : f t s = (.error e, s')) : Downward f t s (.error e) s'
  | failBelow {t u s s₁ e s'} (hf : f t s = (.ok u, s₁))
      (hus : DownwardAll f u.children s₁ (.error e) s') : Downward f t s (.error e) s'
  | rebuild {t u s s₁ us s'} (hf : f t s = (.ok u, s₁))
      (hus : DownwardAll f u.children s₁ (.ok us) s') :
      Downward f t s (.ok (u.rebuild us)) s'

/-- Rewriting types one after the other ends with all of them rewritten,
or with the first error. -/
inductive DownwardAll (f : Ty → Effect σ ε Ty) :
    List Ty → σ → Except ε (List Ty) → σ → Prop
  | nil {s} : DownwardAll f [] s (.ok []) s
  | failHead {t ts s e s'} (ht : Downward f t s (.error e) s') :
      DownwardAll f (t :: ts) s (.error e) s'
  | failTail {t ts s u s₁ e s'} (ht : Downward f t s (.ok u) s₁)
      (hts : DownwardAll f ts s₁ (.error e) s') :
      DownwardAll f (t :: ts) s (.error e) s'
  | cons {t ts s u s₁ us s'} (ht : Downward f t s (.ok u) s₁)
      (hts : DownwardAll f ts s₁ (.ok us) s') :
      DownwardAll f (t :: ts) s (.ok (u :: us)) s'

end

theorem downwardAll_pure {ts : List Ty} {s : σ}
    (h : ∀ t ∈ ts, Downward (pure : Ty → Effect σ ε Ty) t s (.ok t) s) :
    DownwardAll (pure : Ty → Effect σ ε Ty) ts s (.ok ts) s := by
  induction ts with
  | nil => exact .nil
  | cons t ts ih =>
      exact .cons (h t (List.mem_cons_self ..)) (ih fun u hu => h u (List.mem_cons_of_mem _ hu))

/-- A step that changes nothing leaves the type as it is. -/
theorem downward_pure (t : Ty) (s : σ) :
    Downward (pure : Ty → Effect σ ε Ty) t s (.ok t) s := by
  induction t using induction_on_children with
  | step t ih =>
      have h := Downward.rebuild (f := (pure : Ty → Effect σ ε Ty)) (t := t) rfl (downwardAll_pure ih)
      rwa [rebuild_children] at h

/-! ## The machine rewrites parents first -/

section Machine

variable {f : Ty → Effect σ ε Ty} {t u : Ty} {s s₁ : σ}

/-- Looking at a node is calling the step, and its answer is descended
into. -/
theorem topDown_visit (f : Ty → Effect σ ε Ty) (t : Ty) (s : σ) :
    (topDown f).visit t s = ((f t s).1.map Step.recurseInto, (f t s).2) := by
  show (f t >>= fun u => pure (Step.recurseInto u)) s = _
  rw [Effect.bind_apply]
  rcases f t s with ⟨_ | _, _⟩ <;> rfl

theorem visit_eq_error_iff {e : ε} :
    (topDown f).visit t s = (.error e, s₁) ↔ f t s = (.error e, s₁) := by
  rw [topDown_visit]
  rcases f t s with ⟨_ | _, _⟩ <;> constructor <;> intro h <;> cases h <;> rfl

theorem visit_eq_ok_iff {step : Step Ty} :
    (topDown f).visit t s = (.ok step, s₁) ↔
      ∃ u, step = .recurseInto u ∧ f t s = (.ok u, s₁) := by
  rw [topDown_visit]
  rcases f t s with ⟨_ | u, s'⟩ <;> constructor
  · intro h
    cases h
  · rintro ⟨_, _, h⟩
    cases h
  · intro h
    cases h
    exact ⟨u, rfl, rfl⟩
  · rintro ⟨_, rfl, h⟩
    cases h
    rfl

/-- The folder only ever descends into an answer. -/
theorem visit_eq_recurseInto_iff :
    (topDown f).visit t s = (.ok (.recurseInto u), s₁) ↔ f t s = (.ok u, s₁) := by
  simp [visit_eq_ok_iff]

mutual

theorem Downward.evaluates : ∀ {t : Ty} {s s' : σ} {r : Except ε Ty},
    Downward f t s r s' → Evaluates (topDown f) t s r s'
  | _, _, _, _, .fail hf => .fail (visit_eq_error_iff.mpr hf)
  | _, _, _, _, .failBelow hf hus =>
      .recurseInto (visit_eq_recurseInto_iff.mpr hf) (.fail hus.evaluatesAll)
  | _, _, _, _, .rebuild hf hus =>
      .recurseInto (visit_eq_recurseInto_iff.mpr hf) (.combine hus.evaluatesAll rfl)

theorem DownwardAll.evaluatesAll : ∀ {ts : List Ty} {s s' : σ} {rs : Except ε (List Ty)},
    DownwardAll f ts s rs s' → EvaluatesAll (topDown f) ts s rs s'
  | _, _, _, _, .nil => .nil
  | _, _, _, _, .failHead ht => .failHead ht.evaluates
  | _, _, _, _, .failTail ht hts => .failTail ht.evaluates hts.evaluatesAll
  | _, _, _, _, .cons ht hts => .cons ht.evaluates hts.evaluatesAll

end

theorem downward_of_combine {us : List Ty} {s₂ s' : σ} {r : Except ε Ty}
    (hf : f t s = (.ok u, s₁)) (hus : DownwardAll f u.children s₁ (.ok us) s₂)
    (hr : (topDown f).combine u us s₂ = (r, s')) : Downward f t s r s' := by
  cases hr
  exact .rebuild hf hus

mutual

theorem downward_of_evaluates : ∀ {t : Ty} {s s' : σ} {r : Except ε Ty},
    Evaluates (topDown f) t s r s' → Downward f t s r s'
  | _, _, _, _, .fail hv => .fail (visit_eq_error_iff.mp hv)
  | _, _, _, _, .done hv => by simp [visit_eq_ok_iff] at hv
  | _, _, _, _, .replace hv _ => by simp [visit_eq_ok_iff] at hv
  | _, _, _, _, .recurse hv _ => by simp [visit_eq_ok_iff] at hv
  | _, _, _, _, .recurseInto hv hu => downward_of_completes (visit_eq_recurseInto_iff.mp hv) hu

theorem downward_of_completes : ∀ {t u : Ty} {s s₁ s' : σ} {r : Except ε Ty},
    f t s = (.ok u, s₁) → Completes (topDown f) u s₁ r s' → Downward f t s r s'
  | _, _, _, _, _, _, hf, .fail hc => .failBelow hf (downwardAll_of_evaluatesAll hc)
  | _, _, _, _, _, _, hf, .combine hc hr =>
      downward_of_combine hf (downwardAll_of_evaluatesAll hc) hr

theorem downwardAll_of_evaluatesAll : ∀ {ts : List Ty} {s s' : σ} {rs : Except ε (List Ty)},
    EvaluatesAll (topDown f) ts s rs s' → DownwardAll f ts s rs s'
  | _, _, _, _, .nil => .nil
  | _, _, _, _, .failHead ht => .failHead (downward_of_evaluates ht)
  | _, _, _, _, .failTail ht hts =>
      .failTail (downward_of_evaluates ht) (downwardAll_of_evaluatesAll hts)
  | _, _, _, _, .cons ht hts =>
      .cons (downward_of_evaluates ht) (downwardAll_of_evaluatesAll hts)

end

end Machine

/-- A rewrite parents first ends, with enough calls, where the recursion
does. -/
theorem downward_iff (f : Ty → Effect σ ε Ty) (t : Ty) (s : σ) (r : Except ε Ty) (s' : σ) :
    Downward f t s r s' ↔ ∃ cost, ∀ more,
      rewriteDownM (more + cost) f t s = .finished r s' :=
  ⟨fun h => h.evaluates.drive_eq,
    fun ⟨_, h⟩ => downward_of_evaluates (evaluates_of_drive (h 0))⟩

/-- With too few calls it comes to no end, and otherwise to that of the
recursion. -/
theorem rewriteDownM_cases (f : Ty → Effect σ ε Ty) (t : Ty) (s : σ) (calls : Nat) :
    rewriteDownM calls f t s = .exhausted ∨
      ∃ r s', rewriteDownM calls f t s = .finished r s' ∧ Downward f t s r s' := by
  have htracks := tracks_drive (topDown f) calls t s
  rw [rewriteDownM]
  generalize (topDown f).drive calls t s = o at htracks ⊢
  cases htracks with
  | exhausted => exact .inl rfl
  | @ended _ r s' _ hr =>
      refine .inr ⟨r, s', ?_, downward_of_evaluates hr⟩
      cases r <;> rfl

/-! ## Steps without effects -/

/-- Children first, a step without effects sees each node rebuilt from
what has become of its children. -/
theorem rewriteUp_eq (step : Ty → Ty) (t : Ty) :
    rewriteUp step t = step (t.rebuild (t.children.map (rewriteUp step))) := by
  have hfold : ∀ u, rewriteUp step u = u.fold fun w children => step (w.rebuild children) := by
    intro u
    have hpure := congrFun (evalDescending_pure (σ := Unit) (ε := Empty)
      (fun w children => step (w.rebuild children)) u) ()
    rw [rewriteUp, rewriteUpM, hpure]
    rfl
  rw [hfold, fold_eq, funext hfold]

/-- Children first, the identity gives back the type. -/
theorem rewriteUp_id (t : Ty) : rewriteUp id t = t := by
  have h : rewriteUpM (σ := Unit) (ε := Empty) (fun u => pure (id u)) t () = (.ok t, ()) :=
    congrFun ((rewriteUpM_eq_upward _ t).trans (upward_pure t)) ()
  rw [rewriteUp, h]

/-- Parents first, the identity gives back the type, once there are
enough calls. -/
theorem rewriteDown_id (t : Ty) : ∃ cost, ∀ more, rewriteDown (more + cost) id t = some t := by
  obtain ⟨cost, h⟩ := (downward_iff _ t () _ ()).mp
    (downward_pure (σ := Unit) (ε := Empty) t ())
  refine ⟨cost, fun more => ?_⟩
  have hmore : rewriteDownM (σ := Unit) (ε := Empty) (more + cost) (fun u => pure (id u)) t ()
      = .finished (.ok t) () := h more
  rw [rewriteDown, hmore]

end Ty

end RowTypes
