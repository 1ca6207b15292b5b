import RowTypes.Proofs.Traversal.Rewriting
import RowTypes.Proofs.Ty.Nodes

/-!
# The calls of a rewrite

A step that also keeps the list of its calls (`recorded`) shows when a
rewrite calls it and on what. Children first it is called on a node with
the head of each node, in postorder (`Meets`), and in both orders the
first error is the last call (`Stops`). `records_upward` and
`Downward.recorded` follow the calls through the recursions;
`rewrites_eq_recursions` says of the machine what the recursions and
their calls are.
-/

namespace RowTypes

namespace Ty

variable {σ ε β γ : Type}

/-- A call of a step: the node it was given and its answer. -/
structure Call (ε : Type) where
  node : Ty
  answer : Except ε Ty

/-- The step that also adds each of its calls to a list. -/
def recorded (f : Ty → Effect σ ε Ty) (t : Ty) : Effect (σ × List (Call ε)) ε Ty :=
  fun (s, calls) => ((f t s).1, (f t s).2, calls ++ [⟨t, (f t s).1⟩])

/-! ## What calls there are -/

/-- With a result every call has an answer. With an error the last call
failed with just this error, and every call before it has an answer. -/
def Stops : Except ε β → List (Call ε) → Prop
  | .ok _, calls => ∀ c ∈ calls, ∃ u, c.answer = .ok u
  | .error e, calls => ∃ before t, calls = before ++ [⟨t, .error e⟩] ∧
      ∀ c ∈ before, ∃ u, c.answer = .ok u

/-- With a result there is one call for each of the nodes, in their order
and on their heads. With an error there are such calls for the first of
them. -/
def Meets (nodes : List Ty) : Except ε β → List (Call ε) → Prop
  | .ok _, calls => calls.map (·.node.head) = nodes.map head
  | .error _, calls => calls.map (·.node.head) <+: nodes.map head

theorem Stops.error_cast {e : ε} {calls : List (Call ε)}
    (h : Stops (.error e : Except ε β) calls) : Stops (.error e : Except ε γ) calls := h

/-- Calls that are answered may come before any others. -/
theorem Stops.append {b : β} {r : Except ε γ} {calls more : List (Call ε)}
    (h : Stops (.ok b : Except ε β) calls) (hmore : Stops r more) :
    Stops r (calls ++ more) := by
  cases r with
  | ok c =>
      exact fun x hx => (List.mem_append.mp hx).elim (h x) (hmore x)
  | error e =>
      obtain ⟨before, t, rfl, hbefore⟩ := hmore
      refine ⟨calls ++ before, t, (List.append_assoc ..).symm, fun x hx => ?_⟩
      exact (List.mem_append.mp hx).elim (h x) (hbefore x)

theorem Meets.append {nodes next : List Ty} {b : β} {r : Except ε γ}
    {calls more : List (Call ε)} (h : Meets nodes (.ok b : Except ε β) calls)
    (hmore : Meets next r more) : Meets (nodes ++ next) r (calls ++ more) := by
  cases r with
  | ok c =>
      simp only [Meets, List.map_append] at h hmore ⊢
      rw [h, hmore]
  | error e =>
      simp only [Meets, List.map_append] at h hmore ⊢
      rw [h]
      exact (List.prefix_append_right_inj _).mpr hmore

theorem Meets.stop {nodes next : List Ty} {e : ε} {calls : List (Call ε)}
    (h : Meets nodes (.error e : Except ε β) calls) :
    Meets (nodes ++ next) (.error e : Except ε γ) calls := by
  simp only [Meets, List.map_append] at h ⊢
  exact h.trans (List.prefix_append ..)

/-- A rewrite that ends with a result has one call for each node. -/
theorem Meets.length_eq {t : Ty} {b : β} {calls : List (Call ε)}
    (h : Meets t.postorder (.ok b : Except ε β) calls) : calls.length = t.size := by
  simpa [length_postorder] using congrArg List.length h

/-! ## Children first -/

/-- The second computation does what the first does, and adds to its list
the calls made, which are on these nodes and end with the first error. -/
def Records (nodes : List Ty) (x : Effect σ ε β)
    (y : Effect (σ × List (Call ε)) ε β) : Prop :=
  ∀ s log, ∃ calls, y (s, log) = ((x s).1, (x s).2, log ++ calls) ∧
    Stops (x s).1 calls ∧ Meets nodes (x s).1 calls

theorem records_pure (b : β) :
    Records [] (pure b : Effect σ ε β) (pure b) :=
  fun s log => ⟨[], congrArg (fun l => (Except.ok b, s, l)) (List.append_nil log).symm,
    fun _ h => (List.not_mem_nil h).elim, rfl⟩

theorem records_call (f : Ty → Effect σ ε Ty) {t u : Ty} (h : u.head = t.head) :
    Records [t] (f u) (recorded f u) := by
  intro s log
  refine ⟨[⟨u, (f u s).1⟩], rfl, ?_⟩
  rcases (f u s).1 with e | v
  · exact ⟨⟨[], u, rfl, fun _ h => (List.not_mem_nil h).elim⟩, by simp [Meets, h]⟩
  · exact ⟨by simp [Stops], by simp [Meets, h]⟩

theorem records_bind {nodes next : List Ty} {x : Effect σ ε β}
    {y : Effect (σ × List (Call ε)) ε β} {f : β → Effect σ ε γ}
    {g : β → Effect (σ × List (Call ε)) ε γ} (hx : Records nodes x y)
    (hf : ∀ b, Records next (f b) (g b)) : Records (nodes ++ next) (x >>= f) (y >>= g) := by
  intro s log
  obtain ⟨calls, hy, hstops, hmeets⟩ := hx s log
  rw [Effect.bind_apply, Effect.bind_apply, hy]
  rcases hr : x s with ⟨e | b, s₁⟩ <;> rw [hr] at hstops hmeets
  · exact ⟨calls, rfl, hstops.error_cast, hmeets.stop⟩
  · obtain ⟨more, hg, hstops', hmeets'⟩ := hf b s₁ (log ++ calls)
    exact ⟨calls ++ more, by rw [← List.append_assoc]; exact hg,
      hstops.append hstops', hmeets.append hmeets'⟩

theorem records_mapM {order : Ty → List Ty} {f : Ty → Effect σ ε β}
    {g : Ty → Effect (σ × List (Call ε)) ε β} {ts : List Ty}
    (h : ∀ t ∈ ts, Records (order t) (f t) (g t)) :
    Records (ts.flatMap order) (ts.mapM f) (ts.mapM g) := by
  induction ts with
  | nil => exact records_pure []
  | cons t ts ih =>
      rw [List.mapM_cons, List.mapM_cons, List.flatMap_cons]
      refine records_bind (h t (List.mem_cons_self ..)) fun u => ?_
      rw [← List.append_nil (ts.flatMap order)]
      exact records_bind (ih fun v hv => h v (List.mem_cons_of_mem _ hv)) fun us =>
        records_pure (u :: us)

/-- The step is called on every node once, after the nodes below it. -/
theorem records_upward (f : Ty → Effect σ ε Ty) (t : Ty) :
    Records t.postorder (upward f t) (upward (recorded f) t) := by
  induction t using induction_on_children with
  | step t ih =>
      rw [upward_eq, upward_eq, postorder_eq]
      exact records_bind (records_mapM ih) fun us => records_call f (head_rebuild t us)

/-! ## Parents first -/

section Downward

variable {f : Ty → Effect σ ε Ty}

theorem recorded_eq {t : Ty} {s s₁ : σ} {r : Except ε Ty} (hf : f t s = (r, s₁))
    (log : List (Call ε)) : recorded f t (s, log) = (r, s₁, log ++ [⟨t, r⟩]) := by
  rw [recorded, hf]

mutual

/-- The first error of a rewrite parents first is its last call. -/
theorem Downward.recorded : ∀ {t : Ty} {s s' : σ} {r : Except ε Ty},
    Downward f t s r s' → ∀ log, ∃ calls,
      Downward (recorded f) t (s, log) r (s', log ++ calls) ∧ Stops r calls
  | t, _, _, _, .fail (e := e) hf, log =>
      ⟨[⟨t, .error e⟩], .fail (recorded_eq hf log), [], t, rfl,
        fun _ h => (List.not_mem_nil h).elim⟩
  | t, _, _, _, .failBelow (u := u) hf hus, log => by
      obtain ⟨calls, h, hstops⟩ := hus.recorded (log ++ [⟨t, .ok u⟩])
      rw [List.append_assoc] at h
      exact ⟨_, .failBelow (recorded_eq hf log) h,
        Stops.append (b := u) (by simp [Stops]) hstops.error_cast⟩
  | t, _, _, _, .rebuild (u := u) hf hus, log => by
      obtain ⟨calls, h, hstops⟩ := hus.recorded (log ++ [⟨t, .ok u⟩])
      rw [List.append_assoc] at h
      exact ⟨_, .rebuild (recorded_eq hf log) h,
        Stops.append (b := u) (by simp [Stops]) hstops⟩

theorem DownwardAll.recorded : ∀ {ts : List Ty} {s s' : σ} {rs : Except ε (List Ty)},
    DownwardAll f ts s rs s' → ∀ log, ∃ calls,
      DownwardAll (recorded f) ts (s, log) rs (s', log ++ calls) ∧ Stops rs calls
  | _, _, _, _, .nil, log => ⟨[], by rw [List.append_nil]; exact .nil, by simp [Stops]⟩
  | _, _, _, _, .failHead ht, log => by
      obtain ⟨calls, h, hstops⟩ := ht.recorded log
      exact ⟨calls, .failHead h, hstops.error_cast⟩
  | _, _, _, _, .failTail ht hts, log => by
      obtain ⟨calls, h, hstops⟩ := ht.recorded log
      obtain ⟨more, hmore, hstops'⟩ := hts.recorded (log ++ calls)
      rw [List.append_assoc] at hmore
      exact ⟨_, .failTail h hmore, hstops.append hstops'⟩
  | _, _, _, _, .cons ht hts, log => by
      obtain ⟨calls, h, hstops⟩ := ht.recorded log
      obtain ⟨more, hmore, hstops'⟩ := hts.recorded (log ++ calls)
      rw [List.append_assoc] at hmore
      exact ⟨_, .cons h hmore, hstops.append hstops'⟩

end

end Downward

/-! ## Both orders -/

/-- The machine rewrites as the recursions do. Children first it ends
with their result or error and in their state, after one call for each
node in postorder; parents first it does so, given enough calls, wherever
the recursion ends. In both orders no call comes after the first error,
and a step that changes nothing leaves the type as it is, whether it is
one with effects or a function. -/
theorem rewrites_eq_recursions (f : Ty → Effect σ ε Ty) (t : Ty) (s : σ) :
    (rewriteUpM f t s = upward f t s ∧ ∃ calls,
      rewriteUpM (recorded f) t (s, []) = ((upward f t s).1, (upward f t s).2, calls) ∧
        Stops (upward f t s).1 calls ∧ Meets t.postorder (upward f t s).1 calls) ∧
    (∀ r s', Downward f t s r s' ↔ ∃ calls cost, Stops r calls ∧ ∀ more,
      rewriteDownM (more + cost) f t s = .finished r s' ∧
        rewriteDownM (more + cost) (recorded f) t (s, []) = .finished r (s', calls)) ∧
    (∀ budget, rewriteDownM budget f t s = .exhausted ∨
      ∃ r s', rewriteDownM budget f t s = .finished r s' ∧ Downward f t s r s') ∧
    (rewriteUpM pure t s = ((.ok t, s) : Except ε Ty × σ) ∧
      ∃ cost, ∀ more, rewriteDownM (more + cost) pure t s =
        (.finished (.ok t) s : Outcome σ ε Ty)) ∧
    rewriteUp id t = t ∧ ∃ cost, ∀ more, rewriteDown (more + cost) id t = some t := by
  refine ⟨⟨congrFun (rewriteUpM_eq_upward f t) s, ?_⟩, fun r s' => ⟨fun h => ?_, ?_⟩,
    rewriteDownM_cases f t s, ⟨?_, (downward_iff _ t s _ s).mp (downward_pure t s)⟩,
    rewriteUp_id t, rewriteDown_id t⟩
  · rw [rewriteUpM_eq_upward]
    exact records_upward f t s []
  · obtain ⟨calls, hcalls, hstops⟩ := h.recorded []
    obtain ⟨cost, hrun⟩ := (downward_iff f t s r s').mp h
    obtain ⟨cost', hrun'⟩ := (downward_iff _ t _ r _).mp hcalls
    refine ⟨calls, cost + cost', hstops, fun more => ⟨?_, ?_⟩⟩
    · rw [Nat.add_comm cost, ← Nat.add_assoc]
      exact hrun _
    · rw [← Nat.add_assoc]
      exact hrun' _
  · rintro ⟨_, cost, _, hrun⟩
    exact (downward_iff f t s r s').mpr ⟨cost, fun more => (hrun more).1⟩
  · rw [rewriteUpM_eq_upward, upward_pure]
    rfl

end Ty

end RowTypes
