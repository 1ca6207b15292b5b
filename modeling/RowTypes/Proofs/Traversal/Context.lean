import RowTypes.Proofs.Traversal.Descent
import RowTypes.Proofs.Ty.Nodes

/-!
# Summaries with a context as recursions

A summary with a context asks a node for the context inside it and a
value of its own, and then goes through the children in that context
(`inContext`). The machine `runContext` computes just this, whatever
tasks wait and whatever results lie below (`runContext_eq`).

A function that also keeps the list of what it was asked (`asked`) shows
which context comes to which node: `Handed` says that a node hands its
own down to its children and to no others.

Where the values do not depend on the context it is a plain summary, if
combining with `zero` changes nothing
(`everythingWithContext_eq_everything`).
-/

namespace RowTypes

namespace Ty

variable {σ α γ : Type}

theorem stateM_bind_apply {β : Type} (x : StateM σ α) (f : α → StateM σ β) (s : σ) :
    (x >>= f) s = f (x s).1 (x s).2 := rfl

theorem mapM_cons_apply {β : Type} (f : Ty → StateM σ β) (t : Ty) (ts : List Ty) (s : σ) :
    (t :: ts).mapM f s =
      ((f t s).1 :: (ts.mapM f (f t s).2).1, (ts.mapM f (f t s).2).2) := by
  rw [List.mapM_cons]
  rfl

theorem length_mapM {β : Type} (f : Ty → StateM σ β) (ts : List Ty) (s : σ) :
    (ts.mapM f s).1.length = ts.length := by
  induction ts generalizing s with
  | nil => rfl
  | cons t ts ih => rw [mapM_cons_apply, List.length_cons, ih, List.length_cons]

/-! ## The recursion -/

section Recursion

variable (combine : α → α → StateM σ α) (f : γ → Ty → StateM σ (γ × α)) (zero : α)

/-- Asks the node for the context inside it and for its own value. This
is combined with `zero` if there are no children, and otherwise with
their results in the inner context, from left to right. -/
def inContext (context : γ) (t : Ty) : StateM σ α := do
  let (inner, own) ← f context t
  match t.children.isEmpty with
  | true => combine own zero
  | false =>
    let results ← t.children.attach.mapM fun ⟨c, _⟩ => inContext inner c
    results.foldlM combine own
termination_by t
decreasing_by exact sizeOf_lt_of_mem_children ‹_›

theorem inContext_eq (context : γ) (t : Ty) :
    inContext combine f zero context t = (do
      let (inner, own) ← f context t
      match t.children.isEmpty with
      | true => combine own zero
      | false =>
        let results ← t.children.mapM (inContext combine f zero inner)
        results.foldlM combine own) := by
  rw [inContext]
  congr 1
  funext ⟨inner, own⟩
  dsimp only
  rw [List.mapM_subtype fun _ _ => rfl, List.unattach_attach]

variable {context inner : γ} {t : Ty} {own : α} {s s₁ : σ}

theorem inContext_leaf (hf : f context t s = ((inner, own), s₁)) (ht : t.children = []) :
    inContext combine f zero context t s = combine own zero s₁ := by
  rw [inContext_eq, stateM_bind_apply, hf, ht]
  rfl

theorem inContext_node (hf : f context t s = ((inner, own), s₁)) (ht : t.children ≠ []) :
    inContext combine f zero context t s =
      (t.children.mapM (inContext combine f zero inner) >>= (·.foldlM combine own)) s₁ := by
  have hsome : t.children.isEmpty = false := by simpa using ht
  rw [inContext_eq, stateM_bind_apply, hf, hsome]

/-! ## The machine -/

/-- The results of the children lie on top of the stack, the last of them
first. -/
theorem runContext_combine {rs : List α} {n : Nat} (hlen : rs.length = n) (own : α)
    (k : List (ContextTask γ α)) (results : List α) (s : σ) :
    runContext combine f zero (.combine n own :: k) (rs.reverse ++ results) s =
      runContext combine f zero k ((rs.foldlM combine own s).1 :: results)
        (rs.foldlM combine own s).2 := by
  have htake := takeResults_append rs.reverse [] results
  rw [List.length_reverse, hlen, List.reverse_reverse, List.append_nil] at htake
  rw [runContext, htake]
  rfl

/-- The children of a node leave their results on the stack, the last of
them on top. -/
theorem runContext_visits_eq {ts : List Ty}
    (h : ∀ t ∈ ts, ∀ context k results s,
      runContext combine f zero (.visit context t :: k) results s =
        runContext combine f zero k ((inContext combine f zero context t s).1 :: results)
          (inContext combine f zero context t s).2)
    (context : γ) (k : List (ContextTask γ α)) (results : List α) (s : σ) :
    runContext combine f zero (ts.map (.visit context) ++ k) results s =
      runContext combine f zero k
        ((ts.mapM (inContext combine f zero context) s).1.reverse ++ results)
        (ts.mapM (inContext combine f zero context) s).2 := by
  induction ts generalizing results s with
  | nil => rfl
  | cons t ts ih =>
      rw [List.map_cons, List.cons_append, h t (List.mem_cons_self ..),
        ih fun u hu => h u (List.mem_cons_of_mem _ hu), mapM_cons_apply, List.reverse_cons,
        List.append_assoc]
      rfl

/-- Visiting a type leaves the result of the recursion. -/
theorem runContext_visit_eq (t : Ty) : ∀ context k results s,
    runContext combine f zero (.visit context t :: k) results s =
      runContext combine f zero k ((inContext combine f zero context t s).1 :: results)
        (inContext combine f zero context t s).2 := by
  induction t using induction_on_children with
  | step t ih =>
      intro context k results s
      rw [runContext]
      rcases hf : f context t s with ⟨⟨inner, own⟩, s₁⟩
      dsimp only
      split
      · next hnil =>
          rw [inContext_leaf combine f zero hf hnil]
          rfl
      · next c cs hcons =>
          rw [inContext_node combine f zero hf (by simp [hcons]), ← hcons,
            runContext_visits_eq combine f zero ih,
            runContext_combine combine f zero (length_mapM ..)]
          rfl

/-- The machine ends with the one result of the recursion. -/
theorem runContext_eq (context : γ) (t : Ty) (s : σ) :
    runContext combine f zero [.visit context t] [] s =
      .finished (.ok (inContext combine f zero context t s).1)
        (inContext combine f zero context t s).2 := by
  rw [runContext_visit_eq, runContext]

theorem everythingWithContextM_eq (context : γ) (t : Ty) :
    everythingWithContextM combine f zero context t = inContext combine f zero context t := by
  funext s
  have hvalue := Outcome.value_of_eq (runContext_eq combine f zero context t s)
    (runContext_finished combine f zero context t s)
  simp only [everythingWithContextM, Effect.infallible, hvalue]
  rfl

end Recursion

/-! ## Who is asked in which context -/

/-- A question to the function: the context and the node it was given,
and the context it gave for the inside of the node. -/
structure Ask (γ : Type) where
  context : γ
  node : Ty
  inner : γ

/-- The function that also adds what it is asked to a list. -/
def asked (f : γ → Ty → StateM σ (γ × α)) (context : γ) (t : Ty) :
    StateM (σ × List (Ask γ)) (γ × α) :=
  fun (s, asks) =>
    let ((inner, own), s) := f context t s
    ((inner, own), s, asks ++ [⟨context, t, inner⟩])

/-- The function that leaves the list alone. -/
def unasked (combine : α → α → StateM σ α) (a b : α) : StateM (σ × List (Ask γ)) α :=
  fun (s, asks) =>
    let (r, s) := combine a b s
    (r, s, asks)

mutual

/-- These questions are asked when a type is met in a context: the type
itself in this context, and then its children in the context it gave. -/
inductive Handed : γ → Ty → List (Ask γ) → Prop
  | node {context inner t asks} (h : HandedAll inner t.children asks) :
      Handed context t (⟨context, t, inner⟩ :: asks)

/-- These questions are asked when types are met one after the other, all
in the same context. -/
inductive HandedAll : γ → List Ty → List (Ask γ) → Prop
  | nil {context} : HandedAll context [] []
  | cons {context t ts asks more} (h : Handed context t asks)
      (hmore : HandedAll context ts more) : HandedAll context (t :: ts) (asks ++ more)

end

mutual

/-- A node is asked before those below it. -/
theorem Handed.nodes_eq : ∀ {context : γ} {t : Ty} {asks : List (Ask γ)},
    Handed context t asks → asks.map (·.node) = t.preorder
  | _, t, _, .node h => by rw [List.map_cons, h.nodes_eq, preorder_eq]

theorem HandedAll.nodes_eq : ∀ {context : γ} {ts : List Ty} {asks : List (Ask γ)},
    HandedAll context ts asks → asks.map (·.node) = ts.flatMap preorder
  | _, _, _, .nil => rfl
  | _, _, _, .cons h hmore => by
      rw [List.map_append, h.nodes_eq, hmore.nodes_eq, List.flatMap_cons]

end

/-- Every node is asked once. -/
theorem Handed.length_eq {context : γ} {t : Ty} {asks : List (Ask γ)}
    (h : Handed context t asks) : asks.length = t.size := by
  rw [← length_preorder, ← h.nodes_eq, List.length_map]

section Asked

variable (combine : α → α → StateM σ α) (f : γ → Ty → StateM σ (γ × α)) (zero : α)

theorem foldlM_unasked (rs : List α) (own : α) (s : σ) (asks : List (Ask γ)) :
    rs.foldlM (unasked combine) own (s, asks) =
      ((rs.foldlM combine own s).1, (rs.foldlM combine own s).2, asks) := by
  induction rs generalizing own s with
  | nil => rfl
  | cons r rs ih =>
      rw [List.foldlM_cons, List.foldlM_cons, stateM_bind_apply]
      exact ih _ _

theorem mapM_asked {ts : List Ty} {context : γ}
    (h : ∀ t ∈ ts, ∀ s log, ∃ asks,
      inContext (unasked combine) (asked f) zero context t (s, log) =
        ((inContext combine f zero context t s).1, (inContext combine f zero context t s).2,
          log ++ asks) ∧ Handed context t asks) (s : σ) (log : List (Ask γ)) :
    ∃ asks, ts.mapM (inContext (unasked combine) (asked f) zero context) (s, log) =
        ((ts.mapM (inContext combine f zero context) s).1,
          (ts.mapM (inContext combine f zero context) s).2, log ++ asks) ∧
      HandedAll context ts asks := by
  induction ts generalizing s log with
  | nil => exact ⟨[], by rw [List.append_nil]; rfl, .nil⟩
  | cons t ts ih =>
      obtain ⟨asks, ht, hasks⟩ := h t (List.mem_cons_self ..) s log
      obtain ⟨more, hts, hmore⟩ :=
        ih (fun u hu => h u (List.mem_cons_of_mem _ hu)) (inContext combine f zero context t s).2
          (log ++ asks)
      refine ⟨asks ++ more, ?_, .cons hasks hmore⟩
      rw [mapM_cons_apply, mapM_cons_apply, ht, hts, List.append_assoc]

/-- Asking for the list changes nothing else, and the list is of who is
asked in which context. -/
theorem inContext_asked (t : Ty) : ∀ context s log, ∃ asks,
    inContext (unasked combine) (asked f) zero context t (s, log) =
      ((inContext combine f zero context t s).1, (inContext combine f zero context t s).2,
        log ++ asks) ∧ Handed context t asks := by
  induction t using induction_on_children with
  | step t ih =>
      intro context s log
      rcases hf : f context t s with ⟨⟨inner, own⟩, s₁⟩
      have hasked : asked f context t (s, log) =
          ((inner, own), s₁, log ++ [⟨context, t, inner⟩]) := by
        rw [asked, hf]
      by_cases ht : t.children = []
      · refine ⟨[⟨context, t, inner⟩], ?_, .node (ht ▸ .nil)⟩
        rw [inContext_leaf _ _ _ hasked ht, inContext_leaf _ _ _ hf ht, unasked]
        rfl
      · obtain ⟨asks, hkids, hasks⟩ :=
          mapM_asked combine f zero (fun c hc => ih c hc inner) s₁ (log ++ [⟨context, t, inner⟩])
        refine ⟨⟨context, t, inner⟩ :: asks, ?_, .node hasks⟩
        rw [inContext_node _ _ _ hasked ht, inContext_node _ _ _ hf ht, stateM_bind_apply,
          stateM_bind_apply, hkids, foldlM_unasked, List.append_assoc]
        rfl

end Asked

/-- A summary with a context is the recursion. The machine never finds
fewer results than a task asks for, nor anything but one result at the
end. Nodes are asked in preorder, and a node hands its context down to
its children only. -/
theorem everythingWithContextM_eq_inContext (combine : α → α → StateM σ α)
    (f : γ → Ty → StateM σ (γ × α)) (zero : α) (context : γ) (t : Ty) (s : σ) :
    everythingWithContextM combine f zero context t s = inContext combine f zero context t s ∧
      runContext combine f zero [.visit context t] [] s =
        .finished (.ok (inContext combine f zero context t s).1)
          (inContext combine f zero context t s).2 ∧
      ∃ asks, everythingWithContextM (unasked combine) (asked f) zero context t (s, []) =
          ((inContext combine f zero context t s).1, (inContext combine f zero context t s).2,
            asks) ∧
        Handed context t asks ∧ asks.map (·.node) = t.preorder := by
  refine ⟨congrFun (everythingWithContextM_eq combine f zero context t) s,
    runContext_eq combine f zero context t s, ?_⟩
  obtain ⟨asks, h, hasks⟩ := inContext_asked combine f zero t context s []
  exact ⟨asks, (congrFun (everythingWithContextM_eq ..) _).trans h, hasks, hasks.nodes_eq⟩

/-! ## Values that do not depend on the context -/

section Values

variable {combine : α → α → α} {zero : α} {f : γ → Ty → StateM σ (γ × α)} {value : Ty → α}

theorem mapM_values {x : Ty → StateM σ α} {ts : List Ty}
    (h : ∀ t ∈ ts, ∀ s, (x t s).1 = value t) (s : σ) : (ts.mapM x s).1 = ts.map value := by
  induction ts generalizing s with
  | nil => rfl
  | cons t ts ih =>
      rw [mapM_cons_apply, List.map_cons, h t List.mem_cons_self,
        ih fun u hu => h u (List.mem_cons_of_mem _ hu)]

/-- Whatever context a node is asked in, and in whatever state, the result
is that of the plain summary: at a leaf because of `zero`, and elsewhere
because the results of the children are combined in the same order. -/
theorem inContext_eq_everything (hzero : ∀ a, combine a zero = a)
    (hvalue : ∀ context t s, (f context t s).1.2 = value t) (t : Ty) : ∀ context s,
    (inContext (fun a b => pure (combine a b)) f zero context t s).1 =
      everything combine value t := by
  induction t using induction_on_children with
  | step t ih =>
      intro context s
      rcases hf : f context t s with ⟨⟨inner, own⟩, s₁⟩
      have hown : own = value t := by
        rw [← hvalue context t s, hf]
      rw [everything_eq]
      by_cases ht : t.children = []
      · rw [inContext_leaf _ _ _ hf ht, ht, hown]
        exact hzero (value t)
      · rw [inContext_node _ _ _ hf ht, stateM_bind_apply, List.foldlM_pure,
          mapM_values (fun c hc => ih c hc inner), hown]
        rfl

end Values

/-- If combining with `zero` changes nothing and the value of a node does
not depend on the context it is asked in, a summary with a context is the
plain one, from whatever context it begins and however contexts are made.
The same holds if the function threads a state through its calls. -/
theorem everythingWithContext_eq_everything {combine : α → α → α} {zero : α}
    (hzero : ∀ a, combine a zero = a) (value : Ty → α) (t : Ty) :
    (∀ {γ : Type} (f : γ → Ty → γ × α), (∀ context u, (f context u).2 = value u) →
      ∀ context, everythingWithContext combine f zero context t = everything combine value t) ∧
    ∀ {σ γ : Type} (f : γ → Ty → StateM σ (γ × α)),
      (∀ context u s, (f context u s).1.2 = value u) → ∀ context s,
        (everythingWithContextM (fun a b => pure (combine a b)) f zero context t s).1 =
          everything combine value t := by
  constructor
  · intro γ f hvalue context
    rw [everythingWithContext, everythingWithContextM_eq]
    exact inContext_eq_everything hzero (fun context u _ => hvalue context u) t context ()
  · intro σ γ f hvalue context s
    rw [everythingWithContextM_eq]
    exact inContext_eq_everything hzero hvalue t context s

/-- Subtraction is not associative, and only on the right does zero change
nothing. The contexts grow below a node with its children, and the state
keeps every context asked in. -/
theorem everythingWithContext_eq_everything_difference :
    let value : Ty → Int := fun
      | .var _ => 5
      | .wildcard => 3
      | _ => 20
    let f : Nat → Ty → StateM (List Nat) (Nat × Int) := fun context u seen =>
      ((context + u.children.length, value u), seen ++ [context])
    let t : Ty := .forAll "a" (.constrained [⟨⟨none, "Coercible"⟩, [.var "a", .wildcard]⟩]
      (.app (.var "a") (.var "b"))) none
    (∀ a : Int, a - 0 = a) ∧ (∀ context u seen, (f context u seen).1.2 = value u) ∧
      (everythingWithContextM (fun a b => pure (a - b)) f 0 7 t []).1 =
        everything (· - ·) value t ∧
      everything (· - ·) value t = 18 := by
  intro value f t
  have hzero : ∀ a : Int, a - 0 = a := Int.sub_zero
  have hvalue : ∀ context u seen, (f context u seen).1.2 = value u := fun _ _ _ => rfl
  refine ⟨hzero, hvalue, (everythingWithContext_eq_everything hzero value t).2 f hvalue 7 [], ?_⟩
  rw [everything_eq_fold]
  rfl

end Ty

end RowTypes
