import RowTypes.Proofs.Traversal.Termination

/-!
# Rewriting leaves

Children first, a step is called on the nodes of a type as they are after
what is below them has been rewritten (`rebuilt`); parents first, on what
is above before what is below. A step that keeps every node with children
and answers leaves with leaves (`OnLeaves`) cannot tell the two orders
apart: it is called on the leaves of the type, on each of them once and
from left to right, and both orders come to the same type
(`rewriteDown_eq_rewriteUp`).

To find the calls, a step that never fails is followed through both
orders together with what it does to the state (`Answers`): children
first it passes the state through the rebuilt nodes in postorder
(`Answers.upward_eq`), parents first through the nodes in preorder
(`Answers.downward`).
-/

namespace RowTypes

namespace Ty

variable {σ ε : Type}

/-! ## Leaves -/

/-- Whether a node has no children. -/
def isLeaf (t : Ty) : Bool := t.children.isEmpty

theorem isLeaf_iff {t : Ty} : t.isLeaf ↔ t.children = [] := List.isEmpty_iff

/-- The leaves of a type, from left to right. -/
def leaves (t : Ty) : List Ty := t.preorder.filter isLeaf

theorem leaves_leaf {t : Ty} (h : t.children = []) : t.leaves = [t] := by
  simp [leaves, preorder_eq, isLeaf, h]

theorem leaves_node {t : Ty} (h : t.children ≠ []) : t.leaves = t.children.flatMap leaves := by
  have hnode : ¬ t.isLeaf := isLeaf_iff.not.mpr h
  rw [leaves, preorder_eq, List.filter_cons_of_neg hnode, List.filter_flatMap]
  rfl

/-- The leaves come in the same order whether nodes come before or after
those below them. -/
theorem filter_isLeaf_postorder (t : Ty) : t.postorder.filter isLeaf = t.leaves := by
  induction t using induction_on_children with
  | step t ih =>
      rw [postorder_eq, List.filter_append, List.filter_flatMap, List.flatMap_congr ih]
      by_cases h : t.children = []
      · simp [leaves_leaf h, isLeaf, h]
      · simp [leaves_node h, isLeaf, h]

/-! ## The nodes met children first -/

/-- A node as a step meets it children first. -/
def rebuilt (f : Ty → Ty) (t : Ty) : Ty := t.rebuild (t.children.map (rewriteUp f))

theorem rewriteUp_eq_rebuilt (f : Ty → Ty) (t : Ty) : rewriteUp f t = f (rebuilt f t) :=
  rewriteUp_eq f t

theorem children_rebuilt (f : Ty → Ty) (t : Ty) :
    (rebuilt f t).children = t.children.map (rewriteUp f) :=
  children_rebuild_of_length (List.length_map _)

theorem children_rebuilt_ne_nil {t : Ty} (h : t.children ≠ []) (f : Ty → Ty) :
    (rebuilt f t).children ≠ [] := by
  rwa [children_rebuilt, ne_eq, List.map_eq_nil_iff]

theorem isLeaf_rebuilt (f : Ty → Ty) (t : Ty) : (rebuilt f t).isLeaf = t.isLeaf := by
  rw [isLeaf, children_rebuilt, List.isEmpty_map, isLeaf]

theorem rebuilt_leaf {t : Ty} (h : t.isLeaf) (f : Ty → Ty) : rebuilt f t = t := by
  have hnil := isLeaf_iff.mp h
  have hself := rebuild_children t
  rw [hnil] at hself
  rw [rebuilt, hnil, List.map_nil, hself]

/-- A leaf is met as it is, and no other node is met as a leaf. -/
theorem filter_isLeaf_rebuilt (f : Ty → Ty) (ts : List Ty) :
    (ts.map (rebuilt f)).filter isLeaf = ts.filter isLeaf := by
  have hleaf : isLeaf ∘ rebuilt f = isLeaf := funext (isLeaf_rebuilt f)
  rw [List.filter_map, hleaf]
  exact (List.map_congr_left fun t ht => rebuilt_leaf (List.mem_filter.mp ht).2 f).trans
    (List.map_id _)

/-! ## Steps that never fail -/

/-- At every node the step gives this answer and changes the state in this
way. -/
def Answers (g : Ty → Effect σ ε Ty) (f : Ty → Ty) (next : σ → Ty → σ) : Prop :=
  ∀ t s, g t s = (.ok (f t), next s t)

theorem answers_pure (f : Ty → Ty) :
    Answers (fun u => pure (f u) : Ty → Effect σ ε Ty) f fun s _ => s :=
  fun _ _ => rfl

/-- The calls of a step without effects on these nodes. -/
def callsOn (f : Ty → Ty) (nodes : List Ty) : List (Call ε) :=
  nodes.map fun u => ⟨u, .ok (f u)⟩

theorem node_callsOn (f : Ty → Ty) (nodes : List Ty) :
    (callsOn (ε := ε) f nodes).map (·.node) = nodes := by
  rw [callsOn, List.map_map]
  exact List.map_id nodes

theorem answers_recorded (f : Ty → Ty) :
    Answers (recorded fun u => pure (f u) : Ty → Effect (σ × List (Call ε)) ε Ty) f
      fun p u => (p.1, p.2 ++ callsOn f [u]) :=
  fun _ _ => rfl

theorem foldl_callsOn (f : Ty → Ty) (nodes : List Ty) (s : σ) (calls : List (Call ε)) :
    nodes.foldl (fun p u => (p.1, p.2 ++ callsOn f [u])) (s, calls) =
      (s, calls ++ callsOn f nodes) := by
  induction nodes generalizing calls with
  | nil => rw [List.foldl_nil, callsOn, List.map_nil, List.append_nil]
  | cons u nodes ih =>
      have hcons : callsOn (ε := ε) f (u :: nodes) = callsOn f [u] ++ callsOn f nodes := rfl
      rw [List.foldl_cons, ih, hcons, List.append_assoc]

section Orders

variable {g : Ty → Effect σ ε Ty} {f : Ty → Ty} {next : σ → Ty → σ}

theorem mapM_answers {α : Type} {x : Ty → Effect σ ε α} {value : Ty → α} {nodes : Ty → List Ty}
    {ts : List Ty} (h : ∀ t ∈ ts, ∀ s, x t s = (.ok (value t), (nodes t).foldl next s)) (s : σ) :
    ts.mapM x s = (.ok (ts.map value), (ts.flatMap nodes).foldl next s) := by
  induction ts generalizing s with
  | nil => rfl
  | cons t ts ih =>
      rw [List.mapM_cons, Effect.bind_apply, h t List.mem_cons_self, List.flatMap_cons,
        List.foldl_append]
      simp only
      rw [Effect.bind_apply, ih fun u hu => h u (List.mem_cons_of_mem _ hu)]
      rfl

/-- Children first the state goes through the rebuilt nodes. -/
theorem Answers.upward_eq (h : Answers g f next) (t : Ty) : ∀ s,
    upward g t s = (.ok (rewriteUp f t), (t.postorder.map (rebuilt f)).foldl next s) := by
  induction t using induction_on_children with
  | step t ih =>
      intro s
      rw [Ty.upward_eq, Effect.bind_apply, mapM_answers ih, postorder_eq, List.map_append,
        List.map_flatMap, List.foldl_append, rewriteUp_eq_rebuilt]
      exact h (rebuilt f t) _

theorem downwardAll_answers {value : Ty → Ty} {nodes : Ty → List Ty} {ts : List Ty}
    (h : ∀ t ∈ ts, ∀ s, Downward g t s (.ok (value t)) ((nodes t).foldl next s)) (s : σ) :
    DownwardAll g ts s (.ok (ts.map value)) ((ts.flatMap nodes).foldl next s) := by
  induction ts generalizing s with
  | nil => exact .nil
  | cons t ts ih =>
      rw [List.flatMap_cons, List.foldl_append]
      exact .cons (h t List.mem_cons_self s) (ih (fun u hu => h u (List.mem_cons_of_mem _ hu)) _)

/-! ## Steps on leaves -/

/-- The step keeps every node with children and answers a leaf with a
leaf. -/
structure OnLeaves (f : Ty → Ty) : Prop where
  node : ∀ t, t.children ≠ [] → f t = t
  leaf : ∀ t, t.children = [] → (f t).children = []

theorem rewriteUp_leaf {t : Ty} (h : t.children = []) (f : Ty → Ty) : rewriteUp f t = f t := by
  rw [rewriteUp_eq_rebuilt, rebuilt_leaf (isLeaf_iff.mpr h)]

theorem OnLeaves.rewriteUp_node (hf : OnLeaves f) {t : Ty} (h : t.children ≠ []) :
    rewriteUp f t = rebuilt f t := by
  rw [rewriteUp_eq_rebuilt, hf.node _ (children_rebuilt_ne_nil h f)]

/-- The leaves of the result are the answers on the leaves. -/
theorem OnLeaves.leaves_rewriteUp (hf : OnLeaves f) (t : Ty) :
    (rewriteUp f t).leaves = t.leaves.map f := by
  induction t using induction_on_children with
  | step t ih =>
      by_cases h : t.children = []
      · rw [rewriteUp_leaf h, leaves_leaf (hf.leaf t h), leaves_leaf h]
        rfl
      · rw [hf.rewriteUp_node h, leaves_node (children_rebuilt_ne_nil h f), leaves_node h,
          children_rebuilt, List.flatMap_map, List.map_flatMap, List.flatMap_congr ih]

theorem OnLeaves.neverGrows (hf : OnLeaves f) (h : Answers g f next) : NeverGrows g := by
  intro t s u s₁ hanswer
  rw [h t s] at hanswer
  cases hanswer
  by_cases ht : t.children = []
  · rw [size_eq, hf.leaf t ht]
    exact size_pos t
  · rw [hf.node t ht]

/-- Parents first the state goes through the nodes themselves, and what
comes out is what comes out children first. -/
theorem Answers.downward (h : Answers g f next) (hf : OnLeaves f) (t : Ty) : ∀ s,
    Downward g t s (.ok (rewriteUp f t)) (t.preorder.foldl next s) := by
  induction t using induction_on_children with
  | step t ih =>
      intro s
      rw [preorder_eq, List.foldl_cons]
      by_cases ht : t.children = []
      · -- The answer has no children either, so the step is not called again.
        have hnil : DownwardAll g (f t).children (next s t) (.ok (f t).children) (next s t) := by
          rw [hf.leaf t ht]
          exact .nil
        have hrun := Downward.rebuild (h t s) hnil
        rw [rebuild_children] at hrun
        rwa [ht, rewriteUp_leaf ht]
      · have hanswer : g t s = (.ok t, next s t) := by rw [h, hf.node t ht]
        rw [hf.rewriteUp_node ht]
        exact .rebuild hanswer (downwardAll_answers ih _)

theorem Answers.rewriteDownM_eq (h : Answers g f next) (hf : OnLeaves f) (t : Ty) (s : σ)
    (more : Nat) :
    rewriteDownM (t.size + more) g t s =
      .finished (.ok (rewriteUp f t)) (t.preorder.foldl next s) :=
  (h.downward hf t s).rewriteDownM_eq (hf.neverGrows h) (Nat.le_add_right ..)

end Orders

/-! ## Both orders -/

theorem rewriteUpM_recorded (f : Ty → Ty) (t : Ty) (s : σ) :
    rewriteUpM (recorded fun u => pure (f u) : Ty → Effect (σ × List (Call ε)) ε Ty) t (s, []) =
      (.ok (rewriteUp f t), s, callsOn f (t.postorder.map (rebuilt f))) := by
  rw [rewriteUpM_eq_upward, (answers_recorded f).upward_eq, foldl_callsOn, List.nil_append]

theorem OnLeaves.rewriteDownM_recorded {f : Ty → Ty} (hf : OnLeaves f) (t : Ty) (s : σ)
    (more : Nat) :
    rewriteDownM (t.size + more)
        (recorded fun u => pure (f u) : Ty → Effect (σ × List (Call ε)) ε Ty) t (s, []) =
      .finished (.ok (rewriteUp f t)) (s, callsOn f t.preorder) := by
  rw [(answers_recorded f).rewriteDownM_eq hf, foldl_callsOn, List.nil_append]

/-- On leaves the two orders agree: both come to the same type, parents
first once there are as many calls as nodes. Its leaves are the answers on
the leaves of the type, and in both orders these are the leaves that the
step is called on, each once and from left to right. -/
theorem rewriteDown_eq_rewriteUp {f : Ty → Ty} (hf : OnLeaves f) (t : Ty) :
    (∀ more, rewriteDown (t.size + more) f t = some (rewriteUp f t)) ∧
      (rewriteUp f t).leaves = t.leaves.map f ∧
      ∃ up down : List (Call Empty),
        rewriteUpM (recorded fun u => pure (f u)) t ((), []) = (.ok (rewriteUp f t), (), up) ∧
        (∀ more, rewriteDownM (t.size + more) (recorded fun u => pure (f u)) t ((), []) =
          .finished (.ok (rewriteUp f t)) ((), down)) ∧
        (up.map (·.node)).filter isLeaf = t.leaves ∧
        (down.map (·.node)).filter isLeaf = t.leaves := by
  refine ⟨fun more => ?_, hf.leaves_rewriteUp t, callsOn f (t.postorder.map (rebuilt f)),
    callsOn f t.preorder, rewriteUpM_recorded f t (), hf.rewriteDownM_recorded t (), ?_, ?_⟩
  · rw [rewriteDown, (answers_pure f).rewriteDownM_eq hf]
  · rw [node_callsOn, filter_isLeaf_rebuilt, filter_isLeaf_postorder]
  · rw [node_callsOn, leaves]

/-- A step that exchanges variables and gaps, so that a leaf rewritten
twice would be as before. Its leaves are arguments of a constraint, one
in a display-only form and the tail of a row. -/
theorem rewriteDown_eq_rewriteUp_exchange :
    let f : Ty → Ty := fun
      | .var _ => .wildcard
      | .wildcard => .var "a"
      | t => t
    let t : Ty := .constrained [⟨⟨none, "Coercible"⟩, [.var "b", .wildcard]⟩, ⟨⟨none, "Partial"⟩, []⟩]
      (.rowCons "l" (.prettyForAll ["c"] (.var "c")) .wildcard)
    OnLeaves f ∧ (∀ more, rewriteDown (t.size + more) f t = some (rewriteUp f t)) ∧
      (rewriteUp f t).leaves = t.leaves.map f ∧
      t.leaves = [.var "b", .wildcard, .var "c", .wildcard] ∧
      t.leaves.map f = [.wildcard, .var "a", .wildcard, .var "a"] := by
  intro f t
  have hf : OnLeaves f := by
    refine ⟨fun u hu => ?_, fun u hu => ?_⟩
    · cases u with
      | var v => exact absurd rfl hu
      | wildcard => exact absurd rfl hu
      | _ => rfl
    · cases u with
      | var v => rfl
      | wildcard => rfl
      | _ => exact hu
  obtain ⟨hsame, hleaves, -⟩ := rewriteDown_eq_rewriteUp hf t
  exact ⟨hf, hsame, hleaves, rfl, rfl⟩

end Ty

end RowTypes
