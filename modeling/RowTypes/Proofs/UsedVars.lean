import RowTypes.Proofs.Flags
import RowTypes.Proofs.Occurrences
import RowTypes.Proofs.Ty.Quantifiers

/-!
# Used variables

A summary asks a node after those below it and combines its value with
finished ones. If combining is associative, what comes out is
nevertheless the values of all nodes combined from left to right, in
preorder (`everything_eq_foldl`). So the variables that a type uses are
the names at its variable nodes in the order of their paths
(`summaries_preorder`).

The collector of free variables goes its own way through a type and
leaves parts of it out. Where nothing binds it leaves out nothing that
matters, and it never finds a name that is not used
(`freeVars_usedVars`).
-/

namespace RowTypes

namespace Ty

/-! ## Summaries in preorder -/

section Preorder

variable {α : Type} (combine : α → α → α) (f : Ty → α)

/-- The values below some nodes may be combined node by node if this can
be done below each of them. -/
theorem foldl_flatMap_preorder {ts : List Ty}
    (h : ∀ t ∈ ts, ∀ own,
      (t.preorder.map f).foldl combine own = combine own (everything combine f t)) (own : α) :
    ((ts.flatMap preorder).map f).foldl combine own =
      (ts.map (everything combine f)).foldl combine own := by
  rw [List.map_flatMap, List.foldl_flatMap, List.foldl_map]
  exact List.foldl_ext _ _ _ fun own t ht => h t ht own

variable [Std.Associative combine]

/-- Combining the values of all nodes is combining the summary. -/
theorem foldl_preorder (t : Ty) (own : α) :
    (t.preorder.map f).foldl combine own = combine own (everything combine f t) := by
  induction t using induction_on_children generalizing own with
  | step t ih =>
      -- The list combines the node with what came before it, the summary with what is below it.
      rw [preorder_eq, List.map_cons, List.foldl_cons, foldl_flatMap_preorder _ _ ih,
        List.foldl_assoc, everything_eq]

theorem everything_eq_foldl (t : Ty) :
    everything combine f t = ((t.children.flatMap preorder).map f).foldl combine (f t) := by
  rw [everything_eq, foldl_flatMap_preorder _ _ fun t _ => foldl_preorder _ _ t]

end Preorder

theorem everything_append {α : Type} (f : Ty → List α) (t : Ty) :
    everything (· ++ ·) f t = t.preorder.flatMap f := by
  rw [List.flatMap_eq_foldl, ← List.foldl_map, foldl_preorder, List.nil_append]

/-! ## The names of variable nodes -/

/-- The name of a variable. -/
def varName? : Ty → Option Name
  | .var v => some v
  | _ => none

theorem varName?_eq_some_iff {t : Ty} {x : Name} : t.varName? = some x ↔ t = .var x := by
  cases t <;> simp [varName?]

theorem varName?_plain {t : Ty} (h : t.head.plain) : t.varName? = none := by
  cases t with
  | var v => cases h
  | _ => rfl

/-- The names at all variable nodes, from left to right, each as often as
it stands there. -/
def varNames (t : Ty) : List Name := t.preorder.filterMap varName?

theorem varNames_eq (t : Ty) :
    t.varNames = t.varName?.toList ++ t.children.flatMap varNames := by
  rw [varNames, preorder_eq, List.filterMap_cons, List.filterMap_flatMap]
  cases t.varName? <;> rfl

/-- Leaving out what was there before keeps first occurrences. -/
theorem foldl_addName_eq_eraseDups (xs : List Name) : xs.foldl addName [] = xs.eraseDups := by
  induction xs using List.reverseRecOn with
  | nil => rfl
  | append_singleton xs x ih =>
      rw [List.foldl_append, List.foldl_cons, List.foldl_nil, ih, addName, List.eraseDups_append]
      by_cases hx : x ∈ xs <;> simp [List.removeAll, hx, List.eraseDups_cons]

theorem usedVars_eq_foldl (t : Ty) : t.usedVars = t.varNames.foldl addName [] := by
  rw [foldl_addName_eq_eraseDups, usedVars, everything_append, varNames,
    List.filterMap_eq_flatMap_toList]
  refine congrArg List.eraseDups (List.flatMap_congr fun u _ => ?_)
  cases u <;> rfl

/-! ## Their order -/

/-- The paths to all variable nodes, with the names there. -/
def varSpots (t : Ty) : List (Path × Name) :=
  t.paths.filterMap fun p => ((t.get? p).bind varName?).map (p, ·)

theorem mem_varSpots {t : Ty} {p : Path} {x : Name} :
    (p, x) ∈ t.varSpots ↔ t.get? p = some (.var x) := by
  simp only [varSpots, List.mem_filterMap, Option.map_eq_some_iff, Option.bind_eq_some_iff,
    varName?_eq_some_iff, Prod.mk.injEq]
  constructor
  · rintro ⟨_, -, _, ⟨_, hu, rfl⟩, rfl, rfl⟩
    exact hu
  · intro hx
    exact ⟨p, mem_paths.mpr ⟨_, hx⟩, x, ⟨_, hx, rfl⟩, rfl, rfl⟩

theorem pairwise_varSpots (t : Ty) : t.varSpots.Pairwise fun s s' => s.1 < s'.1 := by
  refine List.pairwise_filterMap.mpr ((pairwise_paths t).imp fun hlt s hs s' hs' => ?_)
  obtain ⟨_, -, rfl⟩ := Option.map_eq_some_iff.mp hs
  obtain ⟨_, -, rfl⟩ := Option.map_eq_some_iff.mp hs'
  exact hlt

theorem map_snd_varSpots (t : Ty) : t.varSpots.map Prod.snd = t.varNames := by
  have hnames : t.varSpots.map Prod.snd = (t.paths.map t.get?).filterMap (·.bind varName?) := by
    rw [varSpots, List.map_filterMap, List.filterMap_map]
    exact List.filterMap_congr fun p _ => by simp [Function.comp_def]
  rw [hnames, map_get?_paths, List.filterMap_map]
  rfl

/-- A name is listed before another one if it stands somewhere before all
variable nodes of the other. -/
theorem pairwise_usedVars (t : Ty) :
    t.usedVars.Pairwise fun x y => ∃ p, t.get? p = some (.var x) ∧
      ∀ q, t.get? q = some (.var y) → p < q := by
  rw [usedVars_eq_foldl, ← map_snd_varSpots]
  simpa only [mem_varSpots] using pairwise_foldl_addName (pairwise_varSpots t)

/-- Where combining is associative, a summary is the values of all nodes
combined from left to right in preorder. These are the nodes at the ends
of all paths, each path once and in their order, those to the arguments of
constraints and into display-only forms included. So the variables that a
type uses are the names of all its variable nodes, each once, in the order
in which they occur first. -/
theorem summaries_preorder (t : Ty) :
    (∀ {α : Type} (combine : α → α → α) [Std.Associative combine] (f : Ty → α),
      ∃ below, t.preorder = t :: below ∧
        everything combine f t = (below.map f).foldl combine (f t)) ∧
    (t.paths.Pairwise (· < ·) ∧ (∀ p, p ∈ t.paths ↔ ∃ u, t.get? p = some u) ∧
      t.paths.map t.get? = t.preorder.map some) ∧
    t.usedVars.Nodup ∧ (∀ x, x ∈ t.usedVars ↔ ∃ p, t.get? p = some (.var x)) ∧
      t.usedVars.Pairwise fun x y => ∃ p, t.get? p = some (.var x) ∧
        ∀ q, t.get? q = some (.var y) → p < q := by
  refine ⟨fun combine _ f => ⟨_, preorder_eq t, everything_eq_foldl combine f t⟩,
    ⟨pairwise_paths t, fun p => mem_paths, map_get?_paths t⟩,
    (pairwise_usedVars t).imp ?_, fun x => mem_usedVars, pairwise_usedVars t⟩
  rintro x _ ⟨p, hp, hbefore⟩ rfl
  exact List.lt_irrefl p (hbefore p hp)

/-- A summary that lists the heads of all nodes, and the names in the
argument of a constraint, in a display-only form and after it. -/
theorem summaries_preorder_display :
    let t : Ty := .constrained [⟨⟨none, "Show"⟩, [.var "s"]⟩]
      (.app (.prettyFunction (.var "t") (.var "s")) (.var "a"))
    (∃ below, t.preorder = t :: below ∧ everything (· ++ ·) (fun u => [u.head]) t =
      (below.map fun u => [u.head]).foldl (· ++ ·) [t.head]) ∧
    t.usedVars.Nodup ∧ t.usedVars = ["s", "t", "a"] := by
  intro t
  obtain ⟨hsummary, -, hnodup, -⟩ := summaries_preorder t
  refine ⟨hsummary (· ++ ·) fun u => [u.head], hnodup, ?_⟩
  rw [usedVars_eq_foldl]
  decide

/-! ## Types that bind nothing -/

theorem freeNames_bare {t : Ty} (h : t.Bare) : t.freeNames = t.varNames := by
  refine induction_on_bare (P := fun t => t.freeNames = t.varNames) (fun v => rfl) ?_ h
  intro t hp ih
  rw [freeNames_plain hp, varNames_eq, varName?_plain hp, List.flatMap_congr ih]
  rfl

/-- Without quantifiers and display-only forms the free variables are the
used ones, in the same order; in every type they are among them. -/
theorem freeVars_usedVars (t : Ty) :
    (t.Bare → t.freeVars = t.usedVars) ∧ t.freeVars ⊆ t.usedVars := by
  refine ⟨fun h => ?_, fun x hx => ?_⟩
  · rw [freeVars_eq_foldl, usedVars_eq_foldl, freeNames_bare h]
  · obtain ⟨p, hfree⟩ := mem_freeVars_iff.mp hx
    exact mem_usedVars.mpr ⟨p, hfree.var⟩

/-- An argument of a constraint counts before what it guards. -/
theorem freeVars_usedVars_constrained :
    let t : Ty := .constrained [⟨⟨none, "Show"⟩, [.var "s"]⟩] (.app (.var "t") (.var "s"))
    t.Bare ∧ t.freeVars = t.usedVars ∧ t.freeVars ⊆ t.usedVars ∧ t.freeVars = ["s", "t"] := by
  intro t
  obtain ⟨heq, hsub⟩ := freeVars_usedVars t
  have hbare : t.Bare := by decide
  exact ⟨hbare, heq hbare, hsub, by decide⟩

/-- Below a quantifier the two may differ in their order alone. -/
example :
    let t : Ty := .app (.forAll "a" (.var "a") none) (.app (.var "b") (.var "a"))
    t.freeVars = ["b", "a"] ∧ t.usedVars = ["a", "b"] := by
  intro t
  rw [usedVars_eq_foldl]
  decide

end Ty

end RowTypes
