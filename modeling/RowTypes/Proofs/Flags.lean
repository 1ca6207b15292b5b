import Mathlib.Data.List.Basic
import RowTypes.Proofs.Traversal.Descent
import RowTypes.Proofs.Ty.Paths
import RowTypes.Vars

/-!
# What flags tell

A node is given its flags when it is made, from those of its children
alone, and yet they answer questions about all nodes below it: a flag is
there exactly if some path leads to a node that sets it (`has_iff`). The
summaries that ask the same questions go through the nodes with a stack
(`holds_everything_iff`), and so both give the same answers
(`flags_truthful`).
-/

namespace RowTypes

namespace Ty

theorem has_iff {flag : Flag} {t : Ty} :
    t.has flag ↔ ∃ p u, t.get? p = some u ∧ u.sets flag := by
  induction t using induction_on_children with
  | step t ih =>
      rw [exists_get?_iff, has_eq, Bool.or_eq_true, List.any_eq_true]
      exact or_congr_right (exists_congr fun c => and_congr_right (ih c))

/-! ## Summaries that look for something -/

section

variable {α : Type} {combine : α → α → α} (holds : α → Prop)

theorem holds_foldl_iff (h : ∀ a b, holds (combine a b) ↔ holds a ∨ holds b) (f : Ty → α)
    (ts : List Ty) (own : α) :
    holds ((ts.map f).foldl combine own) ↔ holds own ∨ ∃ t ∈ ts, holds (f t) := by
  induction ts generalizing own with
  | nil => simp
  | cons t ts ih => rw [List.map_cons, List.foldl_cons, ih, h, or_assoc,
      List.exists_mem_cons_iff]

/-- Where combining loses nothing and adds nothing, a summary has what
some node gives it. -/
theorem holds_everything_iff (h : ∀ a b, holds (combine a b) ↔ holds a ∨ holds b) (f : Ty → α)
    (t : Ty) : holds (everything combine f t) ↔ ∃ p u, t.get? p = some u ∧ holds (f u) := by
  induction t using induction_on_children with
  | step t ih =>
      rw [everything_eq, holds_foldl_iff holds h, exists_get?_iff]
      exact or_congr_right (exists_congr fun c => and_congr_right (ih c))

end

theorem mem_usedVars {t : Ty} {x : Name} :
    x ∈ t.usedVars ↔ ∃ p, t.get? p = some (.var x) := by
  rw [usedVars, List.mem_eraseDups,
    holds_everything_iff (fun xs => x ∈ xs) fun _ _ => List.mem_append]
  refine exists_congr fun p => ⟨?_, fun hp => ⟨_, hp, List.mem_singleton.mpr rfl⟩⟩
  rintro ⟨u, hu, hx⟩
  cases u with
  | var v =>
      obtain rfl := List.mem_singleton.mp hx
      exact hu
  | _ => cases hx

theorem containsWildcards_iff {t : Ty} :
    t.containsWildcards ↔ ∃ p, t.get? p = some .wildcard := by
  rw [containsWildcards,
    holds_everything_iff (fun found => found = true) fun _ _ => Bool.or_eq_true_iff]
  refine exists_congr fun p => ⟨?_, fun hp => ⟨_, hp, rfl⟩⟩
  rintro ⟨u, hu, h⟩
  cases u with
  | wildcard => exact hu
  | _ => cases h

/-! ## The nodes that set a flag -/

section

variable {t : Ty}

theorem sets_vars : t.sets .vars ↔ ∃ x, t = .var x := by cases t <;> simp [sets]

theorem sets_wildcards : t.sets .wildcards ↔ t = .wildcard := by cases t <;> simp [sets]

theorem sets_unknowns : t.sets .unknowns ↔ ∃ id, t = .unknown id := by cases t <;> simp [sets]

theorem sets_skolems : t.sets .skolems ↔ ∃ v id scope span, t = .skolem v id scope span := by
  cases t <;> simp [sets]

theorem sets_quantifiers :
    t.sets .quantifiers ↔
      (∃ v body scope, t = .forAll v body scope) ∨ ∃ vs body, t = .prettyForAll vs body := by
  cases t <;> simp [sets]

end

/-- The flags that a type was given tell the truth about all its nodes,
those of constraint arguments and inside display-only forms included, and
agree with the summaries. -/
theorem flags_truthful (t : Ty) :
    t.flags = t.stampFlags (t.children.map flags) ∧
    (.vars ∈ t.flags ↔ t.usedVars ≠ []) ∧
    (.wildcards ∈ t.flags ↔ t.containsWildcards) ∧
    (.unknowns ∈ t.flags ↔ ∃ p id, t.get? p = some (.unknown id)) ∧
    (.skolems ∈ t.flags ↔ ∃ p v id scope span, t.get? p = some (.skolem v id scope span)) ∧
    (.quantifiers ∈ t.flags ↔ ∃ p, (∃ v body scope, t.get? p = some (.forAll v body scope)) ∨
      ∃ vs body, t.get? p = some (.prettyForAll vs body)) := by
  simp only [mem_flags, has_iff]
  refine ⟨flags_eq t, ?_, ?_, ?_, ?_, ?_⟩
  · simp only [sets_vars]
    constructor
    · rintro ⟨p, u, hu, x, rfl⟩
      exact List.ne_nil_of_mem (mem_usedVars.mpr ⟨p, hu⟩)
    · intro hne
      obtain ⟨x, hx⟩ := List.exists_mem_of_ne_nil _ hne
      obtain ⟨p, hp⟩ := mem_usedVars.mp hx
      exact ⟨p, _, hp, x, rfl⟩
  · simp only [sets_wildcards, exists_eq_right, containsWildcards_iff]
  · simp only [sets_unknowns]
    exact ⟨fun ⟨p, u, hu, id, h⟩ => ⟨p, id, h ▸ hu⟩, fun ⟨p, id, hp⟩ => ⟨p, _, hp, id, rfl⟩⟩
  · simp only [sets_skolems]
    exact ⟨fun ⟨p, u, hu, v, id, scope, span, h⟩ => ⟨p, v, id, scope, span, h ▸ hu⟩,
      fun ⟨p, v, id, scope, span, hp⟩ => ⟨p, _, hp, v, id, scope, span, rfl⟩⟩
  · simp only [sets_quantifiers]
    constructor
    · rintro ⟨p, u, hu, ⟨v, body, scope, rfl⟩ | ⟨vs, body, rfl⟩⟩
      · exact ⟨p, .inl ⟨v, body, scope, hu⟩⟩
      · exact ⟨p, .inr ⟨vs, body, hu⟩⟩
    · rintro ⟨p, ⟨v, body, scope, hp⟩ | ⟨vs, body, hp⟩⟩
      · exact ⟨p, _, hp, .inl ⟨v, body, scope, rfl⟩⟩
      · exact ⟨p, _, hp, .inr ⟨vs, body, rfl⟩⟩

end Ty

end RowTypes
