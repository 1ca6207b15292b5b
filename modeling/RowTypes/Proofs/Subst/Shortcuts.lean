import Mathlib.Data.List.Basic
import RowTypes.Proofs.Subst.Termination

/-!
# Shortcuts

Substitution passes over a type where nothing is bound, and over one
without variables and quantifiers; the collector of free variables passes
over a type without variables. `Substitutes` and `collectEverywhere` do
the same work with no type passed over, and they come to the same results
(`shortcuts_exact`).
-/

namespace RowTypes

namespace Ty

/-! ## The collector -/

/-- The collector that looks at all parts of a type that are not for
display. -/
def collectEverywhere : Ty → Collector → Collector :=
  fold fun t children s =>
    match t with
    | .var v => s.note v
    | .forAll v _ _ => s.under v fun s => children.foldl (fun s c => c s) s
    | .app _ _ | .constrained _ _ | .rowCons _ _ _ | .kinded _ _ =>
      children.foldl (fun s c => c s) s
    | _ => s

theorem collectEverywhere_eq (t : Ty) (s : Collector) :
    t.collectEverywhere s =
      match t with
      | .var v => s.note v
      | .forAll v _ _ => s.under v fun s => t.children.foldl (fun s c => c.collectEverywhere s) s
      | .app _ _ | .constrained _ _ | .rowCons _ _ _ | .kinded _ _ =>
        t.children.foldl (fun s c => c.collectEverywhere s) s
      | _ => s := by
  rw [collectEverywhere, fold_eq]
  cases t <;> simp only [List.foldl_map]

theorem collectEverywhere_eq_collect (t : Ty) (s : Collector) :
    t.collectEverywhere s = t.collect s := by
  induction t using induction_on_plain generalizing s with
  | var v => rw [collectEverywhere_eq, collect_var]
  | forAll v body scope ih =>
      rw [collectEverywhere_eq, collect_forAll]
      exact congrArg (s.under v) (funext ih)
  | display t h =>
      rw [collectEverywhere_eq, collect_display h]
      cases t <;> simp [head, Head.display] at h <;> rfl
  | plain t h ih =>
      have hkids : t.children.foldl (fun s c => c.collectEverywhere s) s =
          t.children.foldl (fun s c => c.collect s) s :=
        List.foldl_ext _ _ _ fun s c hc => ih c hc s
      rw [collectEverywhere_eq, collect_plain h, ← hkids]
      cases t <;> simp [head, Head.plain, Head.display] at h <;> rfl

/-! ## Both shortcuts -/

/-- Passing over types changes no result: substitution without the two
shortcuts ends with exactly the type that substitution gives, the names
of its quantifiers included, and the collector that looks everywhere
comes from any state to the same state, so that it gives the free
variables in the same order. -/
theorem shortcuts_exact (t : Ty) :
    (∀ b u, Substitutes b [] t u ↔ u = t.subst b) ∧
      (∀ s, t.collectEverywhere s = t.collect s) ∧
      (t.collectEverywhere .start).free = t.freeVars := by
  refine ⟨fun b u => ⟨fun h => h.eq_substUnder t.depth (Nat.le_refl _), ?_⟩,
    collectEverywhere_eq_collect t, ?_⟩
  · rintro rfl
    exact substitutes_substUnder t.depth b [] t (Nat.le_refl _)
  · rw [collectEverywhere_eq_collect, freeVars]

/-- A quantifier that clashes is renamed although there is no variable
below it, so having none is not enough to pass over a type. -/
example :
    let t : Ty := .forAll "b" .wildcard none
    t.has .vars = false ∧ t.subst (.single "a" (.var "b")) = .forAll "b0" .wildcard none := by
  cbv

end Ty

end RowTypes
