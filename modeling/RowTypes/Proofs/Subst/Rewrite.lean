import RowTypes.Proofs.Subst.Termination
import RowTypes.Proofs.Traversal.Rewriting
import RowTypes.Proofs.Ty.Quantifiers

/-!
# Substitution as a rewrite

Where there are neither quantifiers nor display-only forms, every variable
is free, and substitution is the rewrite, children first, that replaces
each variable that is bound (`subst_eq_rewriteUp`). The rewrite looks at
no answer of its step again, so it replaces nothing in a replacement
either.
-/

namespace RowTypes

namespace Ty

/-- Replaces a variable that is bound in `b`, and leaves every other node
as it is. -/
def replaceVar (b : Bindings) : Ty → Ty
  | .var v => (b.get? v).getD (.var v)
  | t => t

theorem replaceVar_plain {t : Ty} (h : t.head.plain) (b : Bindings) : replaceVar b t = t := by
  cases t with
  | var v => cases h
  | _ => rfl

/-- In a bare type substituting is rewriting with `replaceVar`. -/
theorem subst_eq_rewriteUp (b : Bindings) {t : Ty} (h : t.Bare) :
    t.subst b = rewriteUp (replaceVar b) t := by
  refine induction_on_bare (P := fun t => t.subst b = rewriteUp (replaceVar b) t) ?_ ?_ h
  · intro v
    rw [subst_var, rewriteUp_eq]
    rfl
  · intro t ht ih
    rw [subst_plain ht, rewriteUp_eq, replaceVar_plain (by rwa [head_rebuild]),
      List.map_congr_left ih]

/-- One replacement has a quantifier and the very variable that it
replaces, the other a variable that is replaced elsewhere. -/
theorem subst_eq_rewriteUp_row :
    let b : Bindings := ⟨[("a", .forAll "c" (.app (.var "a") (.var "c")) none), ("r", .var "a")],
      by decide⟩
    let t : Ty := .constrained [⟨⟨none, "Show"⟩, [.var "a"]⟩]
      (.rowCons "l" (.kinded (.var "x") .star) (.var "r"))
    t.Bare ∧ t.subst b = rewriteUp (replaceVar b) t ∧
      t.subst b = .constrained
        [⟨⟨none, "Show"⟩, [.forAll "c" (.app (.var "a") (.var "c")) none]⟩]
        (.rowCons "l" (.kinded (.var "x") .star) (.var "a")) := by
  intro b t
  have h : t.Bare := by decide
  refine ⟨h, subst_eq_rewriteUp b h, ?_⟩
  have hget : b.get? "a" = some (.forAll "c" (.app (.var "a") (.var "c")) none) ∧
      b.get? "r" = some (.var "a") ∧ b.get? "x" = none := ⟨rfl, rfl, rfl⟩
  simp [subst_eq_rewriteUp b h, rewriteUp_eq, t, children, rebuild,
    supplyConstraints, supply, replaceVar, hget]

end Ty

end RowTypes
