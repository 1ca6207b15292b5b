import RowTypes.Proofs.Quantify.References

/-!
# Free variables and quantifiers

A quantifier takes its name out of the free variables and leaves the
others in their order. Quantifying over names does so for each of them,
so a closed type has no free variable left, and the quantifiers that
close it can be taken off again (`close_canonical`). Bringing quantifiers
to the front puts each of them around all parts of the spine, those that
stood outside it included: what is left are the free variables that no
quantifier of the spine has the name of (`freeVars_hoist_exact`).
-/

namespace RowTypes

namespace Ty

/-! ## Quantifying -/

theorem freeVars_quantify (names : List Name) (t : Ty) :
    (quantify names t).freeVars = t.freeVars.filter (· ∉ names) := by
  induction names with
  | nil => simp [quantify]
  | cons v names ih =>
      calc (quantify (v :: names) t).freeVars
          = (quantify names t).freeVars.filter fun x => x ≠ v := freeVars_forAll v _ none
        _ = (t.freeVars.filter fun x => x ≠ v).filter (· ∉ names) := by
          rw [ih, List.filter_comm]
        _ = t.freeVars.filter (· ∉ v :: names) := (filter_not_mem_cons v names _).symm

theorem freeVars_close (t : Ty) : t.close.freeVars = [] := by
  rw [close, freeVars_quantify, List.filter_eq_nil_iff]
  intro x hx
  simpa using hx

/-- Takes at most the given number of quantifiers off: their names and
scopes, from outside to inside, and what stands below them. -/
def unquantify : Nat → Ty → List (Name × Option SkolemScope) × Ty
  | n + 1, .forAll v body scope =>
    let (quantifiers, inner) := unquantify n body
    ((v, scope) :: quantifiers, inner)
  | _, t => ([], t)

theorem unquantify_quantify (names : List Name) (t : Ty) :
    unquantify names.length (quantify names t) = (names.map fun v => (v, none), t) := by
  induction names with
  | nil => simp [unquantify, quantify]
  | cons v names ih =>
      have hstep : unquantify (names.length + 1) (quantify (v :: names) t) =
          ((v, none) :: (unquantify names.length (quantify names t)).1,
            (unquantify names.length (quantify names t)).2) := rfl
      rw [List.length_cons, hstep, ih, List.map_cons]

/-- Quantifying takes just the quantified names out of the free
variables. So there is nothing left to quantify over in a closed type,
and below as many quantifiers as the type had free variables, which bind
these in their order and without a scope, the type itself is found. -/
theorem close_canonical (names : List Name) (t : Ty) :
    (quantify names t).freeVars = t.freeVars.filter (· ∉ names) ∧
      t.close.freeVars = [] ∧ t.close.close = t.close ∧
      unquantify t.freeVars.length t.close = (t.freeVars.map fun v => (v, none), t) := by
  refine ⟨freeVars_quantify names t, freeVars_close t, ?_, unquantify_quantify t.freeVars t⟩
  rw [close, freeVars_close]
  rfl

/-! ## Bringing quantifiers to the front -/

/-- Some quantifier of `x` is reached from the root through quantifiers
and from constraints to what they guard. -/
inductive BindsOnSpine (x : Name) : Ty → Prop where
  | here (body : Ty) (scope : Option SkolemScope) : BindsOnSpine x (.forAll x body scope)
  | forAll {body : Ty} (v : Name) (scope : Option SkolemScope) (h : BindsOnSpine x body) :
      BindsOnSpine x (.forAll v body scope)
  | constrained {body : Ty} (cs : List (Constraint Ty)) (h : BindsOnSpine x body) :
      BindsOnSpine x (.constrained cs body)

theorem mem_binders {t : Ty} {x : Name} : x ∈ t.binders ↔ BindsOnSpine x t := by
  constructor
  · intro hx
    induction t using induction_on_spine with
    | forAll v body scope ih =>
        rw [binders_forAll, List.mem_cons] at hx
        rcases hx with rfl | hx
        · exact .here body scope
        · exact .forAll v scope (ih hx)
    | constrained cs body ih =>
        rw [binders_constrained] at hx
        exact .constrained cs (ih hx)
    | inner t h =>
        rw [binders_inner h] at hx
        cases hx
  · intro h
    induction h with
    | here body scope => rw [binders_forAll]; exact List.mem_cons_self
    | forAll v scope _ ih => rw [binders_forAll]; exact List.mem_cons_of_mem v ih
    | constrained cs _ ih => rwa [binders_constrained]

instance (x : Name) (t : Ty) : Decidable (BindsOnSpine x t) :=
  decidable_of_iff (x ∈ t.binders) mem_binders

/-- Bringing quantifiers to the front takes the names that they bind out
of the free variables and keeps all others in their order. So the free
variables stay the same exactly if none of these names is free. -/
theorem freeVars_hoist_exact (t : Ty) :
    t.hoist.freeVars = t.freeVars.filter (fun x => ¬ BindsOnSpine x t) ∧
      (t.hoist.freeVars = t.freeVars ↔ ∀ x, BindsOnSpine x t → x ∉ t.freeVars) := by
  have hexact : t.hoist.freeVars = t.freeVars.filter fun x => ¬ BindsOnSpine x t := by
    rw [freeVars_hoist]
    exact List.filter_congr fun x _ => decide_eq_decide.mpr (not_congr mem_binders)
  refine ⟨hexact, ?_⟩
  rw [hexact, List.filter_eq_self]
  constructor
  · intro h x hbinds hx
    exact of_decide_eq_true (h x hx) hbinds
  · intro h x hx
    exact decide_eq_true fun hbinds => h x hbinds hx

/-- Of the free variables of Show a b => forall a. a the first one goes. -/
example : (Ty.constrained [⟨⟨none, "Show"⟩, [.var "a", .var "b"]⟩]
    (.forAll "a" (.var "a") none)).hoist.freeVars = ["b"] := by decide

end Ty

end RowTypes
