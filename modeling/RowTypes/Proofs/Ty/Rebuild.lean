import Mathlib.Data.List.Basic
import RowTypes.Ty.Basic

/-!
# Nodes and their children

Every node is a head around its children. `rebuild` changes the children
alone: it takes the new ones as far as they go and keeps the last of the
old ones (`children_rebuild`), and it keeps the head (`head_rebuild`). A
head and the children determine the node (`eq_of_head_of_children`).
-/

namespace RowTypes

namespace Ty

/-! ## Heads -/

/-- What a node holds besides its children. Of a list of constraints
these are the classes, with the number of arguments of each. -/
inductive Head where
  | unknown (id : UInt32)
  | var (name : Name)
  | wildcard
  | constructor (name : Qualified)
  | app
  | forAll (name : Name) (scope : Option SkolemScope)
  | constrained (classes : List (Qualified × Nat))
  | skolem (name : Name) (id : UInt32) (scope : SkolemScope) (span : Option Span)
  | rowEmpty
  | rowCons (label : Label)
  | kinded (kind : Kind)
  | prettyFunction
  | prettyObject
  | prettyForAll (names : List Name)
deriving DecidableEq, Repr

/-- The class of a constraint and the number of its arguments. -/
def classOf (c : Constraint Ty) : Qualified × Nat := (c.className, c.args.length)

/-- The head of a node. -/
def head : Ty → Head
  | .unknown id => .unknown id
  | .var v => .var v
  | .wildcard => .wildcard
  | .constructor q => .constructor q
  | .app _ _ => .app
  | .forAll v _ scope => .forAll v scope
  | .constrained cs _ => .constrained (cs.map classOf)
  | .skolem v id scope span => .skolem v id scope span
  | .rowEmpty => .rowEmpty
  | .rowCons l _ _ => .rowCons l
  | .kinded _ k => .kinded k
  | .prettyFunction _ _ => .prettyFunction
  | .prettyObject _ => .prettyObject
  | .prettyForAll vs _ => .prettyForAll vs

theorem constraints_eq {cs ds : List (Constraint Ty)} (hc : cs.map classOf = ds.map classOf)
    (ha : cs.flatMap (·.args) = ds.flatMap (·.args)) : cs = ds := by
  induction cs generalizing ds with
  | nil => exact (List.map_eq_nil_iff.mp hc.symm).symm
  | cons c cs ih =>
      cases ds with
      | nil => cases hc
      | cons d ds =>
          obtain ⟨q, as⟩ := c
          obtain ⟨q', bs⟩ := d
          simp only [List.map_cons, List.cons.injEq, classOf, Prod.mk.injEq] at hc
          obtain ⟨⟨rfl, hlen⟩, hcs⟩ := hc
          obtain ⟨rfl, hargs⟩ := List.append_inj ha hlen
          rw [ih hcs hargs]

theorem eq_of_head_of_children {t u : Ty} (hh : t.head = u.head)
    (hc : t.children = u.children) : t = u := by
  cases t <;> cases u <;> simp_all [head, children]
  case constrained cs t ds u =>
    exact constraints_eq hh hc.1

/-! ## New children -/

theorem supply_eq (old new : List Ty) :
    supply old new = (new.take old.length ++ old.drop new.length, new.drop old.length) := by
  induction old generalizing new with
  | nil => simp [supply]
  | cons t old ih => cases new <;> simp [supply, ih]

theorem supply_append (old₁ old₂ new : List Ty) :
    supply (old₁ ++ old₂) new =
      ((supply old₁ new).1 ++ (supply old₂ (supply old₁ new).2).1,
        (supply old₂ (supply old₁ new).2).2) := by
  induction old₁ generalizing new with
  | nil => rfl
  | cons t old ih =>
      cases new with
      | nil => simp [supply_eq]
      | cons u new => simp [supply, ih]

theorem supplyConstraints_args (cs : List (Constraint Ty)) (new : List Ty) :
    ((supplyConstraints cs new).1.flatMap (·.args), (supplyConstraints cs new).2) =
      supply (cs.flatMap (·.args)) new := by
  induction cs generalizing new with
  | nil => rfl
  | cons c cs ih =>
      rw [List.flatMap_cons, supply_append, ← ih]
      rfl

theorem supplyConstraints_classes (cs : List (Constraint Ty)) (new : List Ty) :
    (supplyConstraints cs new).1.map classOf = cs.map classOf := by
  induction cs generalizing new with
  | nil => rfl
  | cons c cs ih =>
      simp only [supplyConstraints, List.map_cons, ih, List.cons.injEq, and_true, classOf,
        Prod.mk.injEq, true_and]
      simp [supply_eq]
      omega

theorem head_rebuild (t : Ty) (new : List Ty) : (t.rebuild new).head = t.head := by
  cases t with
  | constrained cs body => simp [rebuild, head, supplyConstraints_classes]
  | _ => rcases new with _ | ⟨a, _ | ⟨b, new⟩⟩ <;> simp [rebuild, head]

/-- The children of a rebuilt node are the new ones as far as the node
has children, and after them those of its own for which there is no new
one. -/
theorem children_rebuild (t : Ty) (new : List Ty) :
    (t.rebuild new).children = (supply t.children new).1 := by
  cases t with
  | constrained cs body =>
      have hargs := supplyConstraints_args cs new
      simp only [rebuild, children, supply_append, ← hargs]
      cases (supplyConstraints cs new).2 <;> simp [supply]
  | _ => rcases new with _ | ⟨a, _ | ⟨b, new⟩⟩ <;> simp [rebuild, children, supply]

theorem children_rebuild_of_length {t : Ty} {new : List Ty}
    (h : new.length = t.children.length) : (t.rebuild new).children = new := by
  rw [children_rebuild, supply_eq, ← h, List.take_length, h, List.drop_length, List.append_nil]

theorem rebuild_children (t : Ty) : t.rebuild t.children = t :=
  eq_of_head_of_children (head_rebuild t _) (children_rebuild_of_length rfl)

/-- The head and the children tell a rebuilt node from all others. -/
theorem eq_rebuild_iff {t u : Ty} {new : List Ty} :
    u = t.rebuild new ↔ u.head = t.head ∧
      u.children = new.take t.children.length ++ t.children.drop new.length := by
  have hkids : (t.rebuild new).children =
      new.take t.children.length ++ t.children.drop new.length := by
    rw [children_rebuild, supply_eq]
  constructor
  · rintro rfl
    exact ⟨head_rebuild t new, hkids⟩
  · rintro ⟨hhead, hchildren⟩
    exact eq_of_head_of_children (hhead.trans (head_rebuild t new).symm)
      (hchildren.trans hkids.symm)

/-! ## New children twice -/

theorem supply_supply (old new₁ new₂ : List Ty) :
    (supply (supply old new₁).1 new₂).1 =
      (supply old (new₂ ++ new₁.drop new₂.length)).1 := by
  induction old generalizing new₁ new₂ with
  | nil => rfl
  | cons t old ih =>
      cases new₁ with
      | nil => rw [List.drop_nil, List.append_nil]; rfl
      | cons a new₁ =>
          cases new₂ with
          | nil => rfl
          | cons b new₂ => exact congrArg (b :: ·) (ih new₁ new₂)

/-- Of the children given first only those stay for which none are given
after them. -/
theorem rebuild_rebuild (t : Ty) (new₁ new₂ : List Ty) :
    (t.rebuild new₁).rebuild new₂ = t.rebuild (new₂ ++ new₁.drop new₂.length) := by
  refine eq_of_head_of_children ?_ ?_
  · rw [head_rebuild, head_rebuild, head_rebuild]
  · rw [children_rebuild, children_rebuild, children_rebuild, supply_supply]

/-- What comes behind enough children is ignored. -/
theorem rebuild_append {t : Ty} {new : List Ty} (h : t.children.length ≤ new.length)
    (more : List Ty) : t.rebuild (new ++ more) = t.rebuild new := by
  refine eq_rebuild_iff.mpr ⟨head_rebuild t _, ?_⟩
  rw [children_rebuild, supply_eq, List.take_append_of_le_length h, List.drop_eq_nil_of_le h,
    List.drop_eq_nil_of_le (List.length_append ▸ Nat.le_add_right_of_le h)]

/-- Children can be put into a node and taken out of it again, at every
node alike. What is put in comes out, as far as the node has children
and with the last of the old ones where it does not suffice, and the
head, which is all else that tells nodes apart, stays. Putting in what
was there changes nothing, and of two times enough children the second
counts. -/
theorem rebuild_lawful (t : Ty) (new : List Ty) :
    (∀ u, u = t.rebuild new ↔ u.head = t.head ∧
        u.children = new.take t.children.length ++ t.children.drop new.length) ∧
      t.rebuild t.children = t ∧
      ∀ new₂ : List Ty, t.children.length ≤ new₂.length →
        (t.rebuild new).rebuild new₂ = t.rebuild new₂ := by
  refine ⟨fun u => eq_rebuild_iff, rebuild_children t, fun new₂ h => ?_⟩
  rw [rebuild_rebuild, rebuild_append h]

/-- New children are dealt out over constraints with two arguments, none
and one; the first time they end within the first constraint. -/
theorem rebuild_lawful_constrained :
    let t : Ty := .constrained [⟨⟨none, "Coercible"⟩, [.var "a", .var "b"]⟩,
      ⟨⟨none, "Partial"⟩, []⟩, ⟨⟨none, "Show"⟩, [.var "c"]⟩] (.var "d")
    let new : List Ty := [.wildcard, .rowEmpty, .unknown 1, .unknown 2]
    t.children.length ≤ new.length ∧
      (t.rebuild [.var "x"]).children = [.var "x", .var "b", .var "c", .var "d"] ∧
      (t.rebuild [.var "x"]).rebuild new = t.rebuild new := by
  intro t new
  have h : t.children.length ≤ new.length := by decide
  exact ⟨h, rfl, (rebuild_lawful t [.var "x"]).2.2 new h⟩

end Ty

end RowTypes
