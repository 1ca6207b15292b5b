import Mathlib.Data.List.Basic
import RowTypes.Proofs.Ty.Nameless

/-!
# Paths into a type

A path tells, at one node after the other, which child to go on to, and
so names one occurrence of a node. It also tells what a variable refers
to: `FreeAt` and `BoundAt` look at the quantifiers that the path comes
by, and take no account of what stands inside a display-only form. Both
are read off one node at a time (`freeAt_cons`, `boundAt_cons`,
`boundAt_root`).
-/

namespace RowTypes

/-- A way down into a type: the numbers of the children to go on to. -/
abbrev Path := List Nat

namespace Ty

/-- The node at the end of a path. -/
def get? : Ty → Path → Option Ty
  | t, [] => some t
  | t, i :: p => t.children[i]?.bind fun c => c.get? p

section

variable {t u c : Ty} {p q : Path} {i : Nat} {x : Name}

theorem get?_cons (hc : t.children[i]? = some c) (p : Path) : t.get? (i :: p) = c.get? p := by
  rw [get?, hc, Option.bind_some]

theorem get?_cons_eq_some_iff :
    t.get? (i :: p) = some u ↔ ∃ c, t.children[i]? = some c ∧ c.get? p = some u :=
  Option.bind_eq_some_iff

/-- The nodes of a type are its root and the nodes of its children. -/
theorem exists_get?_iff {holds : Ty → Prop} :
    (∃ p u, t.get? p = some u ∧ holds u) ↔
      holds t ∨ ∃ c ∈ t.children, ∃ p u, c.get? p = some u ∧ holds u := by
  constructor
  · rintro ⟨_ | ⟨i, p⟩, u, hu, h⟩
    · obtain rfl := Option.some.inj hu
      exact .inl h
    · obtain ⟨c, hc, hu⟩ := get?_cons_eq_some_iff.mp hu
      exact .inr ⟨c, List.mem_of_getElem? hc, p, u, hu, h⟩
  · rintro (h | ⟨c, hc, p, u, hu, h⟩)
    · exact ⟨[], t, rfl, h⟩
    · obtain ⟨i, hi⟩ := List.mem_iff_getElem?.mp hc
      exact ⟨i :: p, u, get?_cons_eq_some_iff.mpr ⟨c, hi, hu⟩, h⟩

/-! ## What a variable refers to -/

/-- At the end of the path stands the variable `x`, and the path comes by
no display-only form. -/
structure OccursAt (t : Ty) (p : Path) (x : Name) : Prop where
  var : t.get? p = some (.var x)
  shown : ∀ q, q <+: p → ∀ u, t.get? q = some u → u.head.display = false

/-- At the end of the path stands a quantifier of `x`. -/
def QuantifiesAt (t : Ty) (p : Path) (x : Name) : Prop :=
  ∃ body scope, t.get? p = some (.forAll x body scope)

/-- The variable `x` at the end of the path is free: the path comes by no
quantifier of `x`. -/
structure FreeAt (t : Ty) (p : Path) (x : Name) : Prop extends OccursAt t p x where
  free : ∀ q, q <+: p → ¬ t.QuantifiesAt q x

/-- The variable `x` at the end of the path is bound by the quantifier at
`q`, the last quantifier of `x` that the path comes by. -/
structure BoundAt (t : Ty) (p : Path) (x : Name) (q : Path) : Prop extends OccursAt t p x where
  above : q <+: p
  quantifies : t.QuantifiesAt q x
  last : ∀ r, r <+: p → t.QuantifiesAt r x → r <+: q

/-! ## One node at a time -/

theorem forall_prefix_cons {holds : Path → Prop} :
    (∀ q, q <+: i :: p → holds q) ↔ holds [] ∧ ∀ q, q <+: p → holds (i :: q) := by
  constructor
  · intro h
    exact ⟨h [] List.nil_prefix, fun q hq => h (i :: q) (List.cons_prefix_cons.mpr ⟨rfl, hq⟩)⟩
  · rintro ⟨hnil, hcons⟩ q hq
    rcases List.prefix_cons_iff.mp hq with rfl | ⟨r, rfl, hr⟩
    · exact hnil
    · exact hcons r hr

theorem occursAt_root : t.OccursAt [] x ↔ t = .var x := by
  constructor
  · intro h
    exact Option.some.inj h.var
  · rintro rfl
    refine ⟨rfl, fun q hq u hu => ?_⟩
    obtain rfl := List.prefix_nil.mp hq
    obtain rfl := Option.some.inj hu
    rfl

theorem OccursAt.exists_child (h : t.OccursAt (i :: p) x) : ∃ c, t.children[i]? = some c := by
  obtain ⟨c, hc, -⟩ := get?_cons_eq_some_iff.mp h.var
  exact ⟨c, hc⟩

theorem occursAt_cons (hc : t.children[i]? = some c) :
    t.OccursAt (i :: p) x ↔ t.head.display = false ∧ c.OccursAt p x := by
  constructor
  · rintro ⟨hvar, hshown⟩
    obtain ⟨hroot, hbelow⟩ := forall_prefix_cons.mp hshown
    rw [get?_cons hc] at hvar
    exact ⟨hroot t rfl, hvar, fun q hq u hu => hbelow q hq u (by rwa [get?_cons hc])⟩
  · rintro ⟨hroot, hvar, hshown⟩
    refine ⟨by rwa [get?_cons hc], forall_prefix_cons.mpr ⟨?_, fun q hq u hu => ?_⟩⟩
    · rintro u hu
      exact Option.some.inj hu ▸ hroot
    · exact hshown q hq u (by rwa [get?_cons hc] at hu)

theorem quantifiesAt_root : t.QuantifiesAt [] x ↔ ∃ body scope, t = .forAll x body scope :=
  exists_congr fun _ => exists_congr fun _ => Option.some_inj

theorem quantifiesAt_cons (hc : t.children[i]? = some c) :
    t.QuantifiesAt (i :: p) x ↔ c.QuantifiesAt p x := by
  rw [QuantifiesAt, get?_cons hc]
  rfl

theorem display_of_quantifiesAt_root (h : t.QuantifiesAt [] x) : t.head.display = false := by
  obtain ⟨body, scope, rfl⟩ := quantifiesAt_root.mp h
  rfl

theorem freeAt_root : t.FreeAt [] x ↔ t = .var x := by
  constructor
  · intro h
    exact occursAt_root.mp h.toOccursAt
  · rintro rfl
    refine ⟨occursAt_root.mpr rfl, fun q hq hquant => ?_⟩
    obtain rfl := List.prefix_nil.mp hq
    obtain ⟨body, scope, heq⟩ := quantifiesAt_root.mp hquant
    cases heq

theorem freeAt_cons (hc : t.children[i]? = some c) :
    t.FreeAt (i :: p) x ↔
      t.head.display = false ∧ ¬ t.QuantifiesAt [] x ∧ c.FreeAt p x := by
  constructor
  · rintro ⟨hoccurs, hfree⟩
    obtain ⟨hroot, hoccurs⟩ := (occursAt_cons hc).mp hoccurs
    obtain ⟨hnot, hfree⟩ := forall_prefix_cons.mp hfree
    exact ⟨hroot, hnot, hoccurs, fun q hq hquant => hfree q hq ((quantifiesAt_cons hc).mpr hquant)⟩
  · rintro ⟨hroot, hnot, hoccurs, hfree⟩
    exact ⟨(occursAt_cons hc).mpr ⟨hroot, hoccurs⟩, forall_prefix_cons.mpr
      ⟨hnot, fun q hq hquant => hfree q hq ((quantifiesAt_cons hc).mp hquant)⟩⟩

/-- The root binds what is free below it and has its name. -/
theorem boundAt_root (hc : t.children[i]? = some c) :
    t.BoundAt (i :: p) x [] ↔ t.QuantifiesAt [] x ∧ c.FreeAt p x := by
  constructor
  · rintro ⟨hoccurs, -, hquant, hlast⟩
    refine ⟨hquant, ((occursAt_cons hc).mp hoccurs).2, fun q hq hbelow => ?_⟩
    have hle := hlast (i :: q) (List.cons_prefix_cons.mpr ⟨rfl, hq⟩)
      ((quantifiesAt_cons hc).mpr hbelow)
    cases List.prefix_nil.mp hle
  · rintro ⟨hquant, hoccurs, hfree⟩
    refine ⟨(occursAt_cons hc).mpr ⟨display_of_quantifiesAt_root hquant, hoccurs⟩,
      List.nil_prefix, hquant, forall_prefix_cons.mpr ⟨fun _ => List.nil_prefix, ?_⟩⟩
    exact fun q hq hbelow => absurd ((quantifiesAt_cons hc).mp hbelow) (hfree q hq)

theorem boundAt_cons (hc : t.children[i]? = some c) :
    t.BoundAt (i :: p) x (i :: q) ↔ t.head.display = false ∧ c.BoundAt p x q := by
  constructor
  · rintro ⟨hoccurs, habove, hquant, hlast⟩
    obtain ⟨hroot, hoccurs⟩ := (occursAt_cons hc).mp hoccurs
    refine ⟨hroot, hoccurs, (List.cons_prefix_cons.mp habove).2,
      (quantifiesAt_cons hc).mp hquant, fun r hr hbelow => ?_⟩
    exact (List.cons_prefix_cons.mp (hlast (i :: r) (List.cons_prefix_cons.mpr ⟨rfl, hr⟩)
      ((quantifiesAt_cons hc).mpr hbelow))).2
  · rintro ⟨hroot, hoccurs, habove, hquant, hlast⟩
    refine ⟨(occursAt_cons hc).mpr ⟨hroot, hoccurs⟩, List.cons_prefix_cons.mpr ⟨rfl, habove⟩,
      (quantifiesAt_cons hc).mpr hquant, forall_prefix_cons.mpr ⟨fun _ => List.nil_prefix, ?_⟩⟩
    exact fun r hr hbelow => List.cons_prefix_cons.mpr
      ⟨rfl, hlast r hr ((quantifiesAt_cons hc).mp hbelow)⟩

/-- What binds a variable stands on the way to it. -/
theorem BoundAt.head_eq {j : Nat} (h : t.BoundAt (i :: p) x (j :: q)) : j = i :=
  (List.cons_prefix_cons.mp h.above).1

end

end Ty

end RowTypes
