import RowTypes.Proofs.Subst.Rules
import RowTypes.Proofs.Ty.Nodes

/-!
# Substitution ends

Two of the substitutions that one at a quantifier asks for are not in a
part of the type: where the name of the quantifier is bound, the next is
in the same type with one binding less, and where it clashes, the second
one is in what the first one, a renaming, has made of the body. Renaming
keeps the number of nodes, so each of them has a smaller type than the one
it is asked for by, or an equal one and fewer bindings
(`AskedBy.weight_lt`). So substitution ends, for all bindings and all
types (`subst_ends`).
-/

namespace RowTypes

theorem Bindings.length_keys_erase {b : Bindings} {v : Name} (h : v ∈ b.keys) :
    (b.erase v).keys.length < b.keys.length := by
  obtain ⟨e, he, rfl⟩ := List.mem_map.mp h
  rw [keys, keys, List.length_map, List.length_map]
  exact List.length_filter_lt_length_iff_exists.mpr ⟨e, he, by simp⟩

namespace Ty

/-- A substitution to be made: its bindings, the names that quantifiers
around the type bind, and the type. -/
structure Request where
  bindings : Bindings
  bound : List Name
  type : Ty

/-- The first substitution is asked for in making the second one, by the
rules of `Substitutes`. To pass over a type is to ask for nothing there,
so `substUnder` asks for no other ones. -/
inductive AskedBy : Request → Request → Prop
  /-- The same type again, without the binding that ends there. -/
  | narrow {b bound v body scope} (hkey : v ∈ b.keys) :
      AskedBy ⟨b.erase v, bound, .forAll v body scope⟩ ⟨b, bound, .forAll v body scope⟩
  | keep {b bound v body scope} (hkey : v ∉ b.keys) (hclash : v ∉ b.freeVars) :
      AskedBy ⟨b, v :: bound, body⟩ ⟨b, bound, .forAll v body scope⟩
  /-- The body, to have a new name put in the place of the one that
  clashes. -/
  | rename {b bound v body scope w} (hkey : v ∉ b.keys) (hclash : v ∈ b.freeVars)
      (hw : w = freshBinder b bound v body) :
      AskedBy ⟨.single v (.var w), bound, body⟩ ⟨b, bound, .forAll v body scope⟩
  /-- What has come out of that. -/
  | renamed {b bound v body scope w u} (hkey : v ∉ b.keys) (hclash : v ∈ b.freeVars)
      (hw : w = freshBinder b bound v body)
      (hr : Substitutes (.single v (.var w)) bound body u) :
      AskedBy ⟨b, w :: bound, u⟩ ⟨b, bound, .forAll v body scope⟩
  | child {b bound t c} (h : t.head.plain) (hc : c ∈ t.children) :
      AskedBy ⟨b, bound, c⟩ ⟨b, bound, t⟩

/-! ## What becomes less -/

/-- How much there is to do: the nodes count first, then the bindings. -/
def Request.weight (r : Request) : Nat × Nat := (r.type.size, r.bindings.keys.length)

theorem AskedBy.weight_lt {r s : Request} (h : AskedBy r s) :
    Prod.Lex (· < ·) (· < ·) r.weight s.weight := by
  have hbody : ∀ v body scope, body.size < (forAll v body scope).size :=
    fun v body scope => size_child_lt List.mem_cons_self
  cases h with
  | narrow hkey => exact .right _ (Bindings.length_keys_erase hkey)
  | keep => exact .left _ _ (hbody _ _ _)
  | rename => exact .left _ _ (hbody _ _ _)
  | renamed _ _ _ hr =>
      refine .left _ _ ?_
      rw [size_eq_of_unnamed (hr.unnamed (Bindings.renaming_single _ _))]
      exact hbody _ _ _
  | child _ hc => exact .left _ _ (size_child_lt hc)

theorem wellFounded_askedBy : WellFounded AskedBy :=
  Subrelation.wf AskedBy.weight_lt
    (InvImage.wf Request.weight (WellFounded.prod_lex Nat.lt_wfRel.wf Nat.lt_wfRel.wf))

/-! ## The end -/

/-- A substitution ends if all end that it asks for. -/
theorem exists_substitutes_of_askedBy {b : Bindings} {bound : List Name} {t : Ty}
    (h : ∀ r, AskedBy r ⟨b, bound, t⟩ → ∃ u, Substitutes r.bindings r.bound r.type u) :
    ∃ u, Substitutes b bound t u := by
  cases t using cases_plain with
  | var v => exact ⟨_, .var⟩
  | forAll v body scope =>
      by_cases hkey : v ∈ b.keys
      · obtain ⟨u, hu⟩ := h _ (.narrow hkey)
        exact ⟨u, .narrow hkey hu⟩
      by_cases hclash : v ∈ b.freeVars
      · obtain ⟨renamed, hr⟩ := h _ (.rename hkey hclash rfl)
        obtain ⟨body', hbody⟩ := h _ (.renamed hkey hclash rfl hr)
        exact ⟨_, .rename hkey hclash rfl hr hbody⟩
      · obtain ⟨body', hbody⟩ := h _ (.keep hkey hclash)
        exact ⟨_, .keep hkey hclash hbody⟩
  | display t hd => exact ⟨t, .display hd⟩
  | plain t hp =>
      obtain ⟨us, hus⟩ := exists_substitutesAll fun c hc => h _ (.child hp hc)
      exact ⟨_, .plain hp hus⟩

theorem exists_substitutes (r : Request) : ∃ u, Substitutes r.bindings r.bound r.type u :=
  wellFounded_askedBy.induction r fun _ ih => exists_substitutes_of_askedBy ih

theorem substitutes_substUnder (levels : Nat) (b : Bindings) (bound : List Name) (t : Ty)
    (hd : t.depth ≤ levels) : Substitutes b bound t (substUnder levels b bound t) := by
  obtain ⟨u, hu⟩ := exists_substitutes ⟨b, bound, t⟩
  rwa [← hu.eq_substUnder levels hd]

/-- Levels beyond the depth of a type change nothing. -/
theorem substUnder_of_le {b : Bindings} {bound : List Name} {t : Ty} {levels : Nat}
    (h : t.depth ≤ levels) : substUnder levels b bound t = substUnder t.depth b bound t :=
  ((substitutes_substUnder t.depth b bound t (Nat.le_refl _)).eq_substUnder levels h).symm

/-- A level to spare lets the equations of `substUnder` apply. -/
theorem subst_eq_substUnder_succ (b : Bindings) (t : Ty) :
    t.subst b = substUnder (t.depth + 1) b [] t :=
  (substUnder_of_le (Nat.le_succ _)).symm

theorem subst_var (b : Bindings) (v : Name) : (var v).subst b = (b.get? v).getD (.var v) := by
  rw [subst_eq_substUnder_succ, substUnder_var]

theorem subst_plain {t : Ty} (h : t.head.plain) (b : Bindings) :
    t.subst b = t.rebuild (t.children.map (Ty.subst b)) := by
  have hkids : t.children.map (substUnder t.depth b []) = t.children.map (Ty.subst b) :=
    List.map_congr_left fun c hc => substUnder_of_le (Nat.le_of_lt (depth_child_lt hc))
  rw [subst_eq_substUnder_succ, substUnder_plain h, hkids]

/-- Renaming gives a type with as many nodes, as deep, and with the same
positions, where the nodes are the same but for the names of variables
and quantifiers. There is no infinite chain of substitutions each asked
for by the one before it; each comes to an end with a type, and no number
of levels that is at least the depth cuts it short. -/
theorem subst_ends (b : Bindings) (t : Ty) :
    (b.Renaming → (t.subst b).size = t.size ∧ (t.subst b).depth = t.depth ∧
      ∀ p, (((t.subst b).get? p).map fun u => u.head.unnamed) =
        (t.get? p).map fun u => u.head.unnamed) ∧
    WellFounded AskedBy ∧ Substitutes b [] t (t.subst b) ∧
    ∀ levels, t.depth ≤ levels → substUnder levels b [] t = t.subst b := by
  refine ⟨fun hb => ?_, wellFounded_askedBy,
    substitutes_substUnder t.depth b [] t (Nat.le_refl _), fun levels h => substUnder_of_le h⟩
  have hunnamed : (t.subst b).unnamed = t.unnamed := unnamed_substUnder hb t.depth [] t
  exact ⟨size_eq_of_unnamed hunnamed, depth_eq_of_unnamed hunnamed,
    head_unnamed_eq_of_unnamed hunnamed⟩

/-- The outer quantifier clashes with both replacements, so its body is
renamed first; the inner one then takes a binding away. -/
theorem subst_ends_nested :
    let b : Bindings := ⟨[("x", .var "a"), ("b", .var "a0")], by decide⟩
    let t : Ty := .forAll "a" (.forAll "b" (.app (.var "x") (.var "a")) none) (some 7)
    b.Renaming ∧
      t.subst b = .forAll "a1" (.forAll "b" (.app (.var "a") (.var "a1")) none) (some 7) ∧
      (t.subst b).size = t.size ∧ Substitutes b [] t (t.subst b) := by
  intro b t
  have hb : b.Renaming := by
    intro x u hx
    have hmem := Bindings.mem_entries_of_get? hx
    simp only [b, List.mem_cons, Prod.mk.injEq, List.not_mem_nil, or_false] at hmem
    rcases hmem with ⟨-, rfl⟩ | ⟨-, rfl⟩
    · exact ⟨"a", rfl⟩
    · exact ⟨"a0", rfl⟩
  have hrenamed : Substitutes (.single "a" (.var "a1")) []
      (.forAll "b" (.app (.var "x") (.var "a")) none)
      (.forAll "b" (.app (.var "x") (.var "a1")) none) :=
    .keep (by decide) (by decide) (.app .var .var)
  have hbody : Substitutes (b.erase "a") ["a1"] (.forAll "b" (.app (.var "x") (.var "a1")) none)
      (.forAll "b" (.app (.var "a") (.var "a1")) none) :=
    .narrow (by decide) (.keep (by decide) (by decide) (.app .var .var))
  have hu : Substitutes b [] t (.forAll "a1" (.forAll "b" (.app (.var "a") (.var "a1")) none)
      (some 7)) := .rename (by decide) (by decide) (by decide) hrenamed hbody
  exact ⟨hb, (hu.eq_substUnder _ (Nat.le_refl _)).symm, ((subst_ends b t).1 hb).1,
    (subst_ends b t).2.2.1⟩

end Ty

end RowTypes
