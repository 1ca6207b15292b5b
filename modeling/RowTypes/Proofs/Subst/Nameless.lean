import RowTypes.Proofs.Subst.Equations
import RowTypes.Proofs.Subst.Fresh

/-!
# Substitution up to the names of bound variables

On nameless forms substitution is plain replacement: there is nothing to
capture and nothing to rename. `nameless_subst` says that `subst` is just
that, for all bindings and all types.

All the work is at a quantifier (`close_subst`). Its name may go out of
scope of the bindings, or be kept, or change; in each case the name that
it has in the end, bound after the substitution, is as good as the name
that it had, bound before.
-/

namespace RowTypes

/-- The nameless forms of the replacements. -/
def Bindings.image (b : Bindings) (x : Name) : Option Nameless := (b.get? x).map Ty.nameless

theorem Bindings.image_erase (b : Bindings) {v x : Name} (h : x ≠ v) :
    (b.erase v).image x = b.image x := by
  rw [image, get?_erase, if_neg h, image]

theorem Bindings.image_erase_self (b : Bindings) (v : Name) : (b.erase v).image v = none := by
  rw [image, get?_erase, if_pos rfl]
  rfl

namespace Nameless

/-- The image that puts a free name in the place of another. -/
def rename (v w : Name) (x : Name) : Option Nameless := if x = v then some (.free w) else none

theorem subst_rename_self (v : Name) (n : Nameless) : n.subst (rename v v) = n := by
  rw [subst, bindAt_congr (g := fun _ x => .free x), bindAt_free]
  intro i x _
  by_cases hx : x = v <;> simp [rename, hx]

/-- Below a quantifier over `v`, a name `w` that is not free there, has
no image and is in no image may stand for `v` while names are
replaced. -/
theorem close_subst {image inner : Name → Option Nameless} {v w : Name} {n : Nameless}
    (hinner : ∀ x, x ≠ v → inner x = image x) (hw : inner w = none)
    (hvalues : ∀ x p, inner x = some p → w ∉ p.freeNames)
    (hfree : ∀ x ∈ n.freeNames, x ≠ v → x ≠ w) :
    ((n.subst (rename v w)).subst inner).close w 0 =
      (n.close v 0).bindAt (fun _ x => (image x).getD (.free x)) 1 := by
  have hleft := bindAt_bindAt (fun _ x => (rename v w x).getD (.free x))
    (fun _ x => (inner x).getD (.free x)) n 0 0
  have hleft' := bindAt_bindAt (fun i x => ((rename v w x).getD (.free x)).bindAt
    (fun _ x => (inner x).getD (.free x)) (i + 0))
    (fun i x => if x = w then .bound i else .free x) n 0 0
  have hright := bindAt_bindAt (fun i x => if x = v then .bound i else .free x)
    (fun _ x => (image x).getD (.free x)) n 0 1
  rw [subst, subst, close, close]
  simp only [Nat.add_zero, Nat.zero_add] at hleft hleft' hright
  rw [hleft, hleft', hright]
  refine bindAt_congr fun i x hx => ?_
  by_cases hv : x = v
  · simp [hv, rename, bindAt, hw]
  · simp only [rename, if_neg hv, Option.getD_none, bindAt, hinner x hv]
    cases himage : image x with
    | none => simp [bindAt, hfree x hx hv]
    | some p =>
        exact close_of_not_mem (hvalues x p ((hinner x hv).trans himage)) i

end Nameless

namespace Ty

theorem image_single (v w : Name) :
    (Bindings.single v (.var w)).image = Nameless.rename v w := by
  funext x
  rw [Bindings.image, Bindings.get?_single, Nameless.rename]
  split <;> rfl

theorem not_mem_image {b : Bindings} {w : Name} (h : w ∉ b.freeVars) (x : Name) (p : Nameless)
    (hp : b.image x = some p) : w ∉ p.freeNames := by
  obtain ⟨t, ht, rfl⟩ := Option.map_eq_some_iff.mp hp
  exact fun hw => h (Bindings.mem_freeVars_of_get? ht (mem_freeVars.mpr hw))

theorem image_eq_none {b : Bindings} {w : Name} (h : w ∉ b.keys) : b.image w = none := by
  rw [Bindings.image, Option.map_eq_none_iff]
  by_contra hsome
  obtain ⟨t, ht⟩ := Option.ne_none_iff_exists'.mp hsome
  exact h (Bindings.mem_keys_of_get? ht)

theorem nameless_forAll (v : Name) (body : Ty) (scope : Option SkolemScope) :
    (forAll v body scope).nameless = .forAll scope (body.nameless.close v 0) := by
  rw [nameless, erase, erase_singleton]

section Quantifier

variable {b : Bindings} {v w : Name} {body body' : Ty} (scope : Option SkolemScope)

/-- A quantifier whose name is allowed in every respect may have it
instead of its own. -/
theorem nameless_forAll_renamed (hkeys : w ∉ (b.erase v).keys)
    (hvalues : w ∉ (b.erase v).freeVars) (hfree : w ∉ body.freeVars)
    (hbody : body'.nameless =
      (body.nameless.subst (Nameless.rename v w)).subst (b.erase v).image) :
    (forAll w body' scope).nameless = (forAll v body scope).nameless.subst b.image := by
  have h := Nameless.close_subst (n := body.nameless) (fun x hx => b.image_erase hx)
    (image_eq_none hkeys) (not_mem_image hvalues)
    fun x hx _ hxw => hfree (mem_freeVars.mpr (hxw ▸ hx))
  rw [nameless_forAll, nameless_forAll, hbody, h]
  rfl

/-- A quantifier may keep its name if no replacement has it free. -/
theorem nameless_forAll_kept (hv : v ∉ (b.erase v).freeVars)
    (hbody : body'.nameless = body.nameless.subst (b.erase v).image) :
    (forAll v body' scope).nameless = (forAll v body scope).nameless.subst b.image := by
  have h := Nameless.close_subst (n := body.nameless) (fun x hx => b.image_erase hx)
    (b.image_erase_self v) (not_mem_image hv) fun x _ hx => hx
  rw [Nameless.subst_rename_self] at h
  rw [nameless_forAll, nameless_forAll, hbody, h]
  rfl

end Quantifier

/-- The invariant of substitution, by induction on the levels. Renaming
the body of a quantifier gives no smaller a type, but one of the same
depth. -/
theorem nameless_substUnder (levels : Nat) (b : Bindings) (bound : List Name) (t : Ty)
    (hd : t.depth ≤ levels) :
    (substUnder levels b bound t).nameless = t.nameless.subst b.image := by
  induction levels generalizing b bound t with
  | zero => exact absurd (depth_pos t) (by omega)
  | succ n ih =>
      cases t using cases_plain with
      | var v =>
          rw [substUnder_var]
          show _ = (b.image v).getD (.free v)
          rw [Bindings.image]
          cases b.get? v <;> rfl
      | forAll v body scope =>
          have hbody := depth_body_lt v body scope
          rw [substUnder_forAll]
          split
          · next hclash =>
            have hfresh := freshName_not_mem v ((b.erase v).keys ++ bound ++
              (b.erase v).freeVars ++ body.freeVars)
            rw [← freshBinder] at hfresh
            generalize freshBinder (b.erase v) bound v body = w at hfresh ⊢
            simp only [List.mem_append, not_or] at hfresh
            obtain ⟨⟨⟨hkeys, -⟩, hvalues⟩, hfree⟩ := hfresh
            -- the renamed body is no part of the type, but no deeper than the body
            have hrenamed := depth_substUnder (Bindings.renaming_single v w) n bound body
            refine nameless_forAll_renamed scope hkeys hvalues hfree ?_
            rw [ih _ _ _ (by omega), ih _ _ _ (by omega), image_single]
          · next hclash => exact nameless_forAll_kept scope hclash (ih _ _ _ (by omega))
      | display t h => rw [substUnder_display h, nameless, erase_display h]; rfl
      | plain t h =>
          have hkids : (t.rebuild (t.children.map (substUnder n b bound))).children =
              t.children.map (substUnder n b bound) :=
            children_rebuild_of_length (List.length_map _)
          rw [substUnder_plain h, nameless, erase_plain (by rwa [head_rebuild]), hkids,
            head_rebuild, nameless, erase_plain h, Nameless.subst, Nameless.bindAt_node,
            List.map_map, List.map_map]
          refine congrArg (Nameless.node t.head) (List.map_congr_left fun c hc => ?_)
          have := depth_child_lt hc
          exact ih b bound c (by omega)

/-- Substituting in a type is replacing in its nameless form: every free
name that is bound goes, all at once, and nothing else changes. -/
theorem nameless_subst (b : Bindings) (t : Ty) :
    (t.subst b).nameless = t.nameless.subst fun x => (b.get? x).map nameless :=
  nameless_substUnder t.depth b [] t (Nat.le_refl _)

end Ty

end RowTypes
