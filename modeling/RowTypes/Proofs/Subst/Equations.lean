import Mathlib.Data.List.Basic
import RowTypes.Proofs.FreeVars
import RowTypes.Proofs.Ty.Unnamed
import RowTypes.Subst

/-!
# Substitution, case by case

Bindings seen as functions (`get?`), and what `substUnder` does at each
kind of node. A type is kept where nothing is bound or nothing in it can
change; the equations hold there too, so no later proof looks at these
shortcuts. Renaming, which is substitution of variables for variables,
keeps a type but for names (`unnamed_substUnder`), so also its depth.
-/

namespace RowTypes

/-! ## Bindings -/

namespace Bindings

theorem get?_of_isEmpty {b : Bindings} (h : b.isEmpty) (v : Name) : b.get? v = none := by
  rw [get?, List.isEmpty_iff.mp h]
  rfl

theorem lookup_cons_eq (x y : Name) (t : Ty) (entries : List (Name × Ty)) :
    ((y, t) :: entries).lookup x = if x = y then some t else entries.lookup x := by
  by_cases hx : x = y
  · rw [if_pos hx, List.lookup_cons, beq_iff_eq.mpr hx]
  · rw [if_neg hx, List.lookup_cons, beq_false_of_ne hx]

theorem lookup_filter (p : Name → Bool) (entries : List (Name × Ty)) (x : Name) :
    (entries.filter fun e => p e.1).lookup x = if p x then entries.lookup x else none := by
  induction entries with
  | nil => simp
  | cons e entries ih =>
      obtain ⟨y, t⟩ := e
      rw [List.filter_cons, lookup_cons_eq]
      by_cases hx : x = y
      · subst hx
        by_cases hp : p x <;> simp [hp, ih]
      · rw [if_neg hx, ← ih]
        split
        · rw [lookup_cons_eq, if_neg hx]
        · rfl

theorem get?_erase (b : Bindings) (v x : Name) :
    (b.erase v).get? x = if x = v then none else b.get? x := by
  have hlookup : (b.erase v).get? x = if decide (x ≠ v) then b.get? x else none :=
    lookup_filter (fun y => decide (y ≠ v)) b.entries x
  rw [hlookup]
  by_cases hx : x = v <;> simp [hx]

theorem not_mem_keys_erase (b : Bindings) (v : Name) : v ∉ (b.erase v).keys := by
  simp [keys, erase]

theorem erase_of_not_mem {b : Bindings} {v : Name} (h : v ∉ b.keys) : b.erase v = b := by
  obtain ⟨entries, nodup⟩ := b
  have hfilter : entries.filter (·.1 ≠ v) = entries := by
    rw [List.filter_eq_self]
    intro e he
    exact decide_eq_true fun heq => h (List.mem_map.mpr ⟨e, he, heq⟩)
  simp only [erase, hfilter]

theorem isEmpty_erase (b : Bindings) (h : b.isEmpty) (v : Name) : (b.erase v).isEmpty := by
  simp [isEmpty, erase, List.isEmpty_iff.mp h]

theorem freeVars_of_isEmpty {b : Bindings} (h : b.isEmpty) : b.freeVars = [] := by
  rw [freeVars, List.isEmpty_iff.mp h, List.flatMap_nil]

theorem get?_single (v x : Name) (t : Ty) :
    (single v t).get? x = if x = v then some t else none :=
  lookup_cons_eq x v t []

theorem mem_entries_of_get? {b : Bindings} {x : Name} {t : Ty} (h : b.get? x = some t) :
    (x, t) ∈ b.entries := by
  rw [get?, List.lookup_eq_some_iff] at h
  obtain ⟨before, after, he, -⟩ := h
  rw [he]
  simp

theorem mem_keys_of_get? {b : Bindings} {x : Name} {t : Ty} (h : b.get? x = some t) :
    x ∈ b.keys :=
  List.mem_map.mpr ⟨(x, t), mem_entries_of_get? h, rfl⟩

theorem mem_freeVars_of_get? {b : Bindings} {x y : Name} {t : Ty} (h : b.get? x = some t)
    (hy : y ∈ t.freeVars) : y ∈ b.freeVars :=
  List.mem_flatMap.mpr ⟨(x, t), mem_entries_of_get? h, hy⟩

/-- Variables are bound to variables. -/
def Renaming (b : Bindings) : Prop := ∀ x t, b.get? x = some t → ∃ y, t = .var y

theorem renaming_single (v w : Name) : (single v (.var w)).Renaming := by
  intro x t hx
  rw [get?_single] at hx
  split at hx
  · exact ⟨w, (Option.some.inj hx).symm⟩
  · cases hx

theorem Renaming.erase {b : Bindings} (h : b.Renaming) (v : Name) : (b.erase v).Renaming := by
  intro x t hx
  rw [get?_erase] at hx
  split at hx
  · cases hx
  · exact h x t hx

end Bindings

namespace Ty

/-! ## The cases of substitution -/

/-- Whether there is nothing to do in a type. -/
def untouched (b : Bindings) (t : Ty) : Bool :=
  b.isEmpty || !(t.has .vars || t.has .quantifiers)

theorem substUnder_untouched {b : Bindings} {t : Ty} (h : untouched b t) (levels : Nat)
    (bound : List Name) : substUnder levels b bound t = t := by
  cases levels with
  | zero => rfl
  | succ n =>
      unfold substUnder
      exact if_pos h

theorem untouched_child {b : Bindings} {t c : Ty} (h : untouched b t) (hc : c ∈ t.children) :
    untouched b c := by
  simp only [untouched, Bool.or_eq_true, Bool.not_eq_true', Bool.or_eq_false_iff] at h ⊢
  refine h.imp_right fun ⟨hv, hq⟩ => ?_
  rw [has_eq, Bool.or_eq_false_iff, List.any_eq_false] at hv hq
  exact ⟨by simpa using hv.2 c hc, by simpa using hq.2 c hc⟩

theorem substUnder_var (n : Nat) (b : Bindings) (bound : List Name) (v : Name) :
    substUnder (n + 1) b bound (.var v) = (b.get? v).getD (.var v) := by
  rw [substUnder]
  split
  · next h =>
    have hb : b.isEmpty := by simpa [has] using h
    rw [Bindings.get?_of_isEmpty hb]
    rfl
  · rfl

/-- The name of a quantifier below which `b` is substituted. -/
def freshBinder (b : Bindings) (bound : List Name) (v : Name) (body : Ty) : Name :=
  freshName v (b.keys ++ bound ++ b.freeVars ++ body.freeVars)

theorem substUnder_forAll (n : Nat) (b : Bindings) (bound : List Name) (v : Name) (body : Ty)
    (scope : Option SkolemScope) :
    substUnder (n + 1) b bound (.forAll v body scope) =
      if v ∈ (b.erase v).freeVars then
        let fresh := freshBinder (b.erase v) bound v body
        .forAll fresh (substUnder n (b.erase v) (fresh :: bound)
          (substUnder n (.single v (.var fresh)) bound body)) scope
      else .forAll v (substUnder n (b.erase v) (v :: bound) body) scope := by
  by_cases hempty : (b.erase v).isEmpty
  · -- with no binding left, going on below the quantifier gives the body back
    have hbody : untouched (b.erase v) body := by simp [untouched, hempty]
    rw [Bindings.freeVars_of_isEmpty hempty, if_neg List.not_mem_nil,
      substUnder_untouched hbody, substUnder]
    split
    · rfl
    · exact if_pos hempty
  · rw [substUnder]
    split
    · next h =>
      have hb : b.isEmpty := by simpa [has] using h
      exact absurd (b.isEmpty_erase hb v) hempty
    · exact if_neg hempty

theorem substUnder_display {t : Ty} (h : t.head.display) (levels : Nat) (b : Bindings)
    (bound : List Name) : substUnder levels b bound t = t := by
  cases levels with
  | zero => rfl
  | succ n =>
      unfold substUnder
      split
      · rfl
      · cases t <;> simp [head, Head.display] at h <;> rfl

theorem substUnder_plain {t : Ty} (h : t.head.plain) (n : Nat) (b : Bindings)
    (bound : List Name) :
    substUnder (n + 1) b bound t = t.rebuild (t.children.map (substUnder n b bound)) := by
  by_cases hu : untouched b t
  · rw [substUnder_untouched hu, List.map_congr_left (g := id), List.map_id, rebuild_children]
    exact fun c hc => substUnder_untouched (untouched_child hu hc) n bound
  · unfold substUnder
    refine (if_neg hu).trans ?_
    cases t <;> simp [head, Head.plain, Head.display] at h <;> rfl

/-! ## Renaming -/

/-- Renaming changes the names of variables and quantifiers and nothing
else. -/
theorem unnamed_substUnder {b : Bindings} (hb : b.Renaming) (levels : Nat) (bound : List Name)
    (t : Ty) : (substUnder levels b bound t).unnamed = t.unnamed := by
  induction levels generalizing b bound t with
  | zero => rfl
  | succ n ih =>
      cases t using cases_plain with
      | var v =>
          rw [substUnder_var]
          cases hv : b.get? v with
          | none => rfl
          | some u =>
              obtain ⟨y, rfl⟩ := hb v u hv
              rfl
      | forAll v body scope =>
          rw [substUnder_forAll, unnamed_eq_iff]
          split
          · refine ⟨rfl, congrArg ([·]) ?_⟩
            rw [ih (hb.erase v), ih (Bindings.renaming_single v _)]
          · exact ⟨rfl, congrArg ([·]) (ih (hb.erase v) _ _)⟩
      | display t h => rw [substUnder_display h]
      | plain t h =>
          rw [substUnder_plain h, unnamed_eq_iff, head_rebuild,
            children_rebuild_of_length (List.length_map _), List.map_map]
          exact ⟨rfl, List.map_congr_left fun c _ => ih hb bound c⟩

theorem depth_substUnder {b : Bindings} (hb : b.Renaming) (levels : Nat) (bound : List Name)
    (t : Ty) : (substUnder levels b bound t).depth = t.depth :=
  depth_eq_of_unnamed (unnamed_substUnder hb levels bound t)

end Ty

end RowTypes
