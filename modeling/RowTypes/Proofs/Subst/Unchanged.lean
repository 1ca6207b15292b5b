import RowTypes.Proofs.Occurrences
import RowTypes.Proofs.Subst.FreeVars
import RowTypes.Proofs.Ty.Quantifiers

/-!
# Substitutions that change nothing

A substitution gives back the very type it is made in, and not one that
is alpha-equivalent to it, where each binding of a free variable is to
that variable itself and no quantifier has a name that is free in a
replacement, those for the name itself apart (`substUnder_eq_self`). The
condition is on the type as a whole: it goes on holding below each
quantifier, with one binding less and one more name out of view.
-/

namespace RowTypes

namespace Bindings

theorem get?_eq_some_iff {b : Bindings} {x : Name} {t : Ty} :
    b.get? x = some t ↔ (x, t) ∈ b.entries := by
  refine ⟨mem_entries_of_get?, fun h => ?_⟩
  obtain ⟨before, after, he⟩ := List.append_of_mem h
  have hnodup := b.nodup
  rw [he, List.map_append, List.map_cons] at hnodup
  rw [get?, List.lookup_eq_some_iff]
  refine ⟨before, after, he, fun e hmem => bne_iff_ne.mpr fun heq => ?_⟩
  exact (List.nodup_append.mp hnodup).2.2 e.1 (List.mem_map_of_mem hmem) x List.mem_cons_self
    heq.symm

theorem mem_freeVars_iff {b : Bindings} {y : Name} :
    y ∈ b.freeVars ↔ ∃ x t, b.get? x = some t ∧ y ∈ t.freeVars := by
  rw [freeVars, List.mem_flatMap, Prod.exists]
  simp only [get?_eq_some_iff]

theorem get?_of_get?_erase {b : Bindings} {v x : Name} {t : Ty} (h : (b.erase v).get? x = some t) :
    x ≠ v ∧ b.get? x = some t := by
  rw [get?_erase] at h
  split at h
  · cases h
  · next hx => exact ⟨hx, h⟩

/-- Fewer bindings have fewer free variables. -/
theorem mem_freeVars_mono {b b' : Bindings} (h : ∀ x t, b'.get? x = some t → b.get? x = some t)
    {y : Name} (hy : y ∈ b'.freeVars) : y ∈ b.freeVars := by
  obtain ⟨x, t, ht, hmem⟩ := mem_freeVars_iff.mp hy
  exact mem_freeVars_of_get? (h x t ht) hmem

end Bindings

namespace Ty

theorem mem_freeVars_forAll {v x : Name} {body : Ty} {scope : Option SkolemScope} :
    x ∈ (forAll v body scope).freeVars ↔ x ∈ body.freeVars ∧ x ≠ v := by
  rw [freeVars_forAll, List.mem_filter, decide_eq_true_eq]

theorem mem_freeVars_plain {t : Ty} (h : t.head.plain) {x : Name} :
    x ∈ t.freeVars ↔ ∃ c ∈ t.children, x ∈ c.freeVars := by
  simp only [mem_freeVars, nameless]
  rw [erase_plain h, Nameless.freeNames_node, List.flatMap_map, List.mem_flatMap]

theorem substUnder_eq_self {b : Bindings} {t : Ty}
    (hfree : ∀ x ∈ t.freeVars, ∀ u, b.get? x = some u → u = .var x)
    (hnames : ∀ v ∈ t.quantified, v ∉ (b.erase v).freeVars) (levels : Nat) (bound : List Name) :
    substUnder levels b bound t = t := by
  induction levels generalizing b bound t with
  | zero => rfl
  | succ n ih =>
      cases t using cases_plain with
      | var v =>
          rw [substUnder_var]
          cases hv : b.get? v with
          | none => rfl
          | some u => exact hfree v List.mem_cons_self u hv
      | forAll v body scope =>
          rw [quantified_forAll, List.forall_mem_cons] at hnames
          rw [substUnder_forAll, if_neg hnames.1]
          refine congrArg (forAll v · scope) (ih (fun x hx u hu => ?_) (fun w hw hmem => ?_) _)
          · obtain ⟨hne, hu⟩ := Bindings.get?_of_get?_erase hu
            exact hfree x (mem_freeVars_forAll.mpr ⟨hx, hne⟩) u hu
          · refine hnames.2 w hw (Bindings.mem_freeVars_mono (fun x u hu => ?_) hmem)
            obtain ⟨hw', hu⟩ := Bindings.get?_of_get?_erase hu
            rw [Bindings.get?_erase, if_neg hw']
            exact (Bindings.get?_of_get?_erase hu).2
      | display t h => exact substUnder_display h _ b bound
      | plain t h =>
          rw [quantified_plain h, List.forall_mem_flatMap] at hnames
          have hkids : t.children.map (substUnder n b bound) = t.children.map id :=
            List.map_congr_left fun c hc => ih
              (fun x hx => hfree x ((mem_freeVars_plain h).mpr ⟨c, hc, hx⟩)) (hnames c hc) bound
          rw [substUnder_plain h, hkids, List.map_id, rebuild_children]

/-- Where no key is free and no quantifier has a name that is free in a
replacement, substitution changes nothing, not even the name of a
quantifier. -/
theorem subst_eq_self {b : Bindings} {t : Ty} (hkeys : ∀ x ∈ b.keys, x ∉ t.freeVars)
    (hnames : ∀ v ∈ t.quantified, v ∉ b.freeVars) : t.subst b = t := by
  refine substUnder_eq_self (fun x hx u hu => ?_) (fun v hv hmem => ?_) t.depth []
  · exact absurd hx (hkeys x (Bindings.mem_keys_of_get? hu))
  · exact hnames v hv (Bindings.mem_freeVars_mono
      (fun x u hu => (Bindings.get?_of_get?_erase hu).2) hmem)

/-- One key is the name of a quantifier and bound by it, the other stands
inside a display-only form, below a quantifier that has the name of a
replacement. -/
theorem subst_eq_self_shadowed :
    let b : Bindings := ⟨[("a", .app (.var "c") (.var "y")), ("b", .var "y")], by decide⟩
    let t : Ty := .app (.forAll "a" (.app (.var "a") (.var "z")) (some 1))
      (.prettyObject (.forAll "y" (.var "b") none))
    (∀ x ∈ b.keys, x ∉ t.freeVars) ∧ (∀ v ∈ t.quantified, v ∉ b.freeVars) ∧ t.subst b = t := by
  intro b t
  have hkeys : ∀ x ∈ b.keys, x ∉ t.freeVars := by decide
  have hnames : ∀ v ∈ t.quantified, v ∉ b.freeVars := by decide
  exact ⟨hkeys, hnames, subst_eq_self hkeys hnames⟩

/-- Binding variables to themselves changes nothing, whatever the names
of the quantifiers: one that has the name of a key takes away just the
binding whose replacement it would capture. -/
theorem subst_identity {b : Bindings} (h : ∀ x ∈ b.keys, b.get? x = some (.var x)) (t : Ty) :
    t.subst b = t := by
  have hvar : ∀ x u, b.get? x = some u → u = .var x := fun x u hu =>
    Option.some.inj (hu.symm.trans (h x (Bindings.mem_keys_of_get? hu)))
  refine substUnder_eq_self (fun x _ => hvar x) (fun v _ hmem => ?_) t.depth []
  obtain ⟨x, u, hu, hv⟩ := Bindings.mem_freeVars_iff.mp hmem
  obtain ⟨hne, hu⟩ := Bindings.get?_of_get?_erase hu
  obtain rfl := hvar x u hu
  exact hne (List.mem_singleton.mp hv).symm

/-- Both keys are names of quantifiers, one inside the other. -/
theorem subst_identity_nested :
    let b : Bindings := ⟨[("a", .var "a"), ("b", .var "b")], by decide⟩
    let t : Ty := .forAll "a" (.app (.var "b") (.forAll "b" (.app (.var "a") (.var "b")) none))
      (some 3)
    (∀ x ∈ b.keys, b.get? x = some (.var x)) ∧ t.subst b = t := by
  intro b t
  have h : ∀ x ∈ b.keys, b.get? x = some (.var x) := by
    intro x hx
    have hcases : x = "a" ∨ x = "b" := by simpa [b, Bindings.keys] using hx
    rcases hcases with rfl | rfl <;> rfl
  exact ⟨h, subst_identity h t⟩

end Ty

end RowTypes
