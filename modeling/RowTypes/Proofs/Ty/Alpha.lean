import RowTypes.Proofs.Ty.Nameless

/-!
# Types up to the names of bound variables

Two types are alpha-equivalent if the one becomes the other by renaming
quantifiers together with the variables they bind. `AlphaUnder` says so
by going through both types at once with a list of the quantifiers gone
through, each as a pair of names; display-only forms have to be the same.
Alpha-equivalent types are those with one nameless form
(`alphaEquiv_iff`).
-/

namespace RowTypes

namespace Ty

/-- Two variables below paired quantifiers, the innermost pair first,
that are bound by the same pair, or are free and the same. -/
inductive Paired : List (Name × Name) → Name → Name → Prop where
  | free (x : Name) : Paired [] x x
  | here (pairs : List (Name × Name)) (v w : Name) : Paired ((v, w) :: pairs) v w
  | there {pairs : List (Name × Name)} {v w x y : Name} (hv : x ≠ v) (hw : y ≠ w)
      (h : Paired pairs x y) : Paired ((v, w) :: pairs) x y

mutual

/-- Two types below paired quantifiers that differ in the names of bound
variables only. -/
inductive AlphaUnder : List (Name × Name) → Ty → Ty → Prop where
  | var {pairs : List (Name × Name)} {v w : Name} (h : Paired pairs v w) :
      AlphaUnder pairs (.var v) (.var w)
  | forAll {pairs : List (Name × Name)} {v w : Name} {body body' : Ty}
      (scope : Option SkolemScope) (h : AlphaUnder ((v, w) :: pairs) body body') :
      AlphaUnder pairs (.forAll v body scope) (.forAll w body' scope)
  | display {pairs : List (Name × Name)} {t : Ty} (h : t.head.display) : AlphaUnder pairs t t
  | plain {pairs : List (Name × Name)} {t u : Ty} (h : t.head.plain) (hhead : u.head = t.head)
      (hkids : AllAlphaUnder pairs t.children u.children) : AlphaUnder pairs t u

/-- Two lists of such types, one for one. -/
inductive AllAlphaUnder : List (Name × Name) → List Ty → List Ty → Prop where
  | nil {pairs : List (Name × Name)} : AllAlphaUnder pairs [] []
  | cons {pairs : List (Name × Name)} {t u : Ty} {ts us : List Ty} (h : AlphaUnder pairs t u)
      (hs : AllAlphaUnder pairs ts us) : AllAlphaUnder pairs (t :: ts) (u :: us)

end

/-- Equality up to consistent renaming of quantifiers. -/
def AlphaEquiv (t u : Ty) : Prop := AlphaUnder [] t u

/-! ## Nameless forms decide -/

section

variable {pairs : List (Name × Name)}

theorem resolve_cons (env : List Name) (v x : Name) :
    resolve (v :: env) x =
      if x = v then .bound 0
      else match env.idxOf? x with
        | some i => .bound (i + 1)
        | none => .free x := by
  rw [resolve, List.idxOf?_cons]
  by_cases h : x = v
  · rw [if_pos h, beq_iff_eq.mpr h.symm]
    rfl
  · rw [if_neg h, beq_false_of_ne (Ne.symm h)]
    cases env.idxOf? x <;> rfl

/-- Two variables have one nameless form if the innermost quantifiers
bind both, or if they bind neither and those further out agree. -/
theorem resolve_cons_eq_iff (env env' : List Name) {v w x y : Name} :
    resolve (v :: env) x = resolve (w :: env') y ↔
      (x = v ∧ y = w) ∨ (x ≠ v ∧ y ≠ w ∧ resolve env x = resolve env' y) := by
  rw [resolve_cons, resolve_cons, resolve, resolve]
  by_cases hx : x = v <;> by_cases hy : y = w <;> cases env.idxOf? x <;>
    cases env'.idxOf? y <;> simp [hx, hy]

theorem paired_cons_iff {v w x y : Name} :
    Paired ((v, w) :: pairs) x y ↔
      (x = v ∧ y = w) ∨ (x ≠ v ∧ y ≠ w ∧ Paired pairs x y) := by
  constructor
  · rintro (_ | _ | ⟨hv, hw, h⟩)
    · exact .inl ⟨rfl, rfl⟩
    · exact .inr ⟨hv, hw, h⟩
  · rintro (⟨rfl, rfl⟩ | ⟨hv, hw, h⟩)
    · exact .here pairs x y
    · exact .there hv hw h

theorem paired_iff {x y : Name} :
    Paired pairs x y ↔ resolve (pairs.map Prod.fst) x = resolve (pairs.map Prod.snd) y := by
  induction pairs with
  | nil =>
      constructor
      · rintro ⟨⟩
        rfl
      · rintro ⟨⟩
        exact .free x
  | cons p pairs ih =>
      rw [paired_cons_iff, ih]
      exact (resolve_cons_eq_iff _ _).symm

theorem allAlphaUnder_iff {ts us : List Ty}
    (h : ∀ t ∈ ts, ∀ u, AlphaUnder pairs t u ↔
      t.erase (pairs.map Prod.fst) = u.erase (pairs.map Prod.snd)) :
    AllAlphaUnder pairs ts us ↔
      ts.map (erase (pairs.map Prod.fst)) = us.map (erase (pairs.map Prod.snd)) := by
  induction ts generalizing us with
  | nil =>
      constructor
      · intro hall
        cases hall
        rfl
      · intro heq
        rw [List.map_nil, eq_comm, List.map_eq_nil_iff] at heq
        rw [heq]
        exact .nil
  | cons t ts ih =>
      have ht := h t List.mem_cons_self
      have hlater := fun t ht => h t (List.mem_cons_of_mem _ ht)
      cases us with
      | nil =>
          constructor
          · intro hall
            cases hall
          · intro heq
            cases heq
      | cons u us =>
          rw [List.map_cons, List.map_cons, List.cons.injEq, ← ht u, ← ih hlater]
          constructor
          · intro hall
            cases hall with
            | cons hhead htail => exact ⟨hhead, htail⟩
          · rintro ⟨hhead, htail⟩
            exact .cons hhead htail

/-! ### What a nameless form says of its type -/

theorem resolve_cases (env : List Name) (v : Name) :
    (∃ i, resolve env v = .bound i) ∨ resolve env v = .free v := by
  rw [resolve]
  cases env.idxOf? v with
  | none => exact .inr rfl
  | some i => exact .inl ⟨i, rfl⟩

theorem eq_var_of_erase {env env' : List Name} {v : Name} {u : Ty}
    (h : resolve env v = u.erase env') : ∃ w, u = .var w := by
  cases u using cases_plain with
  | var w => exact ⟨w, rfl⟩
  | forAll w body scope =>
      rcases resolve_cases env v with ⟨i, hi⟩ | hi <;> rw [hi] at h <;> cases h
  | display u hu =>
      rw [erase_display hu] at h
      rcases resolve_cases env v with ⟨i, hi⟩ | hi <;> rw [hi] at h <;> cases h
  | plain u hu =>
      rw [erase_plain hu] at h
      rcases resolve_cases env v with ⟨i, hi⟩ | hi <;> rw [hi] at h <;> cases h

theorem eq_forAll_of_erase {env : List Name} {scope : Option SkolemScope} {n : Nameless} {u : Ty}
    (h : .forAll scope n = u.erase env) :
    ∃ w body, u = .forAll w body scope ∧ n = body.erase (w :: env) := by
  cases u using cases_plain with
  | var w => rcases resolve_cases env w with ⟨i, hi⟩ | hi <;> rw [erase, hi] at h <;> cases h
  | forAll w body scope' =>
      cases h
      exact ⟨w, body, rfl, rfl⟩
  | display u hu =>
      rw [erase_display hu] at h
      cases h
  | plain u hu =>
      rw [erase_plain hu] at h
      cases h

theorem eq_of_erase_display {env : List Name} {t u : Ty} (h : .display t = u.erase env) :
    t = u := by
  cases u using cases_plain with
  | var w => rcases resolve_cases env w with ⟨i, hi⟩ | hi <;> rw [erase, hi] at h <;> cases h
  | forAll w body scope => cases h
  | display u hu =>
      rw [erase_display hu] at h
      exact Nameless.display.inj h
  | plain u hu =>
      rw [erase_plain hu] at h
      cases h

theorem head_of_erase_node {env : List Name} {hd : Head} {ps : List Nameless} {u : Ty}
    (h : .node hd ps = u.erase env) : u.head = hd ∧ ps = u.children.map (erase env) := by
  cases u using cases_plain with
  | var w => rcases resolve_cases env w with ⟨i, hi⟩ | hi <;> rw [erase, hi] at h <;> cases h
  | forAll w body scope => cases h
  | display u hu =>
      rw [erase_display hu] at h
      cases h
  | plain u hu =>
      rw [erase_plain hu, Nameless.node.injEq] at h
      exact ⟨h.1.symm, h.2⟩

/-! ### Alpha-equivalence -/

theorem alphaUnder_iff {t u : Ty} :
    AlphaUnder pairs t u ↔ t.erase (pairs.map Prod.fst) = u.erase (pairs.map Prod.snd) := by
  induction t using induction_on_children generalizing pairs u with
  | step t ih =>
      constructor
      · intro h
        cases h with
        | var h => exact paired_iff.mp h
        | forAll scope h =>
            exact congrArg (Nameless.forAll scope) ((ih _ (List.mem_singleton.mpr rfl)).mp h)
        | display h => rw [erase_display h, erase_display h]
        | plain h hhead hkids =>
            have hmap := (allAlphaUnder_iff fun c hc _ => ih c hc).mp hkids
            rw [erase_plain h, erase_plain (hhead ▸ h), hhead, hmap]
      · intro h
        cases t using cases_plain with
        | var v =>
            obtain ⟨w, rfl⟩ := eq_var_of_erase h
            exact .var (paired_iff.mpr h)
        | forAll v body scope =>
            obtain ⟨w, body', rfl, hbody⟩ := eq_forAll_of_erase h
            exact .forAll scope ((ih body (List.mem_singleton.mpr rfl)).mpr hbody)
        | display t ht =>
            rw [erase_display ht] at h
            obtain rfl := eq_of_erase_display h
            exact .display ht
        | plain t ht =>
            rw [erase_plain ht] at h
            obtain ⟨hhead, hmap⟩ := head_of_erase_node h
            exact .plain ht hhead ((allAlphaUnder_iff fun c hc _ => ih c hc).mpr hmap)

end

/-- Alpha-equivalent types are those with one nameless form. -/
theorem alphaEquiv_iff {t u : Ty} : AlphaEquiv t u ↔ t.nameless = u.nameless :=
  alphaUnder_iff

end Ty

end RowTypes
