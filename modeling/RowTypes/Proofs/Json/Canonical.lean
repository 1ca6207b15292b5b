import Mathlib.Data.String.Basic
import RowTypes.Proofs.Json.Parts
import RowTypes.Wire.Decode

/-!
# Canonical forms

The canonical form of a value is canonical already
(`canonical_canonical`). It is as deep as the value, if no key of an
object repeats (`depth_canonical`), its parts are readable and in range
if those of the value are (`all_canonical`), and a key has in it the
canonical form of what it has in the value (`field?_canonical`).
-/

namespace RowTypes

namespace Json

/-! ## One more field -/

theorem mem_insertField {key : String} {value : Json} {fs : List (String × Json)}
    {f : String × Json} (h : f ∈ insertField key value fs) : f = (key, value) ∨ f ∈ fs := by
  induction fs with
  | nil => exact Or.inl (List.mem_singleton.mp h)
  | cons g fs ih =>
      obtain ⟨k, v⟩ := g
      rw [insertField] at h
      split at h
      · exact Or.inr h
      · split at h
        · exact List.mem_cons.mp h
        · rcases List.mem_cons.mp h with rfl | h
          · exact Or.inr List.mem_cons_self
          · rcases ih h with h | h
            · exact Or.inl h
            · exact Or.inr (List.mem_cons_of_mem _ h)

section

variable {key : String} {value : Json}

theorem filter_insertField {fs : List (String × Json)} (h : key ∉ fs.map Prod.fst) (k : String) :
    (insertField key value fs).filter (·.1 = k) = ((key, value) :: fs).filter (·.1 = k) := by
  induction fs with
  | nil => rfl
  | cons g fs ih =>
      obtain ⟨k', v'⟩ := g
      simp only [List.map_cons, List.mem_cons, not_or] at h
      rw [insertField, if_neg (Ne.symm h.1)]
      split
      · rfl
      · rw [List.filter_cons, ih h.2]
        by_cases hk : k' = k
        · have hkey : key ≠ k := fun hkey => h.1 (hkey.trans hk.symm)
          simp [hk, hkey]
        · simp [List.filter_cons, hk]

theorem depthFields_insertField {fs : List (String × Json)} (h : key ∉ fs.map Prod.fst) :
    depthFields (insertField key value fs) = max value.depth (depthFields fs) := by
  induction fs with
  | nil => rfl
  | cons g fs ih =>
      obtain ⟨k', v'⟩ := g
      simp only [List.map_cons, List.mem_cons, not_or] at h
      rw [insertField, if_neg (Ne.symm h.1)]
      split
      · rfl
      · rw [depthFields, depthFields, ih h.2, Nat.max_left_comm]

theorem sorted_insertField {fs : List (String × Json)}
    (h : fs.Pairwise fun f g => f.1 < g.1) :
    (insertField key value fs).Pairwise fun f g => f.1 < g.1 := by
  induction fs with
  | nil => exact List.pairwise_singleton _ _
  | cons g fs ih =>
      obtain ⟨k', v'⟩ := g
      have hlater := List.pairwise_cons.mp h
      rw [insertField]
      split
      · exact h
      · next hne =>
        split
        · next hlt =>
          refine List.pairwise_cons.mpr ⟨fun f hf => ?_, h⟩
          rcases List.mem_cons.mp hf with rfl | hf
          · exact hlt
          · exact lt_trans hlt (hlater.1 f hf)
        · next hnot =>
          -- the new field comes somewhere behind, and its key is greater too
          refine List.pairwise_cons.mpr ⟨fun f hf => ?_, ih hlater.2⟩
          rcases mem_insertField hf with rfl | hf
          · exact lt_of_le_of_ne (not_lt.mp hnot) hne
          · exact hlater.1 f hf

theorem insertField_of_lt {fs : List (String × Json)} (h : ∀ f ∈ fs, key < f.1) :
    insertField key value fs = (key, value) :: fs := by
  cases fs with
  | nil => rfl
  | cons g fs =>
      obtain ⟨k', v'⟩ := g
      have hlt : key < k' := h (k', v') List.mem_cons_self
      rw [insertField, if_neg (ne_of_gt hlt), if_pos hlt]

end

/-! ## Idempotence -/

theorem sorted_canonicalFields (fs : List (String × Json)) :
    (canonicalFields fs).Pairwise fun f g => f.1 < g.1 := by
  induction fs with
  | nil => exact List.Pairwise.nil
  | cons f fs ih =>
      obtain ⟨k, j⟩ := f
      rw [canonicalFields]
      exact sorted_insertField ih

theorem canonicalItems_of_canonical {js : List Json} (h : ∀ j ∈ js, j.canonical = j) :
    canonicalItems js = js := by
  induction js with
  | nil => rfl
  | cons j js ih =>
      rw [canonicalItems, h j List.mem_cons_self, ih fun i hi => h i (List.mem_cons_of_mem _ hi)]

theorem canonicalFields_of_canonical {fs : List (String × Json)}
    (hsorted : fs.Pairwise fun f g => f.1 < g.1) (h : ∀ f ∈ fs, f.2.canonical = f.2) :
    canonicalFields fs = fs := by
  induction fs with
  | nil => rfl
  | cons f fs ih =>
      obtain ⟨k, j⟩ := f
      have hlater := List.pairwise_cons.mp hsorted
      have hj : j.canonical = j := h (k, j) List.mem_cons_self
      rw [canonicalFields, hj, ih hlater.2 fun g hg => h g (List.mem_cons_of_mem _ hg),
        insertField_of_lt hlater.1]

mutual

/-- A canonical form is its own canonical form. -/
theorem canonical_canonical : ∀ j : Json, j.canonical.canonical = j.canonical
  | .null | .bool _ | .num _ | .str _ | .unreadable => rfl
  | .arr items => by
      rw [canonical, canonical, canonicalItems_of_canonical (canonical_of_mem_items items)]
  | .obj fields => by
      rw [canonical, canonical, canonicalFields_of_canonical (sorted_canonicalFields fields)
        (canonical_of_mem_fields fields)]

theorem canonical_of_mem_items : ∀ (js : List Json), ∀ j ∈ canonicalItems js, j.canonical = j
  | [], j, h => by cases h
  | i :: js, j, h => by
      rcases List.mem_cons.mp h with rfl | h
      · exact canonical_canonical i
      · exact canonical_of_mem_items js j h

theorem canonical_of_mem_fields : ∀ (fs : List (String × Json)), ∀ f ∈ canonicalFields fs,
    f.2.canonical = f.2
  | [], f, h => by cases h
  | (k, i) :: fs, f, h => by
      rcases mem_insertField h with rfl | h
      · exact canonical_canonical i
      · exact canonical_of_mem_fields fs f h

end

/-! ## Parts -/

theorem allFields_insertField {p : Json → Bool} {key : String} {value : Json}
    {fs : List (String × Json)} (hvalue : value.all p) (h : allFields p fs) :
    allFields p (insertField key value fs) := by
  induction fs with
  | nil => simp only [insertField, allFields, hvalue, Bool.and_true]
  | cons g fs ih =>
      obtain ⟨k', v'⟩ := g
      have hparts := h
      simp only [allFields, Bool.and_eq_true] at hparts
      rw [insertField]
      split
      · exact h
      · split
        · simp only [allFields, Bool.and_eq_true]
          exact ⟨hvalue, hparts⟩
        · simp only [allFields, Bool.and_eq_true]
          exact ⟨hparts.1, ih hparts.2⟩

section

variable {p : Json → Bool}

mutual

/-- What asks nothing of arrays and objects themselves holds in the
canonical form of a value too. -/
theorem all_canonical (harr : ∀ items, p (.arr items)) (hobj : ∀ fields, p (.obj fields)) :
    ∀ j : Json, j.all p → j.canonical.all p
  | .null, h | .bool _, h | .num _, h | .str _, h | .unreadable, h => h
  | .arr items, h => by
      simp only [canonical, all, Bool.and_eq_true] at h ⊢
      exact ⟨harr _, all_canonicalItems harr hobj items h.2⟩
  | .obj fields, h => by
      simp only [canonical, all, Bool.and_eq_true] at h ⊢
      exact ⟨hobj _, all_canonicalFields harr hobj fields h.2⟩

theorem all_canonicalItems (harr : ∀ items, p (.arr items)) (hobj : ∀ fields, p (.obj fields)) :
    ∀ js : List Json, allItems p js → allItems p (canonicalItems js)
  | [], _ => rfl
  | j :: js, h => by
      simp only [canonicalItems, allItems, Bool.and_eq_true] at h ⊢
      exact ⟨all_canonical harr hobj j h.1, all_canonicalItems harr hobj js h.2⟩

theorem all_canonicalFields (harr : ∀ items, p (.arr items)) (hobj : ∀ fields, p (.obj fields)) :
    ∀ fs : List (String × Json), allFields p fs → allFields p (canonicalFields fs)
  | [], _ => rfl
  | (k, j) :: fs, h => by
      simp only [allFields, Bool.and_eq_true] at h
      exact allFields_insertField (all_canonical harr hobj j h.1)
        (all_canonicalFields harr hobj fs h.2)

end

end

theorem readable_canonical (j : Json) (h : j.all isReadable) : j.canonical.all isReadable :=
  all_canonical (fun _ => rfl) (fun _ => rfl) j h

theorem inRange_canonical (j : Json) (h : j.all inRange) : j.canonical.all inRange :=
  all_canonical (fun _ => rfl) (fun _ => rfl) j h

/-! ## Distinct keys -/

theorem mem_keys_canonicalFields {fs : List (String × Json)} {k : String}
    (h : k ∈ (canonicalFields fs).map Prod.fst) : k ∈ fs.map Prod.fst := by
  induction fs with
  | nil => exact h
  | cons f fs ih =>
      obtain ⟨k', j⟩ := f
      obtain ⟨f, hf, rfl⟩ := List.mem_map.mp h
      rcases mem_insertField hf with rfl | hf
      · exact List.mem_cons_self
      · exact List.mem_cons_of_mem _ (ih (List.mem_map_of_mem hf))

/-- The value of a key in the canonical form. -/
theorem field?_canonical {fs : List (String × Json)} (h : (fs.map Prod.fst).Nodup)
    (k : String) :
    field? k (canonicalFields fs) = (field? k fs).map (Option.map canonical) := by
  have hfilter : (canonicalFields fs).filter (·.1 = k) =
      (fs.filter (·.1 = k)).map fun f => (f.1, f.2.canonical) := by
    induction fs with
    | nil => rfl
    | cons f fs ih =>
        obtain ⟨k', j⟩ := f
        have hkeys := List.nodup_cons.mp h
        rw [canonicalFields, filter_insertField fun hk => hkeys.1 (mem_keys_canonicalFields hk),
          List.filter_cons, List.filter_cons, ih hkeys.2]
        split <;> rfl
  rw [field?, field?, hfilter]
  generalize fs.filter (·.1 = k) = gs
  match gs with
  | [] => rfl
  | [_] => rfl
  | _ :: _ :: _ => rfl

mutual

theorem depth_canonical : ∀ j : Json, j.all hasDistinctKeys → j.canonical.depth = j.depth
  | .null, _ | .bool _, _ | .num _, _ | .str _, _ | .unreadable, _ => rfl
  | .arr items, h => by
      simp only [all, Bool.and_eq_true] at h
      rw [canonical, depth, depth, depth_canonicalItems items h.2]
  | .obj fields, h => by
      simp only [all, hasDistinctKeys, Bool.and_eq_true, decide_eq_true_eq] at h
      rw [canonical, depth, depth, depth_canonicalFields fields h.1 h.2]

theorem depth_canonicalItems : ∀ js : List Json, allItems hasDistinctKeys js →
    depthItems (canonicalItems js) = depthItems js
  | [], _ => rfl
  | j :: js, h => by
      simp only [allItems, Bool.and_eq_true] at h
      rw [canonicalItems, depthItems, depthItems, depth_canonical j h.1,
        depth_canonicalItems js h.2]

theorem depth_canonicalFields : ∀ fs : List (String × Json), (fs.map Prod.fst).Nodup →
    allFields hasDistinctKeys fs → depthFields (canonicalFields fs) = depthFields fs
  | [], _, _ => rfl
  | (k, j) :: fs, hkeys, h => by
      simp only [allFields, Bool.and_eq_true] at h
      have hkeys' := List.nodup_cons.mp hkeys
      rw [canonicalFields,
        depthFields_insertField fun hk => hkeys'.1 (mem_keys_canonicalFields hk),
        depth_canonical j h.1, depth_canonicalFields fs hkeys'.2 h.2, depthFields]

end

end Json

end RowTypes
