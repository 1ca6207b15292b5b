import RowTypes.Json.Basic

/-!
# Properties of all parts

`all` asks something of every part of a value, the value itself among
them. What is asked here is that numbers are in range, that parts are
readable, and that no key of an object repeats; a value is `ordinary`
if it has all of this.
-/

namespace RowTypes

namespace Json

/-- Each result that a list is mapped to comes from an element of it. -/
theorem exists_of_mem_mapM {α β : Type} {f : α → Option β} {xs : List α} {ys : List β}
    (h : xs.mapM f = some ys) {y : β} (hy : y ∈ ys) : ∃ x ∈ xs, f x = some y := by
  induction xs generalizing ys with
  | nil =>
      cases h
      cases hy
  | cons x xs ih =>
      simp only [List.mapM_cons, Option.bind_eq_bind, Option.bind_eq_some_iff] at h
      obtain ⟨z, hz, zs, hzs, heq⟩ := h
      cases heq
      rcases List.mem_cons.mp hy with rfl | hy
      · exact ⟨x, List.mem_cons_self, hz⟩
      · obtain ⟨x', hx', hfx⟩ := ih hzs hy
        exact ⟨x', List.mem_cons_of_mem _ hx', hfx⟩

mutual

/-- Whether all parts of a value, itself among them, satisfy `p`. -/
def all (p : Json → Bool) : Json → Bool
  | .arr items => p (.arr items) && allItems p items
  | .obj fields => p (.obj fields) && allFields p fields
  | j => p j

/-- Whether all parts of the values of a list satisfy `p`. -/
def allItems (p : Json → Bool) : List Json → Bool
  | [] => true
  | j :: js => all p j && allItems p js

/-- Whether all parts of the values of all fields satisfy `p`. -/
def allFields (p : Json → Bool) : List (String × Json) → Bool
  | [] => true
  | (_, j) :: fs => all p j && allFields p fs

end

/-- A number is in range. -/
def inRange : Json → Bool
  | .num n => n.inRange
  | _ => true

/-- A part is readable by itself. -/
def isReadable : Json → Bool
  | .unreadable => false
  | _ => true

/-- The keys of an object are distinct. -/
def hasDistinctKeys : Json → Bool
  | .obj fields => (fields.map Prod.fst).Nodup
  | _ => true

/-- A part that a map from keys to values can hold. -/
def ordinary (j : Json) : Bool := j.inRange && j.isReadable && j.hasDistinctKeys

section

variable {p q : Json → Bool}

mutual

theorem all_mono (h : ∀ j, p j → q j) : ∀ j : Json, j.all p → j.all q
  | .null, hj | .bool _, hj | .num _, hj | .str _, hj | .unreadable, hj => h _ hj
  | .arr items, hj => by
      simp only [all, Bool.and_eq_true] at hj ⊢
      exact ⟨h _ hj.1, allItems_mono h items hj.2⟩
  | .obj fields, hj => by
      simp only [all, Bool.and_eq_true] at hj ⊢
      exact ⟨h _ hj.1, allFields_mono h fields hj.2⟩

theorem allItems_mono (h : ∀ j, p j → q j) : ∀ js : List Json, allItems p js → allItems q js
  | [], _ => rfl
  | j :: js, hjs => by
      simp only [allItems, Bool.and_eq_true] at hjs ⊢
      exact ⟨all_mono h j hjs.1, allItems_mono h js hjs.2⟩

theorem allFields_mono (h : ∀ j, p j → q j) :
    ∀ fs : List (String × Json), allFields p fs → allFields q fs
  | [], _ => rfl
  | (_, j) :: fs, hfs => by
      simp only [allFields, Bool.and_eq_true] at hfs ⊢
      exact ⟨all_mono h j hfs.1, allFields_mono h fs hfs.2⟩

end

end

mutual

theorem readable_eq : ∀ j : Json, j.readable = j.all isReadable
  | .null | .bool _ | .num _ | .str _ | .unreadable => rfl
  | .arr items => by
      rw [readable, all, readableItems_eq items]
      rfl
  | .obj fields => by
      rw [readable, all, readableFields_eq fields]
      rfl

theorem readableItems_eq : ∀ js : List Json, readableItems js = allItems isReadable js
  | [] => rfl
  | j :: js => by rw [readableItems, allItems, readable_eq j, readableItems_eq js]

theorem readableFields_eq : ∀ fs : List (String × Json),
    readableFields fs = allFields isReadable fs
  | [] => rfl
  | (_, j) :: fs => by rw [readableFields, allFields, readable_eq j, readableFields_eq fs]

end

end Json

end RowTypes
