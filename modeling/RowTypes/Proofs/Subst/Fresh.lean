import Mathlib.Data.Finset.Dedup
import Mathlib.Order.Interval.Finset.Nat
import RowTypes.Subst

/-!
# Fresh names

A name is made fresh by going through `v`, `v0`, `v1`, … (`nameAt`) up to
one that is not forbidden. These names are all different, whatever `v`
ends with, so no more of them are passed over than there are forbidden
names (`sub_le_card_of_forbidden`). The search therefore ends of itself
(`Finds`): the limit on its tries that `freshName` has is never reached,
and the name that it gives is the first that is not forbidden
(`freshName_first`).
-/

namespace RowTypes

/-! ## The names to choose from -/

/-- The candidate of `v` with the number `n`. -/
def candidate (v : Name) (n : Nat) : Name := v ++ String.ofList (renderNat n [])

/-- The names `v`, `v0`, `v1`, … by their places. -/
def nameAt (v : Name) : (place : Nat) → Name
  | 0 => v
  | n + 1 => candidate v n

theorem renderNat_inj {m n : Nat} (h : renderNat m [] = renderNat n []) : m = n := by
  simp only [renderNat, List.append_nil] at h
  have := congrArg (Nat.ofDigitChars 10 · 0) h
  simpa only [Nat.ofDigitChars_ten_toDigits] using this

theorem candidate_injective (v : Name) : Function.Injective (candidate v) := by
  intro m n h
  have hchars := congrArg String.toList h
  simp only [candidate, String.toList_append, String.toList_ofList] at hchars
  exact renderNat_inj (List.append_cancel_left hchars)

/-- A number has at least one digit. -/
theorem candidate_ne (v : Name) (n : Nat) : candidate v n ≠ v := by
  intro h
  have hchars := congrArg String.toList h
  simp only [candidate, String.toList_append, String.toList_ofList, renderNat,
    List.append_nil] at hchars
  exact Nat.toDigits_ne_nil (List.append_right_eq_self.mp hchars)

theorem nameAt_injective (v : Name) : Function.Injective (nameAt v) := by
  intro i j h
  cases i with
  | zero =>
      cases j with
      | zero => rfl
      | succ n => exact absurd h.symm (candidate_ne v n)
  | succ m =>
      cases j with
      | zero => exact absurd h (candidate_ne v m)
      | succ n => exact congrArg (· + 1) (candidate_injective v h)

variable {v w : Name} {forbidden : List Name}

/-- Where all names are forbidden there are no more places than forbidden
names. -/
theorem sub_le_card_of_forbidden {k l : Nat}
    (h : ∀ i, k ≤ i → i < l → nameAt v i ∈ forbidden) : l - k ≤ forbidden.toFinset.card := by
  have hsub : (Finset.Ico k l).image (nameAt v) ⊆ forbidden.toFinset := by
    intro x hx
    obtain ⟨i, hi, rfl⟩ := Finset.mem_image.mp hx
    obtain ⟨hki, hil⟩ := Finset.mem_Ico.mp hi
    exact List.mem_toFinset.mpr (h i hki hil)
  calc
    l - k = ((Finset.Ico k l).image (nameAt v)).card := by
      rw [Finset.card_image_of_injective _ (nameAt_injective v), Nat.card_Ico]
    _ ≤ forbidden.toFinset.card := Finset.card_le_card hsub

/-! ## The search without a limit -/

/-- Going through the names from a place on, for as long as they are
forbidden, ends with a name. -/
inductive Finds (v : Name) (forbidden : List Name) : (place : Nat) → Name → Prop
  | here {k} (h : nameAt v k ∉ forbidden) : Finds v forbidden k (nameAt v k)
  | next {k w} (h : nameAt v k ∈ forbidden) (hw : Finds v forbidden (k + 1) w) :
      Finds v forbidden k w

/-- What is found is not forbidden, and all names before it are. -/
theorem Finds.first {k : Nat} (h : Finds v forbidden k w) :
    ∃ l, k ≤ l ∧ w = nameAt v l ∧ nameAt v l ∉ forbidden ∧
      ∀ i, k ≤ i → i < l → nameAt v i ∈ forbidden := by
  induction h with
  | @here k hfree => exact ⟨k, Nat.le_refl k, rfl, hfree, by omega⟩
  | @next k w hk _ ih =>
      obtain ⟨l, hl, hw, hfree, hbefore⟩ := ih
      refine ⟨l, Nat.le_of_succ_le hl, hw, hfree, fun i hki hil => ?_⟩
      rcases Nat.eq_or_lt_of_le hki with rfl | hlt
      · exact hk
      · exact hbefore i hlt hil

theorem Finds.unique {k : Nat} {w' : Name} (h : Finds v forbidden k w)
    (h' : Finds v forbidden k w') : w = w' := by
  induction h with
  | here hfree =>
      cases h' with
      | here => rfl
      | next hk => exact absurd hk hfree
  | next hk _ ih =>
      cases h' with
      | here hfree => exact absurd hk hfree
      | next _ hw' => exact ih hw'

/-! ## The search under a limit -/

theorem numberedName?_eq_none {tries n : Nat} (h : numberedName? v forbidden tries n = none) :
    ∀ i, n < i → i ≤ n + tries → nameAt v i ∈ forbidden := by
  induction tries generalizing n with
  | zero => omega
  | succ tries ih =>
      rw [numberedName?] at h
      split at h
      · next hn =>
        intro i hi hle
        rcases Nat.eq_or_lt_of_le hi with rfl | hlt
        · exact hn
        · exact ih h i hlt (by omega)
      · cases h

/-- A name found within the limit is found without it. -/
theorem finds_of_numberedName? {tries n : Nat}
    (h : numberedName? v forbidden tries n = some w) : Finds v forbidden (n + 1) w := by
  induction tries generalizing n with
  | zero => cases h
  | succ tries ih =>
      rw [numberedName?] at h
      split at h
      · next hn => exact .next hn (ih h)
      · next hn =>
        cases h
        exact .here hn

/-- More candidates than forbidden names cannot all be forbidden. -/
theorem numberedName?_isSome (v : Name) (forbidden : List Name) (n : Nat) :
    (numberedName? v forbidden (forbidden.length + 1) n).isSome := by
  by_contra hnone
  have hall := numberedName?_eq_none (Option.not_isSome_iff_eq_none.mp hnone)
  have hplaces : n + 1 + (forbidden.length + 1) - (n + 1) ≤ forbidden.toFinset.card :=
    sub_le_card_of_forbidden fun i hn hi => hall i hn (by omega)
  have hcard := forbidden.toFinset_card_le
  omega

/-! ## The fresh name -/

theorem finds_freshName (v : Name) (forbidden : List Name) :
    Finds v forbidden 0 (freshName v forbidden) := by
  rw [freshName]
  split
  · next hv =>
    obtain ⟨w, hw⟩ := Option.isSome_iff_exists.mp (numberedName?_isSome v forbidden 0)
    rw [hw]
    exact .next hv (finds_of_numberedName? hw)
  · next hv => exact .here hv

theorem freshName_not_mem (v : Name) (forbidden : List Name) :
    freshName v forbidden ∉ forbidden := by
  obtain ⟨l, -, hname, hfree, -⟩ := (finds_freshName v forbidden).first
  rwa [hname]

/-- Whichever names are forbidden, listed in any order and any number of
times, the search under the limit finds a name, so `v` is never given for
want of another one. The search without a limit ends too, with the same
name as `freshName` and no other. It is the first of `v`, `v0`, `v1`, …
that is not forbidden, and its place is at most the number of forbidden
names; so a number put behind `v` is smaller than that, and fits a machine
word if they can be counted in one. -/
theorem freshName_first (v : Name) (forbidden : List Name) :
    (numberedName? v forbidden (forbidden.length + 1) 0).isSome ∧
      (∀ w, Finds v forbidden 0 w ↔ w = freshName v forbidden) ∧
      ∃ k ≤ forbidden.toFinset.card, freshName v forbidden = nameAt v k ∧
        nameAt v k ∉ forbidden ∧ ∀ i < k, nameAt v i ∈ forbidden := by
  have hfinds := finds_freshName v forbidden
  refine ⟨numberedName?_isSome v forbidden 0, fun w => ⟨fun h => h.unique hfinds, ?_⟩, ?_⟩
  · rintro rfl
    exact hfinds
  · obtain ⟨k, -, hname, hfree, hbefore⟩ := hfinds.first
    have hcard : k ≤ forbidden.toFinset.card := sub_le_card_of_forbidden hbefore
    exact ⟨k, hcard, hname, hfree, fun i hi => hbefore i (Nat.zero_le i) hi⟩

/-- Forbidden names may look like candidates of `v` or of each other, and
`v` like a candidate of another name. -/
example : freshName "b" ["b1", "b00", "b", "b0", "b01", "b"] = "b2" ∧
    freshName "b0" ["b00", "b", "b0", "b1"] = "b01" := by decide

end RowTypes
