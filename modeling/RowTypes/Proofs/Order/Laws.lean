import Mathlib.Data.List.Induction
import RowTypes.Proofs.Order.Fields
import RowTypes.Ty.Hash

/-!
# Laws of the order

The order of types is a total order whose equality is that of types
(`compare_lawful`). The laws come from the word order of spellings, since
a spelling determines its type. So there is just one way to put types
into ascending order (`eq_sort`), and types that are told apart by the
order are those that are told apart by equality
(`perm_orderedSet_distinct`), and also by hash and equality, whatever the
hasher (`hashSet_eq_distinct`).
-/

namespace RowTypes

namespace Symbol

theorem compare_swap : ∀ a b : Symbol, Ord.compare a b = (Ord.compare b a).swap
  | .number m, .number n => Std.OrientedOrd.eq_swap (a := m) (b := n)
  | .number _, .word _ => rfl
  | .word _, .number _ => rfl
  | .word s, .word t => Std.OrientedOrd.eq_swap (a := s) (b := t)

theorem isLE_trans : ∀ {a b c : Symbol}, (Ord.compare a b).isLE → (Ord.compare b c).isLE →
    (Ord.compare a c).isLE
  | .number l, .number m, .number n, hab, hbc =>
      Std.TransOrd.isLE_trans (a := l) (b := m) (c := n) hab hbc
  | .number _, _, .word _, _, _ => rfl
  | .word s, .word t, .word u, hab, hbc =>
      Std.TransOrd.isLE_trans (a := s) (b := t) (c := u) hab hbc

instance : Std.TransOrd Symbol where
  eq_swap := compare_swap _ _
  isLE_trans := isLE_trans

instance : Std.LawfulEqOrd Symbol where
  eq_of_compare {a b} h := by
    cases a with
    | number m =>
        cases b with
        | number n => exact congrArg number (Std.LawfulEqOrd.eq_of_compare h)
        | word t => cases h
    | word s =>
        cases b with
        | number n => cases h
        | word t => exact congrArg word (Std.LawfulEqOrd.eq_of_compare h)

end Symbol

theorem nodup_eraseDups {α : Type} [DecidableEq α] (xs : List α) : xs.eraseDups.Nodup := by
  cases xs with
  | nil => exact .nil
  | cons x xs =>
      rw [List.eraseDups_cons, List.nodup_cons, List.mem_eraseDups]
      exact ⟨by simp, nodup_eraseDups _⟩
termination_by xs.length
decreasing_by exact Nat.lt_succ_of_le (List.length_filter_le ..)

namespace Ty

instance : Std.TransCmp Ty.compare where
  eq_swap {t u} := Std.OrientedOrd.eq_swap (a := t.spell []) (b := u.spell [])
  isLE_trans {t u v} htu huv :=
    Std.TransOrd.isLE_trans (a := t.spell []) (b := u.spell []) (c := v.spell []) htu huv

instance : Std.LawfulEqCmp Ty.compare where
  compare_self {t} := Std.ReflOrd.compare_self (a := t.spell [])
  eq_of_compare {t u} h :=
    ((spell_inj t u [] []).mp (Std.LawfulEqOrd.eq_of_compare h)).1

theorem compare_eq_iff {t u : Ty} : t.compare u = .eq ↔ t = u :=
  Std.LawfulEqCmp.compare_eq_iff_eq

theorem compare_swap (t u : Ty) : u.compare t = (t.compare u).swap :=
  Std.OrientedCmp.eq_swap

theorem isLE_trans {t u v : Ty} (htu : (t.compare u).isLE) (huv : (u.compare v).isLE) :
    (t.compare v).isLE :=
  Std.TransCmp.isLE_trans htu huv

/-! ## Ascending lists -/

/-- No type comes after a later one. -/
abbrev Ascending (ts : List Ty) : Prop := ts.Pairwise fun t u => (t.compare u).isLE

/-- Every type comes before all later ones. -/
abbrev StrictlyAscending (ts : List Ty) : Prop := ts.Pairwise fun t u => t.compare u = .lt

theorem ascending_sort (ts : List Ty) : Ascending (sort ts) := by
  apply List.pairwise_mergeSort
  · exact fun t u v => isLE_trans
  · intro t u
    rw [compare_swap t u]
    cases t.compare u <;> rfl

theorem perm_sort (ts : List Ty) : (sort ts).Perm ts := List.mergeSort_perm ts _

/-- There is only one way to put types into ascending order. -/
theorem eq_sort {ts us : List Ty} (hperm : us.Perm ts) (hus : Ascending us) : us = sort ts := by
  refine List.Perm.eq_of_pairwise (fun t u _ _ htu hut => ?_) hus (ascending_sort ts)
    (hperm.trans (perm_sort ts).symm)
  exact compare_eq_iff.mp (Std.OrientedCmp.isLE_antisymm htu hut)

/-! ## Ordered sets -/

theorem mem_dedupNeighbours {t : Ty} {ts : List Ty} : t ∈ dedupNeighbours ts ↔ t ∈ ts := by
  induction ts using dedupNeighbours.induct with
  | case1 => rfl
  | case2 u => rfl
  | case3 u v ts h ih =>
      obtain rfl := compare_eq_iff.mp h
      rw [dedupNeighbours, if_pos h, ih]
      simp
  | case4 u v ts h ih =>
      rw [dedupNeighbours, if_neg h, List.mem_cons, ih]
      exact List.mem_cons.symm

/-- Neighbours that differ are in strict order, and so is all that follows. -/
theorem strictlyAscending_dedupNeighbours {ts : List Ty} (h : Ascending ts) :
    StrictlyAscending (dedupNeighbours ts) := by
  induction ts using dedupNeighbours.induct with
  | case1 => exact .nil
  | case2 u => exact List.pairwise_singleton _ u
  | case3 u v ts heq ih =>
      rw [dedupNeighbours, if_pos heq]
      exact ih h.of_cons
  | case4 u v ts hne ih =>
      rw [dedupNeighbours, if_neg hne]
      refine List.pairwise_cons.mpr ⟨fun w hw => ?_, ih h.of_cons⟩
      have hle := (List.pairwise_cons.mp h).1 v List.mem_cons_self
      have hlt : u.compare v = .lt := by
        cases hcmp : u.compare v with
        | lt => rfl
        | eq => exact absurd hcmp hne
        | gt => rw [hcmp] at hle; cases hle
      rcases List.mem_cons.mp (mem_dedupNeighbours.mp hw) with rfl | hw
      · exact hlt
      · exact Std.TransCmp.lt_of_lt_of_isLE hlt ((List.pairwise_cons.mp h.of_cons).1 w hw)

theorem StrictlyAscending.nodup {ts : List Ty} (h : StrictlyAscending ts) : ts.Nodup := by
  refine h.imp fun {t u} hlt heq => ?_
  rw [compare_eq_iff.mpr heq] at hlt
  cases hlt

theorem mem_orderedSet {t : Ty} {ts : List Ty} : t ∈ orderedSet ts ↔ t ∈ ts := by
  rw [orderedSet, mem_dedupNeighbours, (perm_sort ts).mem_iff]

theorem strictlyAscending_orderedSet (ts : List Ty) : StrictlyAscending (orderedSet ts) :=
  strictlyAscending_dedupNeighbours (ascending_sort ts)

/-- The order and equality tell the same types apart. -/
theorem perm_orderedSet_distinct (ts : List Ty) : (orderedSet ts).Perm (distinct ts) := by
  refine (List.perm_ext_iff_of_nodup (strictlyAscending_orderedSet ts).nodup
    (nodup_eraseDups ts)).mpr fun t => ?_
  rw [mem_orderedSet, List.mem_eraseDups]

/-! ## Hash sets -/

/-- Equal types hash alike. -/
theorem hash_eq_of_beq (hasher : List Fed → UInt64) {t u : Ty} (h : t == u) :
    t.hash hasher = u.hash hasher := by
  rw [eq_of_beq h]

/-- So the one that is equal is found where the hash points. -/
theorem insertHashed_eq (hasher : List Fed → UInt64) (set : List Ty) (t : Ty) :
    insertHashed hasher set t = if t ∈ set then set else set ++ [t] := by
  have hfound : (set.any fun u => u.hash hasher == t.hash hasher && u == t) ↔ t ∈ set := by
    rw [List.any_eq_true]
    constructor
    · rintro ⟨u, hu, hboth⟩
      rwa [← eq_of_beq (Bool.and_eq_true_iff.mp hboth).2]
    · intro ht
      have halike := hash_eq_of_beq hasher (beq_self_eq_true t)
      exact ⟨t, ht, Bool.and_eq_true_iff.mpr ⟨beq_iff_eq.mpr halike, beq_self_eq_true t⟩⟩
  rw [insertHashed]
  exact if_congr hfound rfl rfl

/-- A hash set keeps one of each kind of equal types, even where
different types have the same hash. -/
theorem hashSet_eq_distinct (hasher : List Fed → UInt64) (ts : List Ty) :
    hashSet hasher ts = distinct ts := by
  induction ts using List.reverseRecOn with
  | nil => rfl
  | append_singleton ts t ih =>
      have hstep : hashSet hasher (ts ++ [t]) = insertHashed hasher (distinct ts) t := by
        rw [← ih, hashSet, List.foldl_append]
        rfl
      rw [hstep, insertHashed_eq, distinct, distinct, List.eraseDups_append]
      by_cases ht : t ∈ ts
      · rw [if_pos (List.mem_eraseDups.mpr ht)]
        simp [List.removeAll, ht]
      · rw [if_neg (mt List.mem_eraseDups.mp ht)]
        simp [List.removeAll, ht, List.eraseDups_cons]

/-! ## Lawfulness -/

/-- Comparing types, by form and then field by field, is a total order
that agrees with equality, and equality is that of the whole types. So a
list of types has one ascending arrangement, which sorting gives, and
the order and equality count the same number of different types; so do
hash sets, by whatever hasher. -/
theorem compare_lawful :
    (∀ t u : Ty, t.compare u = t.compareFields u) ∧
    (∀ t u : Ty, (t.compare u = .eq ↔ t == u) ∧ (t == u ↔ t = u)) ∧
    (∀ t u : Ty, u.compare t = (t.compare u).swap) ∧
    (∀ t u v : Ty, (t.compare u).isLE → (u.compare v).isLE → (t.compare v).isLE) ∧
    (∀ ts : List Ty, (sort ts).Perm ts ∧ Ascending (sort ts) ∧
      ∀ us, us.Perm ts → Ascending us → us = sort ts) ∧
    ∀ ts : List Ty, (orderedSet ts).length = (distinct ts).length ∧
      ∀ hasher, (orderedSet ts).length = (hashSet hasher ts).length := by
  refine ⟨compare_eq_compareFields, fun t u => ?_, compare_swap, fun t u v => isLE_trans,
    fun ts => ?_, fun ts => ?_⟩
  · exact ⟨compare_eq_iff.trans beq_iff_eq.symm, beq_iff_eq⟩
  · exact ⟨perm_sort ts, ascending_sort ts, fun us => eq_sort⟩
  · have hlength := (perm_orderedSet_distinct ts).length_eq
    exact ⟨hlength, fun hasher => by rwa [hashSet_eq_distinct]⟩

/-- A list of arguments comes before a longer one, whatever is guarded,
and any constrained type before any skolem. -/
theorem compare_lawful_skolem :
    let t : Ty := .constrained [⟨⟨none, "Show"⟩, [.var "a"]⟩] (.kinded (.var "b") .star)
    let u : Ty := .constrained [⟨⟨none, "Show"⟩, [.var "a", .wildcard]⟩] (.var "a")
    let v : Ty := .skolem "a" 0 0 none
    (t.compare u).isLE ∧ (u.compare v).isLE ∧ (t.compare v).isLE ∧
      [t, u, v].Perm [v, t, u] ∧ Ascending [t, u, v] ∧ [t, u, v] = sort [v, t, u] := by
  intro t u v
  obtain ⟨-, -, -, htrans, hsort, -⟩ := compare_lawful
  have htu : (t.compare u).isLE := by decide
  have huv : (u.compare v).isLE := by decide
  have hperm : [t, u, v].Perm [v, t, u] := by decide
  have hascending : Ascending [t, u, v] := by decide
  exact ⟨htu, huv, htrans t u v htu huv, hperm, hascending,
    (hsort [v, t, u]).2.2 [t, u, v] hperm hascending⟩

end Ty

end RowTypes
