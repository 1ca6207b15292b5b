import RowTypes.Proofs.Json.Nesting
import RowTypes.Proofs.Traversal.Descent
import RowTypes.Proofs.Wire.Arrange

/-!
# The depth of encoded types

How deep the JSON of a type is. It is never deeper than the JSON that
the type was read from (`Ty.depth_le_of_ofJson?`): whatever the reader
accepts for a node, in whatever form, holds what it reads the children
from at least as far inside as the writer puts them. And it is bounded by
the depth of the type, unless kinds are deep (`Ty.depth_toJson_le`).
-/

namespace RowTypes

namespace Json

/-! ## What the writer puts together -/

theorem depth_bare (tag : String) : (bare tag).depth = 1 := rfl

theorem depth_ofUInt32 (n : UInt32) : (ofUInt32 n).depth = 0 := rfl

theorem depth_ofOption_le {α : Type} {f : α → Json} {n : Nat} (h : ∀ a, (f a).depth ≤ n)
    (o : Option α) : (ofOption f o).depth ≤ n := by
  cases o with
  | none => exact Nat.zero_le n
  | some a => exact h a

/-! ## What the reader takes apart -/

theorem depth_lt_of_mem_fields {key : String} {j : Json} {fields : List (String × Json)}
    (h : (key, j) ∈ fields) : j.depth < (obj fields).depth := by
  rw [depth, Nat.lt_succ_iff, depthFields_eq]
  exact depth_le_of_mem (List.mem_map_of_mem h)

theorem depth_lt_of_mem_items {j : Json} {items : List Json} (h : j ∈ items) :
    j.depth < (arr items).depth := by
  rw [depth, Nat.lt_succ_iff]
  exact depth_le_of_mem h

theorem depth_lt_of_field? {key : String} {j : Json} {fields : List (String × Json)}
    (h : field? key fields = some (some j)) : j.depth < (obj fields).depth := by
  rw [field?] at h
  split at h
  · cases h
  · next k _ hfilter =>
    cases h
    have hmem : (k, j) ∈ fields.filter (·.1 = key) := hfilter ▸ List.mem_singleton_self _
    exact depth_lt_of_mem_fields (List.mem_of_mem_filter hmem)
  · cases h

/-- A record is an array or an object around its parts. -/
theorem depth_of_record? {keys : List String} {j : Json} {parts : List (Option Json)}
    (h : j.record? keys = some parts) :
    0 < j.depth ∧ ∀ i, some i ∈ parts → i.depth < j.depth := by
  rw [record?.eq_def] at h
  split at h
  · next items =>
    split at h
    · cases h
      refine ⟨Nat.succ_pos _, fun i hi => ?_⟩
      obtain ⟨i', hi', heq⟩ := List.mem_map.mp hi
      cases heq
      exact depth_lt_of_mem_items hi'
    · cases h
  · next fields =>
    refine ⟨Nat.succ_pos _, fun i hi => ?_⟩
    obtain ⟨key, -, hfield⟩ := exists_of_mem_mapM h hi
    exact depth_lt_of_field? hfield
  · cases h

theorem depth_le_of_optional? {α : Type} {f : α → Json} {g : Json → Option α} {j : Json}
    {o : Option α} (hg : ∀ a, g j = some a → (f a).depth ≤ j.depth)
    (h : optional? g (some j) = some o) : (ofOption f o).depth ≤ j.depth := by
  rw [optional?.eq_def] at h
  split at h
  · cases h
    exact Nat.zero_le _
  · cases h
    exact Nat.zero_le _
  · next heq =>
    cases heq
    obtain ⟨a, ha, rfl⟩ := Option.map_eq_some_iff.mp h
    exact hg a ha

/-- A tag lies in an array or an object, and so do its contents. -/
theorem depth_of_tagged? {held held' : Bool} {j : Json} {tag : TagRef} {contents : Option Json}
    (h : j.tagged? held = some ⟨tag, contents, held'⟩) :
    0 < j.depth ∧ ∀ c, contents = some c → c.depth < j.depth := by
  rw [tagged?.eq_def] at h
  split at h
  · obtain ⟨_, -, heq⟩ := Option.bind_eq_some_iff.mp h
    cases heq
    refine ⟨Nat.succ_pos _, ?_⟩
    rintro _ ⟨⟩
    exact depth_lt_of_mem_items (by simp)
  · next fields =>
    obtain ⟨_, -, h⟩ := Option.bind_eq_some_iff.mp h
    obtain ⟨_, -, h⟩ := Option.bind_eq_some_iff.mp h
    obtain ⟨contents', hfield, h⟩ := Option.bind_eq_some_iff.mp h
    obtain ⟨_, -, h⟩ := Option.bind_eq_some_iff.mp h
    have hcontents : contents' = contents := by
      by_cases hfirst : (contentsFirst fields && !held) = true
      · rw [if_pos hfirst] at h
        obtain ⟨_, -, heq⟩ := Option.bind_eq_some_iff.mp h
        cases heq
        rfl
      · rw [if_neg hfirst] at h
        cases h
        rfl
    subst hcontents
    refine ⟨Nat.succ_pos _, ?_⟩
    rintro c rfl
    exact depth_lt_of_field? hfield
  · cases h

end Json

open Json

/-! ## Names, spans and kinds -/

theorem Qualified.depth_toJson (q : Qualified) : q.toJson.depth = 1 := by
  obtain ⟨_ | module, name⟩ := q <;> rfl

theorem Span.depth_toJson (s : Span) : s.toJson.depth = 2 := rfl

theorem Qualified.depth_le_of_ofJson? {j : Json} {q : Qualified} (h : ofJson? j = some q) :
    q.toJson.depth ≤ j.depth := by
  simp only [ofJson?, Option.bind_eq_bind, Option.bind_eq_some_iff] at h
  obtain ⟨_, hrecord, -⟩ := h
  rw [depth_toJson]
  exact (depth_of_record? hrecord).1

theorem Position.depth_pos_of_ofJson? {j : Json} {p : Position} (h : ofJson? j = some p) :
    0 < j.depth := by
  simp only [ofJson?, Option.bind_eq_bind, Option.bind_eq_some_iff] at h
  obtain ⟨_, hrecord, -⟩ := h
  exact (depth_of_record? hrecord).1

theorem Span.depth_le_of_ofJson? {j : Json} {s : Span} (h : ofJson? j = some s) :
    s.toJson.depth ≤ j.depth := by
  simp only [ofJson?, Option.bind_eq_bind, Option.bind_eq_some_iff] at h
  obtain ⟨_, hrecord, h⟩ := h
  split at h
  · next name start stop =>
    simp only [Option.bind_eq_some_iff] at h
    obtain ⟨_, -, _, hstart, -⟩ := h
    have hpos := Position.depth_pos_of_ofJson? hstart
    have hlt := (depth_of_record? hrecord).2 start (by simp)
    rw [depth_toJson]
    omega
  · cases h

theorem Kind.depth_le_of_ofJson? {levels : Nat} {held : Bool} {j : Json} {k : Kind}
    (h : ofJson? levels held j = some k) : k.toJson.depth ≤ j.depth := by
  induction levels generalizing held j k with
  | zero => cases h
  | succ levels ih =>
      rw [ofJson?] at h
      simp only [Option.bind_eq_bind, Option.bind_eq_some_iff] at h
      obtain ⟨⟨tag, contents, held'⟩, htag, form, -, h⟩ := h
      obtain ⟨hpos, hinside⟩ := depth_of_tagged? htag
      split at h
      · -- unknown
        obtain ⟨id, -, heq⟩ := Option.bind_eq_some_iff.mp h
        cases heq
        rw [toJson, depth_tagged]
        exact hpos
      · -- star, without contents and with null
        cases h
        exact hpos
      · cases h
        exact hpos
      · -- bang, without contents and with null
        cases h
        exact hpos
      · cases h
        exact hpos
      · -- row
        next hcontents =>
        obtain ⟨entry, hentry, heq⟩ := Option.bind_eq_some_iff.mp h
        cases heq
        have := ih hentry
        have := hinside _ hcontents
        rw [toJson, depth_tagged]
        omega
      · -- function
        next hcontents =>
        simp only [Option.bind_eq_some_iff] at h
        obtain ⟨a, ha, b, hb, heq⟩ := h
        cases heq
        have := ih ha
        have := ih hb
        have := hinside _ hcontents
        simp only [toJson, depth_tagged, Json.depth, depthItems] at *
        omega
      · -- named
        next hcontents =>
        obtain ⟨q, hq, heq⟩ := Option.bind_eq_some_iff.mp h
        cases heq
        have := q.depth_le_of_ofJson? hq
        have := hinside _ hcontents
        rw [toJson, depth_tagged]
        omega
      · cases h

/-! ## Types -/

namespace Ty

theorem depth_args_le_iff {ts : List Ty} {n : Nat} :
    depthItems (argsToJson ts) ≤ n ↔ ∀ t ∈ ts, t.toJson.depth ≤ n := by
  induction ts with
  | nil => simp [argsToJson, depthItems]
  | cons t ts ih => rw [argsToJson, depthItems, Nat.max_le, ih, List.forall_mem_cons]

/-- An argument lies in the list of arguments and the constraint. A
constraint without arguments still holds that list. -/
theorem depth_constraints_le_iff {cs : List (Constraint Ty)} {n : Nat} :
    depthItems (constraintsToJson cs) ≤ n ↔
      ∀ c ∈ cs, 2 ≤ n ∧ ∀ t ∈ c.args, t.toJson.depth + 2 ≤ n := by
  induction cs with
  | nil => simp [constraintsToJson, depthItems]
  | cons c cs ih =>
      obtain ⟨q, args⟩ := c
      have hargs : depthItems (argsToJson args) + 2 ≤ n ↔
          2 ≤ n ∧ ∀ t ∈ args, t.toJson.depth + 2 ≤ n := by
        rcases Nat.lt_or_ge n 2 with hn | hn
        · exact ⟨fun h => absurd h (by omega), fun h => absurd h.1 (by omega)⟩
        · obtain ⟨m, rfl⟩ := Nat.exists_eq_add_of_le' hn
          simp only [Nat.add_le_add_iff_right, depth_args_le_iff, hn, true_and]
      have hhead : (obj [("class", q.toJson), ("args", arr (argsToJson args))]).depth =
          depthItems (argsToJson args) + 2 := by
        simp only [Json.depth, depthFields, q.depth_toJson]
        omega
      rw [constraintsToJson, depthItems, Nat.max_le, hhead, hargs, ih, List.forall_mem_cons]

theorem depth_strings (vs : List Name) : depthItems (vs.map Json.str) = 0 := by
  induction vs with
  | nil => rfl
  | cons v vs ih =>
      rw [List.map_cons, depthItems, ih]
      rfl

/-! ## Types read -/

section

variable {read : Json → Option Ty} (hread : ∀ j t, read j = some t → t.toJson.depth ≤ j.depth)
include hread

theorem depth_of_constraintOfJson? {j : Json} {c : Constraint Ty}
    (h : constraintOfJson? read j = some c) :
    2 ≤ j.depth ∧ ∀ t ∈ c.args, t.toJson.depth + 2 ≤ j.depth := by
  simp only [constraintOfJson?, Option.bind_eq_bind, Option.bind_eq_some_iff] at h
  obtain ⟨_, hrecord, h⟩ := h
  split at h
  · next className args =>
    simp only [Option.bind_eq_some_iff] at h
    obtain ⟨_, -, ts, hargs, heq⟩ := h
    cases heq
    have hlt := (depth_of_record? hrecord).2 (arr args) (by simp)
    rw [Json.depth] at hlt
    refine ⟨by omega, fun t ht => ?_⟩
    obtain ⟨i, hi, hit⟩ := exists_of_mem_mapM hargs ht
    have hle := depth_le_of_mem hi
    have := hread i t hit
    omega
  · cases h

theorem depth_le_of_mapM_constraints {js : List Json} {cs : List (Constraint Ty)}
    (h : js.mapM (constraintOfJson? read) = some cs) :
    depthItems (constraintsToJson cs) ≤ depthItems js := by
  refine depth_constraints_le_iff.mpr fun c hc => ?_
  obtain ⟨j, hj, hjc⟩ := exists_of_mem_mapM h hc
  have hle := depth_le_of_mem hj
  obtain ⟨hpos, hargs⟩ := depth_of_constraintOfJson? hread hjc
  exact ⟨by omega, fun t ht => Nat.le_trans (hargs t ht) hle⟩

end

theorem depth_le_of_ofJsonWithin? {levels : Nat} {held : Bool} {j : Json} {t : Ty}
    (h : ofJsonWithin? levels held j = some t) : t.toJson.depth ≤ j.depth := by
  induction levels generalizing held j t with
  | zero => cases h
  | succ levels ih =>
      rw [ofJsonWithin?] at h
      simp only [Option.bind_eq_bind, Option.bind_eq_some_iff] at h
      obtain ⟨⟨tag, contents, held'⟩, htag, form, -, h⟩ := h
      obtain ⟨hpos, hinside⟩ := depth_of_tagged? htag
      -- one case for each form and each way to write it, in the reader's order
      split at h
      · -- unknown
        obtain ⟨id, -, heq⟩ := Option.bind_eq_some_iff.mp h
        cases heq
        rw [toJson, depth_tagged]
        exact hpos
      · -- var
        obtain ⟨v, -, heq⟩ := Option.bind_eq_some_iff.mp h
        cases heq
        rw [toJson, depth_tagged]
        exact hpos
      · -- wildcard, without contents and with null
        cases h
        exact hpos
      · cases h
        exact hpos
      · -- constructor
        next hcontents =>
        obtain ⟨q, hq, heq⟩ := Option.bind_eq_some_iff.mp h
        cases heq
        have := q.depth_le_of_ofJson? hq
        have := hinside _ hcontents
        rw [toJson, depth_tagged]
        omega
      · -- app
        next hcontents =>
        simp only [Option.bind_eq_some_iff] at h
        obtain ⟨f, hf, a, ha, heq⟩ := h
        cases heq
        have := ih hf
        have := ih ha
        have := hinside _ hcontents
        simp only [toJson, depth_tagged, Json.depth, depthItems] at *
        omega
      · -- forAll
        next hcontents =>
        simp only [Option.bind_eq_some_iff] at h
        obtain ⟨v, -, body, hbody, scope, -, heq⟩ := h
        cases heq
        have := ih hbody
        have := hinside _ hcontents
        have hscope : (ofOption ofUInt32 scope).depth ≤ 0 :=
          depth_ofOption_le (fun n => Nat.le_of_eq (depth_ofUInt32 n)) scope
        simp only [toJson, depth_tagged, Json.depth, depthItems] at *
        omega
      · -- constrained
        next hcontents =>
        simp only [Option.bind_eq_some_iff] at h
        obtain ⟨cs, hcs, body, hbody, heq⟩ := h
        cases heq
        have := depth_le_of_mapM_constraints (fun _ _ => ih) hcs
        have := ih hbody
        have := hinside _ hcontents
        simp only [toJson, depth_tagged, Json.depth, depthItems] at *
        omega
      · -- skolem
        next hcontents =>
        simp only [Option.bind_eq_some_iff] at h
        obtain ⟨v, -, id, -, scope, -, span, hspan, heq⟩ := h
        cases heq
        have := depth_le_of_optional? (fun _ => Span.depth_le_of_ofJson?) hspan
        have := hinside _ hcontents
        simp only [toJson, depth_tagged, Json.depth, depthItems, depth_ofUInt32] at *
        omega
      · -- rowEmpty, without contents and with null
        cases h
        exact hpos
      · cases h
        exact hpos
      · -- rowCons
        next hcontents =>
        simp only [Option.bind_eq_some_iff] at h
        obtain ⟨l, -, head, hhead, tail, htail, heq⟩ := h
        cases heq
        have := ih hhead
        have := ih htail
        have := hinside _ hcontents
        simp only [toJson, depth_tagged, Json.depth, depthItems] at *
        omega
      · -- kinded
        next hcontents =>
        simp only [Option.bind_eq_some_iff] at h
        obtain ⟨type, htype, k, hk, heq⟩ := h
        cases heq
        have := ih htype
        have := k.depth_le_of_ofJson? hk
        have := hinside _ hcontents
        simp only [toJson, depth_tagged, Json.depth, depthItems] at *
        omega
      · -- prettyFunction
        next hcontents =>
        simp only [Option.bind_eq_some_iff] at h
        obtain ⟨a, ha, r, hr, heq⟩ := h
        cases heq
        have := ih ha
        have := ih hr
        have := hinside _ hcontents
        simp only [toJson, depth_tagged, Json.depth, depthItems] at *
        omega
      · -- prettyObject
        next hcontents =>
        obtain ⟨row, hrow, heq⟩ := Option.bind_eq_some_iff.mp h
        cases heq
        have := ih hrow
        have := hinside _ hcontents
        rw [toJson, depth_tagged]
        omega
      · -- prettyForAll
        next hcontents =>
        simp only [Option.bind_eq_some_iff] at h
        obtain ⟨vs, -, body, hbody, heq⟩ := h
        cases heq
        have := ih hbody
        have := hinside _ hcontents
        simp only [toJson, depth_tagged, Json.depth, depthItems, depth_strings] at *
        omega
      · cases h

/-- What is read for a type is no deeper, written again, than what it is
read from. -/
theorem depth_le_of_ofJson? {j : Json} {t : Ty} (h : ofJson? j = some t) :
    t.toJson.depth ≤ j.depth :=
  depth_le_of_ofJsonWithin? h

/-! ## Types with shallow kinds -/

/-- The kinds of all annotations in a type. -/
def kinds : Ty → List Kind :=
  fold fun t inner =>
    match t with
    | .kinded _ k => k :: inner.flatten
    | _ => inner.flatten

theorem mem_kinds_kinded (t : Ty) (k : Kind) : k ∈ (kinded t k).kinds := by
  rw [kinds, fold_eq]
  exact List.mem_cons_self

theorem mem_kinds_of_child {c t : Ty} (h : c ∈ t.children) {k : Kind} (hk : k ∈ c.kinds) :
    k ∈ t.kinds := by
  have hflatten : k ∈ (t.children.map kinds).flatten :=
    List.mem_flatten.mpr ⟨_, List.mem_map_of_mem h, hk⟩
  rw [kinds, fold_eq]
  split
  · exact List.mem_cons_of_mem _ hflatten
  · exact hflatten

/-- A node puts at most five levels around its children, and what it has
beside them takes five at most, unless that is a kind: a kind of eight
levels takes ten, and the annotated type accounts for five of these. -/
theorem depth_node_le {t : Ty} {n : Nat}
    (hchildren : ∀ c ∈ t.children, 5 ≤ n ∧ c.toJson.depth ≤ n)
    (hkind : ∀ u k, t = .kinded u k → k.toJson.depth ≤ 8) : t.toJson.depth ≤ n + 5 := by
  cases t with
  | unknown | var | wildcard | constructor | rowEmpty =>
      simp only [toJson, depth_tagged, depth_bare, depth_ofUInt32, Qualified.depth_toJson,
        Json.depth]
      omega
  | app | rowCons | prettyFunction | prettyObject =>
      simp only [children, List.forall_mem_cons] at hchildren
      simp only [toJson, depth_tagged, Json.depth, depthItems]
      omega
  | forAll v body scope =>
      have hbody := hchildren body (by simp [children])
      have hscope : (ofOption ofUInt32 scope).depth ≤ 0 :=
        depth_ofOption_le (fun n => Nat.le_of_eq (depth_ofUInt32 n)) scope
      simp only [toJson, depth_tagged, Json.depth, depthItems]
      omega
  | constrained cs body =>
      have hcs : depthItems (constraintsToJson cs) ≤ n + 2 := by
        refine depth_constraints_le_iff.mpr fun c hc => ⟨by omega, fun t ht => ?_⟩
        have hmem : t ∈ children (.constrained cs body) :=
          List.mem_append_left _ (List.mem_flatMap_of_mem hc ht)
        have := hchildren t hmem
        omega
      have hbody := hchildren body (by simp [children])
      simp only [toJson, depth_tagged, Json.depth, depthItems]
      omega
  | skolem v id scope span =>
      have hspan : (ofOption Span.toJson span).depth ≤ 2 :=
        depth_ofOption_le (fun s => Nat.le_of_eq s.depth_toJson) span
      simp only [toJson, depth_tagged, Json.depth, depthItems, depth_ofUInt32]
      omega
  | kinded type k =>
      have htype := hchildren type (by simp [children])
      have hk := hkind type k rfl
      simp only [toJson, depth_tagged, Json.depth, depthItems]
      omega
  | prettyForAll vs body =>
      have hbody := hchildren body (by simp [children])
      simp only [toJson, depth_tagged, Json.depth, depthItems, depth_strings]
      omega

/-- Five levels of JSON for each level of a type are enough if no kind is
nested in more than eight. -/
theorem depth_toJson_le {t : Ty} (h : ∀ k ∈ t.kinds, k.toJson.depth ≤ 8) :
    t.toJson.depth ≤ 5 * t.depth := by
  induction t using induction_on_children with
  | step t ih =>
      have hchildren : ∀ c ∈ t.children, 5 ≤ 5 * (t.depth - 1) ∧
          c.toJson.depth ≤ 5 * (t.depth - 1) := by
        intro c hc
        have hdepth := ih c hc fun k hk => h k (mem_kinds_of_child hc hk)
        have hlt := depth_child_lt hc
        have hpos := depth_pos c
        omega
      have hnode := depth_node_le hchildren fun u k hk => h k (hk ▸ mem_kinds_kinded u k)
      have hpos := depth_pos t
      omega

end Ty

end RowTypes
