import Mathlib.Data.List.Basic
import RowTypes.Proofs.Occurrences
import RowTypes.Proofs.Quantify.Spine

/-!
# What variables refer to when quantifiers are brought to the front

The parts of a spine are its constraint arguments and its inner type. A
variable in a part may refer to a quantifier within the part, to one of
the spine's quantifiers around the part, or to none. Bringing quantifiers
to the front keeps the parts, in their order, but puts every part below
all quantifiers of the spine, also those that stood further in. So all
references are kept exactly if no part mentions a name that a quantifier
further in binds (`keepsReferences_hoist_iff`); a name that was free then
is captured (`hoist_captures`).
-/

namespace RowTypes

namespace Ty

/-! ## The parts of a spine -/

/-- A constraint argument of a spine or its inner type, with the names of
the spine's quantifiers around it and of those further in. -/
structure Part where
  path : Path
  outer : List Name
  later : List Name
  type : Ty

/-- The names that the quantifiers of the spine bind, from outside to
inside. -/
def binders (t : Ty) : List Name := t.spine.quantifiers.map Prod.fst

/-- The parts of the spine, constraint arguments from outside to inside
and then the inner type. -/
def parts : Ty → List Part
  | .forAll v body _ =>
    body.parts.map fun d => { d with path := 0 :: d.path, outer := v :: d.outer }
  | .constrained cs body =>
    let args := cs.flatMap (·.args)
    (args.zipIdx.map fun (a, i) => ⟨[i], [], body.binders, a⟩) ++
      body.parts.map fun d => { d with path := args.length :: d.path }
  | t => [⟨[], [], [], t⟩]

/-- The paths to the quantifiers of the spine, from outside to inside. -/
def quantifierPaths : Ty → List Path
  | .forAll _ body _ => [] :: body.quantifierPaths.map (0 :: ·)
  | .constrained cs body => body.quantifierPaths.map ((cs.flatMap (·.args)).length :: ·)
  | _ => []

/-- What a variable in a part of the spine of `t` refers to it refers to
in the part of `u` that comes at the same place: to no quantifier, to the
same one within the part, or to the same one of the spine. -/
def KeepsReferences (t u : Ty) : Prop :=
  ∀ (i : Nat) (d : Part), t.parts[i]? = some d →
    ∃ e, u.parts[i]? = some e ∧ e.type = d.type ∧ ∀ (p : Path) (x : Name),
      (t.FreeAt (d.path ++ p) x → u.FreeAt (e.path ++ p) x) ∧
      (∀ q, t.BoundAt (d.path ++ p) x (d.path ++ q) → u.BoundAt (e.path ++ p) x (e.path ++ q)) ∧
      ∀ (j : Nat) (q : Path), t.quantifierPaths[j]? = some q → t.BoundAt (d.path ++ p) x q →
        ∃ r, u.quantifierPaths[j]? = some r ∧ u.BoundAt (e.path ++ p) x r

/-- No part of the spine mentions a name that a quantifier of the spine
further in binds. -/
def Uncrossed (t : Ty) : Prop :=
  ∀ d ∈ t.parts, ∀ x ∈ d.type.freeVars, x ∉ d.later

instance (t : Ty) : Decidable t.Uncrossed :=
  inferInstanceAs (Decidable (∀ d ∈ t.parts, ∀ x ∈ d.type.freeVars, x ∉ d.later))

/-! ### Layer by layer -/

section

variable {t body a : Ty} {cs : List (Constraint Ty)} {v x : Name} {scope : Option SkolemScope}
  {d : Part} {p q : Path} {i : Nat}

theorem binders_forAll : (forAll v body scope).binders = v :: body.binders := by
  rw [binders, spine_forAll]
  rfl

theorem binders_constrained : (constrained cs body).binders = body.binders := by
  rw [binders, spine_constrained]
  rfl

theorem binders_inner (h : t.isLayer = false) : t.binders = [] := by
  rw [binders, spine_inner h]
  rfl

theorem parts_inner (h : t.isLayer = false) : t.parts = [⟨[], [], [], t⟩] := by
  cases t with
  | forAll _ _ _ | constrained _ _ => cases h
  | _ => rfl

theorem quantifierPaths_inner (h : t.isLayer = false) : t.quantifierPaths = [] := by
  cases t with
  | forAll _ _ _ | constrained _ _ => cases h
  | _ => rfl

theorem mem_parts_forAll :
    d ∈ (forAll v body scope).parts ↔
      ∃ d' ∈ body.parts, d = { d' with path := 0 :: d'.path, outer := v :: d'.outer } := by
  simp only [parts, List.mem_map, eq_comm]

theorem mem_parts_constrained :
    d ∈ (constrained cs body).parts ↔
      (∃ a i, (cs.flatMap (·.args))[i]? = some a ∧ d = ⟨[i], [], body.binders, a⟩) ∨
      ∃ d' ∈ body.parts, d = { d' with path := (cs.flatMap (·.args)).length :: d'.path } := by
  simp only [parts, List.mem_append, List.mem_map, Prod.exists, List.mem_zipIdx_iff_getElem?,
    eq_comm]

theorem getElem?_argument (h : (cs.flatMap (·.args))[i]? = some a) :
    (constrained cs body).children[i]? = some a :=
  List.getElem?_append_left ((List.getElem?_eq_some_iff.mp h).1) ▸ h

theorem getElem?_body :
    (constrained cs body).children[(cs.flatMap (·.args)).length]? = some body :=
  List.getElem?_concat_length ..

theorem outer_append_later (hd : d ∈ t.parts) : d.outer ++ d.later = t.binders := by
  induction t using induction_on_spine generalizing d with
  | forAll v body scope ih =>
      obtain ⟨d', hd', rfl⟩ := mem_parts_forAll.mp hd
      rw [binders_forAll, ← ih hd', List.cons_append]
  | constrained cs body ih =>
      rw [binders_constrained]
      rcases mem_parts_constrained.mp hd with ⟨a, i, -, rfl⟩ | ⟨d', hd', rfl⟩
      · rfl
      · rw [← ih hd']
  | inner t h =>
      rw [parts_inner h, List.mem_singleton] at hd
      rw [hd, binders_inner h, List.append_nil]

theorem length_quantifierPaths (t : Ty) : t.quantifierPaths.length = t.binders.length := by
  induction t using induction_on_spine with
  | forAll v body scope ih => rw [quantifierPaths, binders_forAll]; simp [ih]
  | constrained cs body ih => rw [quantifierPaths, binders_constrained]; simp [ih]
  | inner t h => rw [quantifierPaths_inner h, binders_inner h]; rfl

theorem map_type_parts (t : Ty) :
    t.parts.map Part.type = t.spine.constraints.flatMap (·.args) ++ [t.spine.inner] := by
  induction t using induction_on_spine with
  | forAll v body scope ih =>
      rw [spine_forAll, ← ih, parts, List.map_map]
      rfl
  | constrained cs body ih =>
      rw [spine_constrained, List.flatMap_append, List.append_assoc, ← ih, parts, List.map_append,
        List.map_map, List.map_map]
      congr 1
      exact List.zipIdx_map_fst 0 _
  | inner t h => rw [parts_inner h, spine_inner h]; rfl

/-! ### References below a layer -/

theorem freeAt_forAll :
    (forAll v body scope).FreeAt (0 :: p) x ↔ x ≠ v ∧ body.FreeAt p x := by
  rw [freeAt_cons (t := forAll v body scope) (c := body) rfl, quantifiesAt_root]
  simp [head, Head.display, eq_comm]

theorem boundAt_forAll :
    (forAll v body scope).BoundAt (0 :: p) x (0 :: q) ↔ body.BoundAt p x q := by
  rw [boundAt_cons (t := forAll v body scope) (c := body) rfl]
  exact and_iff_right rfl

theorem boundAt_outermost :
    (forAll v body scope).BoundAt (0 :: p) x [] ↔ x = v ∧ body.FreeAt p x := by
  rw [boundAt_root (t := forAll v body scope) (c := body) rfl, quantifiesAt_root]
  simp [eq_comm]

theorem freeAt_constrained (h : (constrained cs body).children[i]? = some a) :
    (constrained cs body).FreeAt (i :: p) x ↔ a.FreeAt p x := by
  rw [freeAt_cons h, quantifiesAt_root]
  simp [head, Head.display]

theorem boundAt_constrained (h : (constrained cs body).children[i]? = some a) :
    (constrained cs body).BoundAt (i :: p) x (i :: q) ↔ a.BoundAt p x q := by
  rw [boundAt_cons h]
  exact and_iff_right rfl

/-! ## What a variable in a part refers to -/

theorem freeAt_part (hd : d ∈ t.parts) :
    t.FreeAt (d.path ++ p) x ↔ d.type.FreeAt p x ∧ x ∉ d.outer := by
  induction t using induction_on_spine generalizing d with
  | forAll v body scope ih =>
      obtain ⟨d', hd', rfl⟩ := mem_parts_forAll.mp hd
      rw [List.cons_append, freeAt_forAll, ih hd', List.mem_cons, not_or, and_left_comm]
  | constrained cs body ih =>
      rcases mem_parts_constrained.mp hd with ⟨a, i, ha, rfl⟩ | ⟨d', hd', rfl⟩
      · rw [List.singleton_append, freeAt_constrained (getElem?_argument ha)]
        simp
      · rw [List.cons_append, freeAt_constrained getElem?_body, ih hd']
  | inner t h =>
      rw [parts_inner h, List.mem_singleton] at hd
      rw [hd]
      simp

/-- A quantifier within a part binds what it binds in the part alone. -/
theorem boundAt_part (hd : d ∈ t.parts) :
    t.BoundAt (d.path ++ p) x (d.path ++ q) ↔ d.type.BoundAt p x q := by
  induction t using induction_on_spine generalizing d with
  | forAll v body scope ih =>
      obtain ⟨d', hd', rfl⟩ := mem_parts_forAll.mp hd
      rw [List.cons_append, List.cons_append, boundAt_forAll, ih hd']
  | constrained cs body ih =>
      rcases mem_parts_constrained.mp hd with ⟨a, i, ha, rfl⟩ | ⟨d', hd', rfl⟩
      · exact boundAt_constrained (getElem?_argument ha)
      · rw [List.cons_append, List.cons_append, boundAt_constrained getElem?_body, ih hd']
  | inner t h =>
      rw [parts_inner h, List.mem_singleton] at hd
      rw [hd]
      rfl

/-- The name stands at the given place of a list, and nowhere after. -/
def LastAt (names : List Name) (j : Nat) (x : Name) : Prop :=
  names[j]? = some x ∧ x ∉ names.drop (j + 1)

/-- A quantifier of the spine binds what is free in a part below it, if
it is the last one around the part with that name. -/
theorem boundAt_spine {j : Nat} (hd : d ∈ t.parts) (hq : t.quantifierPaths[j]? = some q) :
    t.BoundAt (d.path ++ p) x q ↔ d.type.FreeAt p x ∧ LastAt d.outer j x := by
  induction t using induction_on_spine generalizing d j q with
  | forAll v body scope ih =>
      obtain ⟨d', hd', rfl⟩ := mem_parts_forAll.mp hd
      rw [List.cons_append]
      cases j with
      | zero =>
          obtain rfl : [] = q := Option.some.inj hq
          rw [boundAt_outermost, freeAt_part hd', LastAt]
          simp [and_left_comm, eq_comm]
      | succ j =>
          rw [quantifierPaths, List.getElem?_cons_succ, List.getElem?_map,
            Option.map_eq_some_iff] at hq
          obtain ⟨q, hq, rfl⟩ := hq
          rw [boundAt_forAll, ih hd' hq]
          rfl
  | constrained cs body ih =>
      rw [quantifierPaths, List.getElem?_map, Option.map_eq_some_iff] at hq
      obtain ⟨q, hq, rfl⟩ := hq
      rcases mem_parts_constrained.mp hd with ⟨a, i, ha, rfl⟩ | ⟨d', hd', rfl⟩
      · -- the quantifiers of the spine stand beside the argument, not above it
        refine ⟨fun h => ?_, fun h => by cases h.2.1⟩
        have hlt := (List.getElem?_eq_some_iff.mp ha).1
        exact absurd h.head_eq (Nat.ne_of_gt hlt)
      · rw [List.cons_append, boundAt_constrained getElem?_body, ih hd' hq]
  | inner t h =>
      rw [quantifierPaths_inner h] at hq
      cases hq

theorem exists_lastAt {names : List Name} (hx : x ∈ names) : ∃ j, LastAt names j x := by
  induction names with
  | nil => cases hx
  | cons y names ih =>
      by_cases hlater : x ∈ names
      · obtain ⟨j, hj⟩ := ih hlater
        exact ⟨j + 1, hj⟩
      · obtain rfl := (List.mem_cons.mp hx).resolve_right hlater
        exact ⟨0, rfl, hlater⟩

/-- Names added after the last place of a name move that place if and
only if the name is among them. -/
theorem lastAt_append_iff {names more : List Name} {j : Nat} (h : LastAt names j x) :
    LastAt (names ++ more) j x ↔ x ∉ more := by
  have hlt := (List.getElem?_eq_some_iff.mp h.1).1
  rw [LastAt, List.getElem?_append_left hlt, List.drop_append_of_le_length hlt, List.mem_append,
    not_or]
  exact ⟨fun hlast => hlast.2.2, fun hx => ⟨h.1, h.2, hx⟩⟩

end

/-! ## Quantifiers brought to the front -/

section

variable {t : Ty} {d : Part} {i : Nat}

/-- In the canonical form all quantifiers stand around all parts. -/
theorem outer_of_mem_parts_toTy {s : Spine} (h : s.inner.isLayer = false)
    (hd : d ∈ s.toTy.parts) : d.outer = s.quantifiers.map Prod.fst := by
  obtain ⟨quantifiers, constraints, inner⟩ := s
  induction quantifiers generalizing d with
  | nil =>
      rw [Spine.toTy, List.foldr_nil, guarded] at hd
      split at hd
      · rw [parts_inner h, List.mem_singleton] at hd
        rw [hd]
        rfl
      · rcases mem_parts_constrained.mp hd with ⟨a, i, -, rfl⟩ | ⟨d', hd', rfl⟩
        · rfl
        · rw [parts_inner h, List.mem_singleton] at hd'
          rw [hd']
          rfl
  | cons q quantifiers ih =>
      obtain ⟨d', hd', rfl⟩ := mem_parts_forAll.mp hd
      exact congrArg (q.1 :: ·) (ih h hd')

theorem binders_hoist (t : Ty) : t.hoist.binders = t.binders := by
  rw [binders, spine_hoist, ← binders]

theorem outer_of_mem_parts_hoist (hd : d ∈ t.hoist.parts) : d.outer = t.binders :=
  outer_of_mem_parts_toTy (isLayer_inner t) hd

theorem map_type_parts_hoist (t : Ty) : t.hoist.parts.map Part.type = t.parts.map Part.type := by
  rw [map_type_parts, map_type_parts, spine_hoist]

theorem exists_part_hoist (hd : t.parts[i]? = some d) :
    ∃ e, t.hoist.parts[i]? = some e ∧ e.type = d.type := by
  have htype : (t.hoist.parts.map Part.type)[i]? = some d.type := by
    rw [map_type_parts_hoist, List.getElem?_map, hd, Option.map_some]
  rwa [List.getElem?_map, Option.map_eq_some_iff] at htype

theorem getElem?_quantifierPaths {j : Nat} {names more : List Name} {x : Name} (u : Ty)
    (h : LastAt names j x) (hu : u.binders = names ++ more) :
    ∃ q, u.quantifierPaths[j]? = some q := by
  have hlt := (List.getElem?_eq_some_iff.mp h.1).1
  have hlength : j < u.quantifierPaths.length := by
    rw [length_quantifierPaths, hu, List.length_append]
    omega
  exact ⟨_, List.getElem?_eq_getElem hlength⟩

theorem keepsReferences_of_uncrossed (h : t.Uncrossed) : t.KeepsReferences t.hoist := by
  intro i d hi
  have hd := List.mem_of_getElem? hi
  obtain ⟨e, he, htype⟩ := exists_part_hoist hi
  have hnames := outer_append_later hd
  have houter := outer_of_mem_parts_hoist (List.mem_of_getElem? he)
  refine ⟨e, he, htype, fun p x => ⟨fun hfree => ?_, fun q hbound => ?_, fun j q hq hbound => ?_⟩⟩
  · obtain ⟨hfree, hx⟩ := (freeAt_part hd).mp hfree
    have hlater := h d hd x (mem_freeVars_iff.mpr ⟨p, hfree⟩)
    rw [freeAt_part (List.mem_of_getElem? he), htype, houter, ← hnames, List.mem_append, not_or]
    exact ⟨hfree, hx, hlater⟩
  · rw [boundAt_part hd] at hbound
    rwa [boundAt_part (List.mem_of_getElem? he), htype]
  · obtain ⟨hfree, hlast⟩ := (boundAt_spine hd hq).mp hbound
    have hlater := h d hd x (mem_freeVars_iff.mpr ⟨p, hfree⟩)
    obtain ⟨r, hr⟩ := getElem?_quantifierPaths t.hoist hlast (binders_hoist t ▸ hnames.symm)
    refine ⟨r, hr, ?_⟩
    rw [boundAt_spine (List.mem_of_getElem? he) hr, htype, houter, ← hnames,
      lastAt_append_iff hlast]
    exact ⟨hfree, hlater⟩

theorem uncrossed_of_keepsReferences (h : t.KeepsReferences t.hoist) : t.Uncrossed := by
  intro d hd x hx
  obtain ⟨p, hfree⟩ := mem_freeVars_iff.mp hx
  obtain ⟨i, hi⟩ := List.mem_iff_getElem?.mp hd
  obtain ⟨e, he, htype, hkeeps⟩ := h i d hi
  have hnames := outer_append_later hd
  have houter := outer_of_mem_parts_hoist (List.mem_of_getElem? he)
  by_cases hout : x ∈ d.outer
  · obtain ⟨j, hlast⟩ := exists_lastAt hout
    obtain ⟨q, hq⟩ := getElem?_quantifierPaths t hlast hnames.symm
    obtain ⟨r, hr, hbound⟩ := (hkeeps p x).2.2 j q hq ((boundAt_spine hd hq).mpr ⟨hfree, hlast⟩)
    rw [boundAt_spine (List.mem_of_getElem? he) hr, houter, ← hnames,
      lastAt_append_iff hlast] at hbound
    exact hbound.2
  · have hstays := (hkeeps p x).1 ((freeAt_part hd).mpr ⟨hfree, hout⟩)
    rw [freeAt_part (List.mem_of_getElem? he), houter, ← hnames, List.mem_append, not_or] at hstays
    exact hstays.2.2

/-! ### Free variables -/

theorem freeNames_parts (t : Ty) :
    t.freeNames = t.parts.flatMap fun d => d.type.freeNames.filter (· ∉ d.outer) := by
  induction t using induction_on_spine with
  | forAll v body scope ih =>
      rw [freeNames_forAll, ih, parts, List.flatMap_map, List.filter_flatMap]
      refine List.flatMap_congr fun d _ => ?_
      rw [filter_not_mem_cons, List.filter_comm]
  | constrained cs body ih =>
      have hargs : ((cs.flatMap (·.args)).zipIdx.map fun (a, i) =>
          (⟨[i], [], body.binders, a⟩ : Part)).flatMap
            (fun d => d.type.freeNames.filter (· ∉ d.outer)) =
          (cs.flatMap (·.args)).flatMap freeNames := by
        conv_rhs => rw [← List.zipIdx_map_fst 0 (cs.flatMap (·.args))]
        rw [List.flatMap_map, List.flatMap_map]
        exact List.flatMap_congr fun a _ => by simp
      rw [freeNames_plain rfl, children, List.flatMap_append, List.flatMap_singleton, ih, parts,
        List.flatMap_append, hargs, List.flatMap_map]
  | inner t h => simp [parts_inner h]

/-- Every free occurrence stays where it was among the others, and is free
no more if a quantifier of the spine binds its name. -/
theorem freeNames_hoist (t : Ty) : t.hoist.freeNames = t.freeNames.filter (· ∉ t.binders) := by
  have hnames : ∀ d ∈ t.parts, d.type.freeNames.filter (· ∉ t.binders) =
      (d.type.freeNames.filter (· ∉ d.outer)).filter (· ∉ t.binders) := by
    intro d hd
    rw [List.filter_filter, ← outer_append_later hd]
    exact List.filter_congr fun x _ => by simp +contextual
  calc t.hoist.freeNames
      = t.hoist.parts.flatMap fun d => d.type.freeNames.filter (· ∉ t.binders) := by
        rw [freeNames_parts]
        exact List.flatMap_congr fun d hd => by rw [outer_of_mem_parts_hoist hd]
    _ = (t.hoist.parts.map Part.type).flatMap fun a => a.freeNames.filter (· ∉ t.binders) := by
        rw [List.flatMap_map]
    _ = t.parts.flatMap fun d => (d.type.freeNames.filter (· ∉ d.outer)).filter (· ∉ t.binders) := by
        rw [map_type_parts_hoist, List.flatMap_map]
        exact List.flatMap_congr hnames
    _ = t.freeNames.filter (· ∉ t.binders) := by rw [← List.filter_flatMap, ← freeNames_parts]

theorem freeVars_hoist (t : Ty) : t.hoist.freeVars = t.freeVars.filter (· ∉ t.binders) := by
  rw [freeVars_eq_foldl, freeVars_eq_foldl, freeNames_hoist, ← foldl_addName_filter]
  rfl

/-- A name free in a type is free in a part of its spine, and no
quantifier of the spine around that part binds it. -/
theorem exists_part_of_mem_freeVars {x : Name} (h : x ∈ t.freeVars) :
    ∃ d ∈ t.parts, x ∈ d.type.freeVars ∧ x ∉ d.outer := by
  rw [mem_freeVars_iff, ← mem_freeNames, freeNames_parts, List.mem_flatMap] at h
  obtain ⟨d, hd, hx⟩ := h
  rw [List.mem_filter, mem_freeNames, ← mem_freeVars_iff, decide_eq_true_eq] at hx
  exact ⟨d, hd, hx⟩

theorem freeVars_hoist_of_uncrossed (h : t.Uncrossed) : t.hoist.freeVars = t.freeVars := by
  rw [freeVars_hoist, List.filter_eq_self]
  intro x hx
  obtain ⟨d, hd, hfree, hout⟩ := exists_part_of_mem_freeVars hx
  rw [decide_eq_true_eq, ← outer_append_later hd, List.mem_append, not_or]
  exact ⟨hout, h d hd x hfree⟩

/-- Bringing quantifiers to the front keeps what every variable refers to
exactly if no part of the spine mentions a name that a quantifier further
in binds, and then it keeps the free variables in their order. -/
theorem keepsReferences_hoist_iff (t : Ty) :
    (t.KeepsReferences t.hoist ↔ t.Uncrossed) ∧
      (t.Uncrossed → t.hoist.freeVars = t.freeVars) :=
  ⟨⟨uncrossed_of_keepsReferences, keepsReferences_of_uncrossed⟩, freeVars_hoist_of_uncrossed⟩

/-- Show a => forall a. a turns into forall a. Show a => a: the constraint,
which stood outside the quantifier, comes to be about its variable. -/
theorem hoist_captures :
    let t : Ty := .constrained [⟨⟨none, "Show"⟩, [.var "a"]⟩] (.forAll "a" (.var "a") none)
    ¬ t.KeepsReferences t.hoist ∧ t.freeVars = ["a"] ∧ t.hoist.freeVars = [] :=
  ⟨fun h => absurd (uncrossed_of_keepsReferences h) (by decide), by decide, by decide⟩

/-- Quantifiers and constraints may stand between each other: forall a.
Show a => forall b. Eq b => a b. -/
theorem keepsReferences_hoist_iff_interleaved :
    let t : Ty := .forAll "a" (.constrained [⟨⟨none, "Show"⟩, [.var "a"]⟩]
      (.forAll "b" (.constrained [⟨⟨none, "Eq"⟩, [.var "b"]⟩]
        (.app (.var "a") (.var "b"))) (some 7))) none
    t.Uncrossed ∧ t.KeepsReferences t.hoist ∧ t.hoist.freeVars = t.freeVars := by
  intro t
  have h : t.Uncrossed := by decide
  exact ⟨h, (keepsReferences_hoist_iff t).1.mpr h, (keepsReferences_hoist_iff t).2 h⟩

end

end Ty

end RowTypes
