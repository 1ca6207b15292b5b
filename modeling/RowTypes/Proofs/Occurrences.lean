import Mathlib.Data.List.Induction
import RowTypes.Proofs.FreeVars
import RowTypes.Proofs.Ty.Preorder

/-!
# Free occurrences

The free variables of a type, occurrence by occurrence. `freeSpots` lists
the paths to the free occurrences with the names there, in the order of
the paths (`pairwise_freeSpots`): it has every free occurrence
(`mem_freeSpots`), and its names are the free names of the nameless form
(`freeNames_nameless`). So the collector lists exactly the names that
occur free, each at the rank of its first free occurrence, and puts its
bound names right on the way (`freeVars_first`).
-/

namespace RowTypes

namespace Ty

/-! ## The spots -/

/-- What is listed for the children of a node, seen from the node. -/
def numberSpots (spots : List (List (Path × Name))) : List (Path × Name) :=
  spots.zipIdx.flatMap fun (below, i) => below.map fun (p, x) => (i :: p, x)

/-- The free occurrences of variables, from left to right. -/
def freeSpots : Ty → List (Path × Name) := fold fun t spots =>
  match t with
  | .var v => [([], v)]
  | .forAll v _ _ => (numberSpots spots).filter fun s => s.2 ≠ v
  | .prettyFunction _ _ | .prettyObject _ | .prettyForAll _ _ => []
  | _ => numberSpots spots

theorem freeSpots_var (v : Name) : (var v).freeSpots = [([], v)] := rfl

theorem freeSpots_forAll (v : Name) (body : Ty) (scope : Option SkolemScope) :
    (forAll v body scope).freeSpots =
      (numberSpots [body.freeSpots]).filter fun s => s.2 ≠ v := by
  rw [freeSpots, fold_eq]
  rfl

theorem freeSpots_display {t : Ty} (h : t.head.display) : t.freeSpots = [] := by
  rw [freeSpots, fold_eq]
  cases t <;> simp [head, Head.display] at h <;> rfl

theorem freeSpots_plain {t : Ty} (h : t.head.plain) :
    t.freeSpots = numberSpots (t.children.map freeSpots) := by
  rw [freeSpots, fold_eq]
  cases t <;> simp [head, Head.plain, Head.display] at h <;> rfl

theorem mem_numberSpots {ts : List Ty} {p : Path} {x : Name} :
    (p, x) ∈ numberSpots (ts.map freeSpots) ↔
      ∃ i q c, p = i :: q ∧ ts[i]? = some c ∧ (q, x) ∈ c.freeSpots := by
  simp only [numberSpots, List.mem_flatMap, List.mem_map, Prod.mk.injEq, Prod.exists,
    List.mem_zipIdx_iff_getElem?, List.getElem?_map, Option.map_eq_some_iff]
  constructor
  · rintro ⟨_, i, ⟨c, hc, rfl⟩, q, _, hq, rfl, rfl⟩
    exact ⟨i, q, c, rfl, hc, hq⟩
  · rintro ⟨i, q, c, rfl, hc, hq⟩
    exact ⟨_, i, ⟨c, hc, rfl⟩, q, x, hq, rfl, rfl⟩

section

variable {t : Ty} {p : Path} {x : Name}

theorem shown_of_plain (h : t.head.plain) : t.head.display = false := by
  cases t with
  | prettyFunction _ _ | prettyObject _ | prettyForAll _ _ => cases h
  | _ => rfl

/-- What is free below a node is free in one of its children, unless the
node is a quantifier of it. -/
theorem freeAt_below (hvar : ∀ v, t ≠ .var v) (hshown : t.head.display = false) :
    t.FreeAt p x ↔
      (∃ i q c, p = i :: q ∧ t.children[i]? = some c ∧ c.FreeAt q x) ∧
        ¬ t.QuantifiesAt [] x := by
  cases p with
  | nil => simp [freeAt_root, hvar]
  | cons i p =>
      constructor
      · intro h
        obtain ⟨c, hc⟩ := h.exists_child
        obtain ⟨-, hnot, hfree⟩ := (freeAt_cons hc).mp h
        exact ⟨⟨i, p, c, rfl, hc, hfree⟩, hnot⟩
      · rintro ⟨⟨_, _, c, heq, hc, hfree⟩, hnot⟩
        cases heq
        exact (freeAt_cons hc).mpr ⟨hshown, hnot, hfree⟩

/-- The spots are the free occurrences. -/
theorem mem_freeSpots : (p, x) ∈ t.freeSpots ↔ t.FreeAt p x := by
  induction t using induction_on_children generalizing p with
  | step t ih =>
      have hbelow : (p, x) ∈ numberSpots (t.children.map freeSpots) ↔
          ∃ i q c, p = i :: q ∧ t.children[i]? = some c ∧ c.FreeAt q x := by
        rw [mem_numberSpots]
        refine exists_congr fun i => exists_congr fun q => exists_congr fun c =>
          and_congr_right fun _ => and_congr_right fun hc => ih c (List.mem_of_getElem? hc)
      cases t using cases_plain with
      | var v =>
          rw [freeSpots_var, List.mem_singleton, Prod.mk.injEq]
          cases p with
          | nil => simp [freeAt_root, eq_comm]
          | cons i p =>
              refine ⟨fun h => (by cases h.1), fun h => ?_⟩
              obtain ⟨c, hc⟩ := h.exists_child
              cases hc
      | forAll v body scope =>
          have hnot : ¬ (forAll v body scope).QuantifiesAt [] x ↔ x ≠ v := by
            simp [quantifiesAt_root, eq_comm]
          rw [freeAt_below (by simp) rfl, hnot, ← hbelow, freeSpots_forAll, List.mem_filter,
            decide_eq_true_eq]
          rfl
      | display t h =>
          rw [freeSpots_display h]
          refine ⟨fun hmem => (by cases hmem), fun hfree => ?_⟩
          rw [hfree.shown [] List.nil_prefix t rfl] at h
          cases h
      | plain t h =>
          have hvar : ∀ v, t ≠ .var v := by rintro v rfl; cases h
          have hnot : ¬ t.QuantifiesAt [] x := by
            rw [quantifiesAt_root]
            rintro ⟨body, scope, rfl⟩
            cases h
          rw [freeAt_below hvar (shown_of_plain h), freeSpots_plain h, hbelow, and_iff_left hnot]

end

/-! ## Their order -/

theorem pairwise_numberSpots {spots : List (List (Path × Name))}
    (h : ∀ below ∈ spots, below.Pairwise fun s s' => s.1 < s'.1) :
    (numberSpots spots).Pairwise fun s s' => s.1 < s'.1 := by
  refine pairwise_flatMap_zipIdx
    (fun (below : List (Path × Name)) i => below.map fun (p, x) => (i :: p, x))
    (fun below hbelow i => ?_) fun below below' i j hij s hs s' hs' => ?_
  · rw [List.pairwise_map]
    exact (h below hbelow).imp fun hlt => List.cons_lt_cons_self.mpr hlt
  · obtain ⟨_, -, rfl⟩ := List.mem_map.mp hs
    obtain ⟨_, -, rfl⟩ := List.mem_map.mp hs'
    exact List.Lex.rel hij

/-- They are listed from left to right. -/
theorem pairwise_freeSpots (t : Ty) : t.freeSpots.Pairwise fun s s' => s.1 < s'.1 := by
  induction t using induction_on_children with
  | step t ih =>
      have hbelow : (numberSpots (t.children.map freeSpots)).Pairwise fun s s' => s.1 < s'.1 := by
        refine pairwise_numberSpots fun below hmem => ?_
        obtain ⟨c, hc, rfl⟩ := List.mem_map.mp hmem
        exact ih c hc
      cases t using cases_plain with
      | var v => exact List.pairwise_singleton _ _
      | forAll v body scope =>
          rw [freeSpots_forAll]
          exact hbelow.filter _
      | display t h =>
          rw [freeSpots_display h]
          exact .nil
      | plain t h => rwa [freeSpots_plain h]

/-! ## Their names -/

/-- The names that occur free, from left to right, each as often as it
does. -/
def freeNames (t : Ty) : List Name := t.freeSpots.map Prod.snd

theorem mem_freeNames {t : Ty} {x : Name} : x ∈ t.freeNames ↔ ∃ p, t.FreeAt p x := by
  simp only [freeNames, List.mem_map, Prod.exists, exists_eq_right, mem_freeSpots]

theorem map_snd_numberSpots (spots : List (List (Path × Name))) :
    (numberSpots spots).map Prod.snd = spots.flatMap fun below => below.map Prod.snd := by
  rw [numberSpots, List.map_flatMap]
  simp only [List.map_map, Function.comp_def]
  exact flatMap_zipIdx_fst (fun below => below.map Prod.snd) spots

theorem freeNames_forAll (v : Name) (body : Ty) (scope : Option SkolemScope) :
    (forAll v body scope).freeNames = body.freeNames.filter fun x => x ≠ v := by
  have hbody : body.freeNames = (numberSpots [body.freeSpots]).map Prod.snd := by
    rw [map_snd_numberSpots, List.flatMap_singleton, freeNames]
  rw [hbody, freeNames, freeSpots_forAll, List.filter_map]
  rfl

theorem freeNames_plain {t : Ty} (h : t.head.plain) :
    t.freeNames = t.children.flatMap freeNames := by
  rw [freeNames, freeSpots_plain h, map_snd_numberSpots, List.flatMap_map]
  rfl

theorem filter_not_mem_cons (v : Name) (env xs : List Name) :
    xs.filter (· ∉ v :: env) = (xs.filter (· ≠ v)).filter (· ∉ env) := by
  rw [List.filter_filter]
  exact List.filter_congr fun x _ => by simp [Bool.and_comm]

/-- The nameless form below some quantifiers has the names that none of
them binds. -/
theorem freeNames_erase (t : Ty) (env : List Name) :
    (t.erase env).freeNames = t.freeNames.filter (· ∉ env) := by
  induction t using induction_on_plain generalizing env with
  | var v =>
      rw [erase, resolve, freeNames, freeSpots_var]
      by_cases hv : v ∈ env
      · obtain ⟨i, hi⟩ := Option.isSome_iff_exists.mp (List.isSome_idxOf?.mpr hv)
        simp [hi, hv, Nameless.freeNames]
      · simp [List.idxOf?_eq_none_iff.mpr hv, hv, Nameless.freeNames]
  | forAll v body scope ih =>
      rw [erase, Nameless.freeNames, ih, freeNames_forAll, filter_not_mem_cons]
  | display t h => rw [erase_display h, freeNames, freeSpots_display h]; rfl
  | plain t h ih =>
      rw [erase_plain h, Nameless.freeNames_node, freeNames_plain h, List.flatMap_map,
        List.filter_flatMap]
      exact List.flatMap_congr fun c hc => ih c hc env

theorem freeNames_nameless (t : Ty) : t.nameless.freeNames = t.freeNames := by
  rw [nameless, freeNames_erase]
  simp

/-! ## The free variables in order -/

/-- Names are listed in the order of their first occurrence. -/
theorem pairwise_foldl_addName {spots : List (Path × Name)}
    (h : spots.Pairwise fun s s' => s.1 < s'.1) :
    ((spots.map Prod.snd).foldl addName []).Pairwise fun x y =>
      ∃ p, (p, x) ∈ spots ∧ ∀ q, (q, y) ∈ spots → p < q := by
  induction spots using List.reverseRecOn with
  | nil => exact .nil
  | append_singleton spots s ih =>
      obtain ⟨hspots, -, hlast⟩ := List.pairwise_append.mp h
      have hstays : ((spots.map Prod.snd).foldl addName []).Pairwise fun x y =>
          ∃ p, (p, x) ∈ spots ++ [s] ∧ ∀ q, (q, y) ∈ spots ++ [s] → p < q := by
        refine (ih hspots).imp fun ⟨p, hp, hbefore⟩ => ⟨p, List.mem_append_left _ hp, fun q hq => ?_⟩
        rcases List.mem_append.mp hq with hq | hq
        · exact hbefore q hq
        · exact hlast _ hp _ hq
      rw [List.map_append, List.foldl_append, List.map_singleton, List.foldl_cons, List.foldl_nil,
        addName]
      split
      · exact hstays
      · next hnew =>
        refine List.pairwise_append.mpr ⟨hstays, List.pairwise_singleton _ _, fun x hx y hy => ?_⟩
        obtain rfl := List.mem_singleton.mp hy
        have hspot : x ∈ spots.map Prod.snd := by simpa [mem_foldl_addName] using hx
        obtain ⟨⟨p, x⟩, hp, rfl⟩ := List.mem_map.mp hspot
        refine ⟨p, List.mem_append_left _ hp, fun q hq => ?_⟩
        rcases List.mem_append.mp hq with hq | hq
        · exact absurd (mem_foldl_addName.mpr (.inr (List.mem_map_of_mem hq))) hnew
        · exact hlast _ hp _ hq

theorem foldl_addName_filter (keep : Name → Bool) (xs found : List Name) :
    (xs.filter keep).foldl addName (found.filter keep) = (xs.foldl addName found).filter keep := by
  induction xs generalizing found with
  | nil => rfl
  | cons x xs ih =>
      rw [List.foldl_cons, ← ih, addName]
      by_cases hx : keep x
      · rw [List.filter_cons_of_pos hx, List.foldl_cons, addName]
        by_cases hmem : x ∈ found <;> simp [hmem, hx]
      · rw [List.filter_cons_of_neg hx]
        split
        · rfl
        · rw [List.filter_append, List.filter_cons_of_neg hx, List.filter_nil, List.append_nil]

theorem freeVars_eq_foldl (t : Ty) : t.freeVars = t.freeNames.foldl addName [] := by
  rw [freeVars_eq, freeNames_nameless]

/-- A quantifier takes its name out of the free variables. -/
theorem freeVars_forAll (v : Name) (body : Ty) (scope : Option SkolemScope) :
    (forAll v body scope).freeVars = body.freeVars.filter fun x => x ≠ v := by
  rw [freeVars_eq_foldl, freeVars_eq_foldl, freeNames_forAll, ← foldl_addName_filter]
  rfl

theorem mem_freeVars_iff {t : Ty} {x : Name} : x ∈ t.freeVars ↔ ∃ p, t.FreeAt p x := by
  rw [mem_freeVars, freeNames_nameless, mem_freeNames]

/-- Every name that occurs free and is not bound around the type is listed
in the end, in whatever part of the type it is bound as well. -/
theorem mem_free_collect {s : Collector} (h : s.Mirrors) {t : Ty} {x : Name} :
    x ∈ (t.collect s).free ↔ x ∈ s.free ∨ x ∉ s.bound ∧ ∃ p, t.FreeAt p x := by
  rw [free_collect h, collectFree_eq_foldl, mem_foldl_addName, freeNames_erase, List.mem_filter,
    decide_eq_true_eq, mem_freeNames, and_comm]
  rfl

/-- The free variables are the names that occur free somewhere, each
once; a name comes before another one if it occurs free before all free
occurrences of the other. Paths are compared from the root down, so the
children of a node count from left to right, the arguments of constraints
before what they guard.

From every state the collector comes back to the bound names it had, also
where a quantifier has the name of an outer one. If the names listed are
those looked up, they stay so, and listed are then the names that were
before and those that occur free and were not bound; this is also what
the recursion lists that hands the bound names down. -/
theorem freeVars_first (t : Ty) :
    (t.freeVars.Nodup ∧ (∀ x, x ∈ t.freeVars ↔ ∃ p, t.FreeAt p x) ∧
      t.freeVars.Pairwise fun x y => ∃ p, t.FreeAt p x ∧ ∀ q, t.FreeAt q y → p < q) ∧
    (∀ s : Collector, (t.collect s).bound = s.bound) ∧
    ∀ s : Collector, s.Mirrors → (t.collect s).Mirrors ∧
      (∀ x, x ∈ (t.collect s).free ↔ x ∈ s.free ∨ x ∉ s.bound ∧ ∃ p, t.FreeAt p x) ∧
      (t.collect s).free = t.collectFree s.bound.names s.free := by
  have hfirst : t.freeVars.Pairwise fun x y => ∃ p, t.FreeAt p x ∧ ∀ q, t.FreeAt q y → p < q := by
    rw [freeVars_eq_foldl, freeNames]
    simpa only [mem_freeSpots] using pairwise_foldl_addName (pairwise_freeSpots t)
  refine ⟨⟨hfirst.imp ?_, fun x => mem_freeVars_iff, hfirst⟩, bound_collect t, fun s hs =>
    ⟨mirrors_collect hs t, fun x => mem_free_collect hs, free_collect hs t⟩⟩
  rintro x _ ⟨p, hp, hbefore⟩ rfl
  exact List.lt_irrefl p (hbefore p hp)

/-- Below a quantifier of "a" and after "b" was met: the name bound twice
is bound again after the inner quantifier, and "c" is free beside the
place where it is bound. -/
theorem freeVars_first_rebound :
    let s : Collector := ⟨⟨["a"], by decide⟩, ["b"], ⟨["b"], by decide⟩⟩
    let t : Ty := .app (.app (.forAll "a" (.forAll "c" (.app (.var "c") (.var "a")) none) none)
      (.var "a")) (.app (.var "c") (.var "b"))
    s.Mirrors ∧ (t.collect s).bound = s.bound ∧ (t.collect s).Mirrors ∧
      (t.collect s).free = ["b", "c"] := by
  intro s t
  have hs : s.Mirrors := fun _ => Iff.rfl
  obtain ⟨-, hbound, hrun⟩ := freeVars_first t
  obtain ⟨hmirrors, -, hfree⟩ := hrun s hs
  exact ⟨hs, hbound s, hmirrors, hfree.trans (by decide)⟩

end Ty

end RowTypes
