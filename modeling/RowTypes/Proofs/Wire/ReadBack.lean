import RowTypes.Proofs.Wire.Arrange

/-!
# Types read back

What is written for a kind or a type is ordinary (`Ty.all_toJson`), and
it is read back as that kind or type, in either arrangement and whether
it is held or not (`Ty.ofJson?_toJson`). The levels of the reader count
levels of JSON, so the induction needs nothing but that they are more
than the value has.
-/

namespace RowTypes

open Json

/-! ## Names, spans and kinds -/

theorem Qualified.all_toJson (q : Qualified) : q.toJson.all ordinary := by
  have hmodule : (Json.ofOption Json.str q.module).all ordinary := all_ofOption (fun _ => rfl) _
  rw [Qualified.toJson, all_obj (by simp), allFields, hmodule]
  rfl

theorem Position.all_toJson (p : Position) : p.toJson.all ordinary := by
  rw [Position.toJson, all_obj (by simp), allFields, allFields, all_ofUInt32, all_ofUInt32]
  rfl

theorem Span.all_toJson (s : Span) : s.toJson.all ordinary := by
  rw [Span.toJson, all_obj (by simp), allFields, allFields, allFields, s.start.all_toJson,
    s.stop.all_toJson]
  rfl

theorem Kind.all_toJson (k : Kind) : k.toJson.all ordinary := by
  induction k with
  | unknown id => rw [Kind.toJson, all_tagged, all_ofUInt32]
  | star => exact all_bare _
  | bang => exact all_bare _
  | row k ih => rw [Kind.toJson, all_tagged, ih]
  | function a b iha ihb =>
      rw [Kind.toJson, all_tagged, all_arr, allItems, allItems, iha, ihb]
      rfl
  | named q => rw [Kind.toJson, all_tagged, q.all_toJson]

section

variable (sorted : Bool)

theorem Qualified.ofJson?_toJson (q : Qualified) :
    Qualified.ofJson? (arrange sorted q.toJson) = some q := by
  obtain ⟨module, name⟩ := q
  have hrecord : (arrange sorted (Qualified.toJson ⟨module, name⟩)).record? ["module", "name"] =
      some [some (arrange sorted (.ofOption .str module)), some (arrange sorted (.str name))] :=
    record?_arrange sorted (by simp) _
  have hmodule : optional? toString? (some (arrange sorted (.ofOption .str module))) =
      some module :=
    optional?_ofOption sorted rfl (fun m => by rw [arrange_str]; rfl) module
  rw [Qualified.ofJson?, hrecord]
  show (optional? toString? (some (arrange sorted (.ofOption .str module))) >>= fun m =>
    (arrange sorted (.str name)).toString? >>= fun n => some (⟨m, n⟩ : Qualified)) = _
  rw [hmodule, arrange_str]
  rfl

theorem Position.ofJson?_toJson (p : Position) :
    Position.ofJson? (arrange sorted p.toJson) = some p := by
  have hrecord : (arrange sorted p.toJson).record? ["line", "column"] =
      some [some (arrange sorted (.ofUInt32 p.line)), some (arrange sorted (.ofUInt32 p.column))] :=
    record?_arrange sorted (by simp) _
  rw [Position.ofJson?, hrecord]
  simp only [arrange_ofUInt32, Option.bind_eq_bind, Option.bind_some, toUInt32?_ofUInt32]
  rfl

theorem Span.ofJson?_toJson (s : Span) : Span.ofJson? (arrange sorted s.toJson) = some s := by
  have hrecord : (arrange sorted s.toJson).record? ["name", "start", "end"] =
      some [some (arrange sorted (.str s.name)), some (arrange sorted s.start.toJson),
        some (arrange sorted s.stop.toJson)] :=
    record?_arrange sorted (by simp) _
  rw [Span.ofJson?, hrecord]
  simp only [arrange_str, Option.bind_eq_bind, Option.bind_some, Position.ofJson?_toJson]
  rfl

/-! ## Kinds -/

theorem Kind.Tag.ofRef?_name (t : Kind.Tag) : Kind.Tag.ofRef? (.name t.name) = some t :=
  Kind.Tag.ofName?_name t

theorem Kind.ofJson?_toJson : ∀ (k : Kind) {levels : Nat} (held : Bool),
    k.toJson.depth < levels → Kind.ofJson? levels held (arrange sorted k.toJson) = some k
  | .unknown id, levels + 1, held, _ => by
      obtain ⟨held', htag⟩ := exists_tagged? sorted held (Kind.all_toJson (.unknown id))
      rw [Kind.toJson, Kind.ofJson?, htag, arrange_ofUInt32]
      simp [Tag.ofRef?_name, toUInt32?_ofUInt32]
  | .star, levels + 1, held, _ => by
      rw [Kind.toJson, Kind.ofJson?, tagged?_bare]
      rfl
  | .bang, levels + 1, held, _ => by
      rw [Kind.toJson, Kind.ofJson?, tagged?_bare]
      rfl
  | .row k, levels + 1, held, h => by
      rw [Kind.toJson, depth_tagged] at h
      obtain ⟨held', htag⟩ := exists_tagged? sorted held (Kind.all_toJson (.row k))
      have hk := Kind.ofJson?_toJson k held' (Nat.lt_of_succ_lt_succ h)
      rw [Kind.toJson, Kind.ofJson?, htag]
      simp [Tag.ofRef?_name, hk]
  | .function a b, levels + 1, held, h => by
      simp only [Kind.toJson, depth_tagged, Json.depth, depthItems] at h
      obtain ⟨held', htag⟩ := exists_tagged? sorted held (Kind.all_toJson (.function a b))
      have ha := Kind.ofJson?_toJson a held' (show a.toJson.depth < levels by omega)
      have hb := Kind.ofJson?_toJson b held' (show b.toJson.depth < levels by omega)
      rw [Kind.toJson, Kind.ofJson?, htag, arrange_arr]
      simp [Tag.ofRef?_name, ha, hb]
  | .named q, levels + 1, held, _ => by
      obtain ⟨held', htag⟩ := exists_tagged? sorted held (Kind.all_toJson (.named q))
      rw [Kind.toJson, Kind.ofJson?, htag]
      simp [Tag.ofRef?_name, q.ofJson?_toJson]

end

/-! ## Types -/

namespace Ty

theorem all_strings (vs : List Name) : allItems ordinary (vs.map Json.str) := by
  induction vs with
  | nil => rfl
  | cons v vs ih =>
      rw [List.map_cons, allItems, ih]
      rfl

mutual

theorem all_toJson : ∀ t : Ty, t.toJson.all ordinary
  | .unknown id => by rw [toJson, all_tagged, all_ofUInt32]
  | .var v => by rw [toJson, all_tagged]; rfl
  | .wildcard => all_bare _
  | .constructor q => by rw [toJson, all_tagged, q.all_toJson]
  | .app f a => by
      rw [toJson, all_tagged, all_arr, allItems, allItems, all_toJson f, all_toJson a]
      rfl
  | .forAll v body scope => by
      rw [toJson, all_tagged, all_arr, allItems, allItems, allItems, all_toJson body,
        all_ofOption all_ofUInt32]
      rfl
  | .constrained cs body => by
      rw [toJson, all_tagged, all_arr, allItems, allItems, all_arr, all_constraintsToJson cs,
        all_toJson body]
      rfl
  | .skolem v id scope span => by
      rw [toJson, all_tagged, all_arr, allItems, allItems, allItems, allItems, all_ofUInt32,
        all_ofUInt32, all_ofOption Span.all_toJson]
      rfl
  | .rowEmpty => all_bare _
  | .rowCons l head tail => by
      rw [toJson, all_tagged, all_arr, allItems, allItems, allItems, all_toJson head,
        all_toJson tail]
      rfl
  | .kinded type k => by
      rw [toJson, all_tagged, all_arr, allItems, allItems, all_toJson type, k.all_toJson]
      rfl
  | .prettyFunction a r => by
      rw [toJson, all_tagged, all_arr, allItems, allItems, all_toJson a, all_toJson r]
      rfl
  | .prettyObject row => by rw [toJson, all_tagged, all_toJson row]
  | .prettyForAll vs body => by
      rw [toJson, all_tagged, all_arr, allItems, allItems, all_arr, all_strings, all_toJson body]
      rfl

theorem all_constraintsToJson : ∀ cs : List (Constraint Ty),
    allItems ordinary (constraintsToJson cs)
  | [] => rfl
  | ⟨q, args⟩ :: cs => by
      rw [constraintsToJson, allItems, all_obj (by simp), allFields, allFields, q.all_toJson,
        all_arr, all_argsToJson args, all_constraintsToJson cs]
      rfl

theorem all_argsToJson : ∀ ts : List Ty, allItems ordinary (argsToJson ts)
  | [] => rfl
  | t :: ts => by
      rw [argsToJson, allItems, all_toJson t, all_argsToJson ts]
      rfl

end

section

variable (sorted : Bool)

theorem Tag.ofRef?_name (t : Tag) : Tag.ofRef? (.name t.name) = some t := Tag.ofName?_name t

theorem optional?_uint32 (n : Option UInt32) :
    optional? toUInt32? (some (arrange sorted (.ofOption .ofUInt32 n))) = some n :=
  optional?_ofOption sorted rfl
    (fun n => by rw [arrange_ofUInt32, toUInt32?_ofUInt32]) n

theorem optional?_span (s : Option Span) :
    optional? Span.ofJson? (some (arrange sorted (.ofOption Span.toJson s))) = some s :=
  optional?_ofOption sorted rfl (Span.ofJson?_toJson sorted) s

theorem mapM_toString? (vs : List Name) :
    ((vs.map Json.str).map (arrange sorted)).mapM toString? = some vs := by
  induction vs with
  | nil => rfl
  | cons v vs ih =>
      rw [List.map_cons, List.map_cons, List.mapM_cons, ih, arrange_str]
      rfl

mutual

theorem ofJsonWithin?_toJson : ∀ (t : Ty) {levels : Nat} (held : Bool),
    t.toJson.depth < levels → ofJsonWithin? levels held (arrange sorted t.toJson) = some t
  | .unknown id, levels + 1, held, _ => by
      obtain ⟨held', htag⟩ := exists_tagged? sorted held (all_toJson (.unknown id))
      rw [toJson, ofJsonWithin?, htag, arrange_ofUInt32]
      simp [Tag.ofRef?_name, toUInt32?_ofUInt32]
  | .var v, levels + 1, held, _ => by
      obtain ⟨held', htag⟩ := exists_tagged? sorted held (all_toJson (.var v))
      rw [toJson, ofJsonWithin?, htag, arrange_str]
      simp [Tag.ofRef?_name, toString?]
  | .wildcard, levels + 1, held, _ => by
      rw [toJson, ofJsonWithin?, tagged?_bare]
      rfl
  | .constructor q, levels + 1, held, _ => by
      obtain ⟨held', htag⟩ := exists_tagged? sorted held (all_toJson (.constructor q))
      rw [toJson, ofJsonWithin?, htag]
      simp [Tag.ofRef?_name, q.ofJson?_toJson]
  | .app f a, levels + 1, held, h => by
      simp only [toJson, depth_tagged, Json.depth, depthItems] at h
      obtain ⟨held', htag⟩ := exists_tagged? sorted held (all_toJson (.app f a))
      have hf := ofJsonWithin?_toJson f held' (show f.toJson.depth < levels by omega)
      have ha := ofJsonWithin?_toJson a held' (show a.toJson.depth < levels by omega)
      rw [toJson, ofJsonWithin?, htag, arrange_arr]
      simp [Tag.ofRef?_name, hf, ha]
  | .forAll v body scope, levels + 1, held, h => by
      simp only [toJson, depth_tagged, Json.depth, depthItems] at h
      obtain ⟨held', htag⟩ := exists_tagged? sorted held (all_toJson (.forAll v body scope))
      have hbody := ofJsonWithin?_toJson body held' (show body.toJson.depth < levels by omega)
      rw [toJson, ofJsonWithin?, htag, arrange_arr]
      simp [Tag.ofRef?_name, arrange_str, toString?, hbody, optional?_uint32]
  | .constrained cs body, levels + 1, held, h => by
      simp only [toJson, depth_tagged, Json.depth, depthItems] at h
      obtain ⟨held', htag⟩ := exists_tagged? sorted held (all_toJson (.constrained cs body))
      have hcs := mapM_constraints cs held'
        (show depthItems (constraintsToJson cs) < levels by omega)
      have hbody := ofJsonWithin?_toJson body held' (show body.toJson.depth < levels by omega)
      rw [toJson, ofJsonWithin?, htag, arrange_arr]
      simp [Tag.ofRef?_name, arrange_arr, hcs, hbody]
  | .skolem v id scope span, levels + 1, held, _ => by
      obtain ⟨held', htag⟩ := exists_tagged? sorted held (all_toJson (.skolem v id scope span))
      rw [toJson, ofJsonWithin?, htag, arrange_arr]
      simp [Tag.ofRef?_name, arrange_str, toString?, arrange_ofUInt32, toUInt32?_ofUInt32,
        optional?_span]
  | .rowEmpty, levels + 1, held, _ => by
      rw [toJson, ofJsonWithin?, tagged?_bare]
      rfl
  | .rowCons l head tail, levels + 1, held, h => by
      simp only [toJson, depth_tagged, Json.depth, depthItems] at h
      obtain ⟨held', htag⟩ := exists_tagged? sorted held (all_toJson (.rowCons l head tail))
      have hhead := ofJsonWithin?_toJson head held' (show head.toJson.depth < levels by omega)
      have htail := ofJsonWithin?_toJson tail held' (show tail.toJson.depth < levels by omega)
      rw [toJson, ofJsonWithin?, htag, arrange_arr]
      simp [Tag.ofRef?_name, arrange_str, toString?, hhead, htail]
  | .kinded type k, levels + 1, held, h => by
      simp only [toJson, depth_tagged, Json.depth, depthItems] at h
      obtain ⟨held', htag⟩ := exists_tagged? sorted held (all_toJson (.kinded type k))
      have htype := ofJsonWithin?_toJson type held' (show type.toJson.depth < levels by omega)
      have hk := k.ofJson?_toJson sorted held' (show k.toJson.depth < levels by omega)
      rw [toJson, ofJsonWithin?, htag, arrange_arr]
      simp [Tag.ofRef?_name, htype, hk]
  | .prettyFunction a r, levels + 1, held, h => by
      simp only [toJson, depth_tagged, Json.depth, depthItems] at h
      obtain ⟨held', htag⟩ := exists_tagged? sorted held (all_toJson (.prettyFunction a r))
      have ha := ofJsonWithin?_toJson a held' (show a.toJson.depth < levels by omega)
      have hr := ofJsonWithin?_toJson r held' (show r.toJson.depth < levels by omega)
      rw [toJson, ofJsonWithin?, htag, arrange_arr]
      simp [Tag.ofRef?_name, ha, hr]
  | .prettyObject row, levels + 1, held, h => by
      rw [toJson, depth_tagged] at h
      obtain ⟨held', htag⟩ := exists_tagged? sorted held (all_toJson (.prettyObject row))
      have hrow := ofJsonWithin?_toJson row held' (Nat.lt_of_succ_lt_succ h)
      rw [toJson, ofJsonWithin?, htag]
      simp [Tag.ofRef?_name, hrow]
  | .prettyForAll vs body, levels + 1, held, h => by
      simp only [toJson, depth_tagged, Json.depth, depthItems] at h
      obtain ⟨held', htag⟩ := exists_tagged? sorted held (all_toJson (.prettyForAll vs body))
      -- the names are mapped twice, and `simp` may not make one map of it
      have hvs := mapM_toString? sorted vs
      have hbody := ofJsonWithin?_toJson body held' (show body.toJson.depth < levels by omega)
      rw [toJson, ofJsonWithin?, htag, arrange_arr]
      simp [Tag.ofRef?_name, arrange_arr, -List.map_map, -List.mapM_map, hvs, hbody]

theorem mapM_constraints : ∀ (cs : List (Constraint Ty)) {levels : Nat} (held : Bool),
    depthItems (constraintsToJson cs) < levels →
      ((constraintsToJson cs).map (arrange sorted)).mapM
        (constraintOfJson? (ofJsonWithin? levels held)) = some cs
  | [], _, _, _ => rfl
  | ⟨q, args⟩ :: cs, levels, held, h => by
      simp only [constraintsToJson, depthItems, Json.depth, depthFields] at h
      have hrecord : (arrange sorted
          (.obj [("class", q.toJson), ("args", .arr (argsToJson args))])).record?
            ["class", "args"] =
          some [some (arrange sorted q.toJson),
            some (arrange sorted (.arr (argsToJson args)))] :=
        record?_arrange sorted (by simp) _
      have hargs := mapM_args args held (show depthItems (argsToJson args) < levels by omega)
      have hcs := mapM_constraints cs held
        (show depthItems (constraintsToJson cs) < levels by omega)
      have hfirst : constraintOfJson? (ofJsonWithin? levels held) (arrange sorted
          (.obj [("class", q.toJson), ("args", .arr (argsToJson args))])) = some ⟨q, args⟩ := by
        rw [constraintOfJson?, hrecord, arrange_arr]
        simp [q.ofJson?_toJson, hargs]
      rw [constraintsToJson, List.map_cons, List.mapM_cons, hfirst, hcs]
      rfl

theorem mapM_args : ∀ (ts : List Ty) {levels : Nat} (held : Bool),
    depthItems (argsToJson ts) < levels →
      ((argsToJson ts).map (arrange sorted)).mapM (ofJsonWithin? levels held) = some ts
  | [], _, _, _ => rfl
  | t :: ts, levels, held, h => by
      simp only [argsToJson, depthItems] at h
      have ht := ofJsonWithin?_toJson t held (show t.toJson.depth < levels by omega)
      have hts := mapM_args ts held (show depthItems (argsToJson ts) < levels by omega)
      rw [argsToJson, List.map_cons, List.mapM_cons, ht, hts]
      rfl

end

/-- A type is read back from what is written for it. -/
theorem ofJson?_toJson (t : Ty) : ofJson? (arrange sorted t.toJson) = some t := by
  rw [ofJson?, depth_arrange sorted t.all_toJson]
  exact ofJsonWithin?_toJson sorted t false (Nat.lt_succ_self _)

end

end Ty

end RowTypes
