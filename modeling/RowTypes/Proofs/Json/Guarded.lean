import RowTypes.Proofs.Json.Bytes
import RowTypes.Proofs.Json.Turns

/-!
# The guard and the reader

At each place that the reader comes to the scan for brackets has counted
what is open there, and at each bracket that the reader opens it counts
one more (`Guarded.turn`). So in a text that passes the guard, JSON or
not, no more arrays and objects are ever open than the limit
(`level_le_of_textExceeds`), and what is read from it is no deeper than
that (`depth_le_of_parse`).
-/

namespace RowTypes

namespace Json

/-! ## The scan at each place -/

/-- The scan has come to a place with as many brackets open as the reader
has, and does not exceed the limit from there on. -/
def Guarded (limit : Nat) (p : Place) : Prop :=
  p.stack.length ≤ limit ∧ scanExceeds limit .outside p.stack.length p.text = false

/-- The scan goes past an opening bracket only if one more is allowed. -/
theorem lt_of_scan_opening {c : Char} (hc : c = '[' ∨ c = '\x7b') {limit depth : Nat}
    {cs : List Char} (h : scanExceeds limit .outside depth (c :: cs) = false) :
    depth < limit ∧ scanExceeds limit .outside (depth + 1) cs = false := by
  have hquote : c ≠ '"' := by
    rintro rfl
    exact absurd hc (by decide)
  rw [scanExceeds, if_neg hquote, if_pos hc] at h
  split at h
  · cases h
  · next hlimit => exact ⟨by omega, h⟩

/-- Where the reader opens an array or object, the scan has allowed it. -/
theorem Guarded.level_le {limit : Nat} {p : Place} (h : Guarded limit p) : p.level ≤ limit := by
  obtain ⟨hstack, hscan⟩ := h
  cases hopens : p.opens with
  | false =>
      rw [Place.level, hopens]
      exact hstack
  | true =>
      obtain ⟨-, c, ds, hcs, hc⟩ := Place.exists_of_opens hopens
      rw [← scan_skipBlanks, hcs] at hscan
      rw [Place.level, hopens]
      exact (lt_of_scan_opening hc hscan).1

/-- With a turn of the reader the scan comes to the place that the turn
leads to. -/
theorem Guarded.turn {limit : Nat} {p q : Place} (h : Guarded limit p) (hturn : turn p = .goOn q) :
    Guarded limit q := by
  refine ⟨Nat.le_trans (length_stack_turn hturn) h.level_le, ?_⟩
  have hscan := h.2
  -- the reader looks behind blanks, and so may the scan
  rw [← scan_skipBlanks] at hscan
  revert hturn
  fun_cases Json.turn p with
  | case1 stack cs ds hcs es hds | case3 stack cs ds hcs es hds =>
      rintro ⟨⟩
      rw [hcs] at hscan
      have hinside := (lt_of_scan_opening (by simp) hscan).2
      rwa [← scan_skipBlanks, hds, scan_close (by simp)] at hinside
  | case2 stack cs ds hcs hds =>
      rintro ⟨⟩
      rw [hcs] at hscan
      have hinside := (lt_of_scan_opening (by simp) hscan).2
      rwa [← scan_skipBlanks] at hinside
  | case4 stack cs ds hcs key es hds hkey =>
      rintro ⟨⟩
      rw [hcs] at hscan
      have hinside := (lt_of_scan_opening (by simp) hscan).2
      rwa [← scan_skipBlanks, scan_readKey hkey] at hinside
  | case6 stack cs j ds hsquare hcurly hread =>
      rintro ⟨⟩
      rwa [scan_readScalar hread] at hscan
  | case9 j cs items stack ds hcs =>
      rintro ⟨⟩
      rwa [hcs, scan_mark (by simp)] at hscan
  | case11 j cs fields key stack ds hcs key' es hkey =>
      rintro ⟨⟩
      rwa [hcs, scan_mark (by simp), ← scan_skipBlanks, scan_readKey hkey] at hscan
  | case10 j cs items stack ds hcs | case13 j cs fields key stack ds hcs =>
      rintro ⟨⟩
      rwa [hcs, List.length_cons, scan_close (by simp)] at hscan
  | case5 | case7 | case8 | case12 | case14 => rintro ⟨⟩

theorem guarded_of_visits {limit : Nat} {cs : List Char} (h : textExceeds limit cs = false)
    {p : Place} (hp : Visits cs p) : Guarded limit p := by
  induction hp with
  | refl => exact ⟨Nat.zero_le limit, h⟩
  | tail _ hturn ih => exact ih.turn hturn

theorem level_le_of_textExceeds {limit : Nat} {cs : List Char}
    (h : textExceeds limit cs = false) : ∀ p, Visits cs p → p.level ≤ limit :=
  fun _ hp => (guarded_of_visits h hp).level_le

/-- The guard may go over the bytes of a text or over its characters. In
a text that passes it, JSON or not, at no place and in no turn more
arrays and objects are open than the limit. So a reader that allows no
more of them comes to the same end, be it a value or the first error, as
one that allows any number. -/
theorem reader_within_guard (limit : Nat) (s : String) :
    bytesExceed limit s.toUTF8.data.toList = textExceeds limit s.toList ∧
      (textExceeds limit s.toList = false →
        (∀ p, Visits s.toList p → p.level ≤ limit) ∧
          Reads s.toList (parseWithin limit s.toList) ∧
          parseWithin limit s.toList = parse s.toList) := by
  refine ⟨bytesExceed_utf8 limit s, fun h => ?_⟩
  have hlevel := level_le_of_textExceeds h
  have hsame : parseWithin limit s.toList = parse s.toList := parseWithin_eq_parse_iff.mpr hlevel
  refine ⟨hlevel, ?_, hsame⟩
  rw [hsame]
  exact reads_parse s.toList

/-- Brackets and an escaped quote in a string, a character of two bytes,
and a closing bracket in place of a key. -/
def strayText : String := "[\"é[[\\\"]\", \x7b ]"

theorem reader_within_guard_strayText :
    textExceeds 2 strayText.toList = false ∧
      bytesExceed 2 strayText.toUTF8.data.toList = false ∧
      (∀ p, Visits strayText.toList p → p.level ≤ 2) ∧
      Reads strayText.toList (.error .malformed) ∧
      parseWithin 1 strayText.toList = .error .tooDeep := by
  have hpass : textExceeds 2 strayText.toList = false := by decide
  obtain ⟨hbytes, hwithin⟩ := reader_within_guard 2 strayText
  obtain ⟨hlevel, hreads, -⟩ := hwithin hpass
  have hend : parseWithin 2 strayText.toList = .error .malformed := by rfl
  rw [hend] at hreads
  exact ⟨hpass, hbytes.trans hpass, hlevel, hreads, by rfl⟩

/-! ## The depth of what is read -/

/-- The values that an array or object has so far. -/
def Frame.values : Frame → List Json
  | .array items => items
  | .object fields _ => fields.map Prod.snd

/-- With `room` for more inside all of a stack, what each array or object
of it has so far leaves room for itself and for those around it. -/
def Fits : (room : Nat) → List Frame → Prop
  | _, [] => True
  | room, f :: stack => (∀ j ∈ f.values, j.depth ≤ room) ∧ Fits (room + 1) stack

theorem depth_array_le {items : List Json} {room : Nat} (h : ∀ j ∈ items, j.depth ≤ room) :
    (arr items).depth ≤ room + 1 := by
  rw [depth, Nat.add_le_add_iff_right]
  exact depthItems_le_iff.mpr h

theorem depth_ofFields_le {fields : List (Option String × Json)} {room : Nat}
    (h : ∀ f ∈ fields, f.2.depth ≤ room) : (ofFields fields).depth ≤ room + 1 := by
  rw [ofFields]
  split
  · next fs hfs =>
    rw [depth, Nat.add_le_add_iff_right, depthFields_eq, depthItems_le_iff, List.forall_mem_map]
    intro f hf
    obtain ⟨⟨key, j⟩, hmem, hkey⟩ := exists_of_mem_mapM hfs hf
    obtain ⟨k, -, rfl⟩ := Option.map_eq_some_iff.mp hkey
    exact h _ hmem
  · exact Nat.zero_le _

theorem depth_readScalar {cs rest : List Char} {j : Json} (h : readScalar cs = some (j, rest)) :
    j.depth = 0 := by
  rw [readScalar.eq_def] at h
  split at h
  · cases h
    rfl
  · cases h
    rfl
  · cases h
    rfl
  · split at h
    · next s _ _ =>
      cases h
      cases s <;> rfl
    · cases h
  · split at h
    · next n _ _ =>
      cases h
      rw [ofNumber]
      split <;> rfl
    · cases h

/-- What the reader gives in the end is as deep at most as there was room
in all, if that held of what it had so far. -/
theorem depth_le_of_parseFrom {turns room : Nat} {stack : List Frame} {mode : Mode}
    {cs : List Char} {j : Json} (h : parseFrom turns room stack mode cs = .ok j)
    (hstack : Fits room stack) (hmode : ∀ i, mode = .after i → i.depth ≤ room) :
    j.depth ≤ room + stack.length := by
  fun_induction parseFrom turns room stack mode cs with
  | case1 | case2 | case5 | case8 | case10 | case15 | case17 => cases h
  | case3 _ _ _ _ _ _ _ _ ih | case6 _ _ _ _ _ _ _ _ ih =>
      refine ih h hstack ?_
      rintro _ ⟨⟩
      exact Nat.succ_le_succ (Nat.zero_le _)
  | case4 _ stack _ _ _ room _ ih =>
      have hdepth := ih h ⟨by simp [Frame.values], hstack⟩ (by rintro _ ⟨⟩)
      rw [List.length_cons] at hdepth
      omega
  | case7 _ stack _ _ _ room _ _ _ _ ih =>
      have hdepth := ih h ⟨by simp [Frame.values], hstack⟩ (by rintro _ ⟨⟩)
      rw [List.length_cons] at hdepth
      omega
  | case9 _ _ _ _ i _ _ _ hread ih =>
      refine ih h hstack ?_
      rintro _ ⟨⟩
      rw [depth_readScalar hread]
      exact Nat.zero_le _
  | case11 _ room i =>
      cases h
      exact hmode _ rfl
  | case12 _ _ i _ items _ _ _ ih =>
      refine ih h ⟨?_, hstack.2⟩ (by rintro _ ⟨⟩)
      exact List.forall_mem_cons.mpr ⟨hmode i rfl, hstack.1⟩
  | case13 _ room i _ items stack _ _ ih =>
      have hitems : ∀ j ∈ i :: items, j.depth ≤ room :=
        List.forall_mem_cons.mpr ⟨hmode i rfl, hstack.1⟩
      have hclosed : (arr (i :: items).reverse).depth ≤ room + 1 :=
        depth_array_le fun j hj => hitems j (List.mem_reverse.mp hj)
      have hdepth := ih h hstack.2 (by rintro _ ⟨⟩; exact hclosed)
      rw [List.length_cons]
      omega
  | case14 _ _ i _ fields key _ _ _ _ _ _ ih =>
      refine ih h ⟨?_, hstack.2⟩ (by rintro _ ⟨⟩)
      exact List.forall_mem_cons.mpr ⟨hmode i rfl, hstack.1⟩
  | case16 _ room i _ fields key stack _ _ ih =>
      have hfields : ∀ f ∈ (key, i) :: fields, f.2.depth ≤ room :=
        List.forall_mem_cons.mpr ⟨hmode i rfl, List.forall_mem_map.mp hstack.1⟩
      have hclosed : (ofFields ((key, i) :: fields).reverse).depth ≤ room + 1 :=
        depth_ofFields_le fun f hf => hfields f (List.mem_reverse.mp hf)
      have hdepth := ih h hstack.2 (by rintro _ ⟨⟩; exact hclosed)
      rw [List.length_cons]
      omega

theorem depth_le_of_parseWithin {room : Nat} {cs : List Char} {j : Json}
    (h : parseWithin room cs = .ok j) : j.depth ≤ room :=
  depth_le_of_parseFrom h trivial (by rintro _ ⟨⟩)

/-- What is read from a text that passes the guard is no deeper than the
limit. -/
theorem depth_le_of_parse {limit : Nat} {cs : List Char} {j : Json}
    (hguard : textExceeds limit cs = false) (h : parse cs = .ok j) : j.depth ≤ limit := by
  have hlimit : parseWithin limit cs = parse cs :=
    parseWithin_eq_parse_iff.mpr (level_le_of_textExceeds hguard)
  exact depth_le_of_parseWithin (hlimit.trans h)

end Json

end RowTypes
