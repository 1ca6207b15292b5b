import Mathlib.Logic.Relation
import RowTypes.Proofs.Json.Scan

/-!
# The reader turn by turn

What the reader does without any limit: `turn` is one turn of a reader
that has room for any number of arrays and objects, and the places that
it comes to from the front of a text are those that the text `Visits`.
Every turn takes a character (`length_turn`), so there is a last place,
and the text `Reads` as what the reader says there.

The reader with room for some number of arrays and objects makes the same
turns (`readOn_of_le`) until one of them would open too many
(`readOn_of_lt`). So it ends like the one without limit if it has room
for the level of every place that is visited, and with `tooDeep` if not
(`readOn_cases`).
-/

namespace RowTypes

namespace Json

/-! ## Places -/

/-- A place that the reader comes to. -/
structure Place where
  /-- The arrays and objects that are open, the innermost first. -/
  stack : List Frame
  mode : Mode
  /-- The text from there on. -/
  text : List Char

/-- What comes of a turn. -/
inductive Turn where
  | stop (result : Except ParseError Json)
  | goOn (next : Place)

/-- A turn of a reader that has room for any number of arrays and
objects. -/
def turn : Place → Turn
  | ⟨stack, .value, cs⟩ =>
    match skipBlanks cs with
    | '[' :: cs =>
      match skipBlanks cs with
      | ']' :: cs => .goOn ⟨stack, .after (.arr []), cs⟩
      | cs => .goOn ⟨.array [] :: stack, .value, cs⟩
    | '\x7b' :: cs =>
      match skipBlanks cs with
      | '\x7d' :: cs => .goOn ⟨stack, .after (.obj []), cs⟩
      | cs =>
        match readKey cs with
        | some (key, cs) => .goOn ⟨.object [] key :: stack, .value, cs⟩
        | none => .stop (.error .malformed)
    | cs =>
      match readScalar cs with
      | some (j, cs) => .goOn ⟨stack, .after j, cs⟩
      | none => .stop (.error .malformed)
  | ⟨stack, .after j, cs⟩ =>
    match stack, skipBlanks cs with
    | [], [] => .stop (.ok j)
    | .array items :: stack, ',' :: cs => .goOn ⟨.array (j :: items) :: stack, .value, cs⟩
    | .array items :: stack, ']' :: cs => .goOn ⟨stack, .after (.arr (j :: items).reverse), cs⟩
    | .object fields key :: stack, ',' :: cs =>
      match readKey (skipBlanks cs) with
      | some (key', cs) => .goOn ⟨.object ((key, j) :: fields) key' :: stack, .value, cs⟩
      | none => .stop (.error .malformed)
    | .object fields key :: stack, '\x7d' :: cs =>
      .goOn ⟨stack, .after (ofFields ((key, j) :: fields).reverse), cs⟩
    | _, _ => .stop (.error .malformed)

namespace Place

/-- Whether a turn at a place starts with opening an array or object. -/
def opens : Place → Bool
  | ⟨_, .value, cs⟩ => (skipBlanks cs).head?.any fun c => c = '[' || c = '\x7b'
  | ⟨_, .after _, _⟩ => false

/-- How many arrays and objects are open at a place and during the turn
there, at most. -/
def level (p : Place) : Nat := p.stack.length + p.opens.toNat

theorem level_of_opening {stack : List Frame} {c : Char} {cs ds : List Char}
    (hcs : skipBlanks cs = c :: ds) (hc : c = '[' ∨ c = '\x7b') :
    level ⟨stack, .value, cs⟩ = stack.length + 1 := by
  simp [level, opens, hcs, hc]

theorem exists_of_opens {p : Place} (h : p.opens) :
    p.mode = .value ∧ ∃ c ds, skipBlanks p.text = c :: ds ∧ (c = '[' ∨ c = '\x7b') := by
  obtain ⟨stack, mode, cs⟩ := p
  cases mode with
  | after j => cases h
  | value =>
      rw [opens] at h
      cases hcs : skipBlanks cs with
      | nil =>
          rw [hcs] at h
          cases h
      | cons c ds =>
          rw [hcs] at h
          exact ⟨rfl, c, ds, rfl, by simpa using h⟩

theorem level_after (stack : List Frame) (j : Json) (cs : List Char) :
    level ⟨stack, .after j, cs⟩ = stack.length := rfl

end Place

/-- No turn leaves more open than the level it was made at. -/
theorem length_stack_turn {p q : Place} (h : turn p = .goOn q) : q.stack.length ≤ p.level := by
  revert h
  fun_cases turn p with
  | case1 | case3 | case6 =>
      rintro ⟨⟩
      exact Nat.le_add_right _ _
  | case2 _ _ _ hcs | case4 _ _ _ hcs =>
      rintro ⟨⟩
      rw [Place.level_of_opening hcs (by simp)]
      exact Nat.le_refl _
  | case9 | case10 | case11 | case13 =>
      rintro ⟨⟩
      simp [Place.level_after]
  | case5 | case7 | case8 | case12 | case14 => rintro ⟨⟩

/-! ## What a turn takes -/

theorem length_skipBlanks (cs : List Char) : (skipBlanks cs).length ≤ cs.length := by
  induction cs with
  | nil => exact Nat.le_refl _
  | cons c cs ih =>
      rw [skipBlanks]
      split
      · exact Nat.le_succ_of_le ih
      · exact Nat.le_refl _

theorem length_of_skipBlanks {c : Char} {cs ds : List Char} (h : skipBlanks cs = c :: ds) :
    ds.length < cs.length := by
  have hlength := length_skipBlanks cs
  rw [h] at hlength
  exact hlength

theorem length_readUnits {cs rest : List Char} {us : List StringUnit}
    (h : readUnits cs = some (us, rest)) : rest.length < cs.length := by
  fun_induction readUnits cs generalizing us with
  | case1 rest' =>
      cases h
      exact Nat.lt_succ_self _
  | case2 _ _ _ _ _ _ _ ih | case4 _ _ _ _ _ ih | case7 _ _ _ _ _ _ ih =>
      obtain ⟨us', hread⟩ := addUnit_eq_some h
      have hlength := ih hread
      simp only [List.length_cons]
      omega
  | case3 | case5 | case6 | case8 => cases h

theorem length_readString {cs rest : List Char} {s : Option String}
    (h : readString cs = some (s, rest)) : rest.length < cs.length := by
  rw [readString] at h
  split at h
  · next hread =>
    cases h
    exact length_readUnits hread
  · cases h

theorem length_readKey {cs rest : List Char} {key : Option String}
    (h : readKey cs = some (key, rest)) : rest.length < cs.length := by
  rw [readKey.eq_def] at h
  split at h
  · split at h
    · next hread =>
      split at h
      · next hcolon =>
        cases h
        exact Nat.lt_succ_of_lt (Nat.lt_trans (length_of_skipBlanks hcolon) (length_readString hread))
      · cases h
    · cases h
  · cases h

theorem length_spanDigits (cs : List Char) :
    (spanDigits cs).1.length + (spanDigits cs).2.length = cs.length := by
  induction cs with
  | nil => rfl
  | cons c cs ih =>
      rw [spanDigits]
      split
      · simp only [List.length_cons]
        omega
      · simp

theorem Skips.length_le {cs rest : List Char} (h : Skips cs rest) : rest.length ≤ cs.length := by
  obtain ⟨ds, -, rfl⟩ := h
  simp

namespace Number

theorem length_readWhole {cs rest : List Char} {n : Nat} (h : readWhole cs = some (n, rest)) :
    rest.length < cs.length := by
  rw [readWhole.eq_def] at h
  split at h
  · cases h
    exact Nat.lt_succ_self _
  · have hspan := length_spanDigits cs
    split at h
    · cases h
    · next ds rest hne hcs =>
      cases h
      rw [hcs] at hspan
      have hdigits : 0 < ds.length := List.length_pos_iff.mpr hne
      simp only at hspan
      omega

theorem length_read {cs rest : List Char} {n : Number} (h : Number.read cs = some (n, rest)) :
    rest.length < cs.length := by
  simp only [Number.read, Option.bind_eq_bind, Option.bind_eq_some_iff] at h
  obtain ⟨⟨whole, cs₁⟩, hwhole, ⟨fraction, cs₂⟩, hfraction, ⟨e, cs₃⟩, hexponent, heq⟩ := h
  cases heq
  calc cs₃.length
    _ ≤ cs₂.length := (skips_readExponent hexponent).length_le
    _ ≤ cs₁.length := (skips_readFraction hfraction).length_le
    _ < (readSign cs).2.length := length_readWhole hwhole
    _ ≤ cs.length := (skips_readSign cs).length_le

end Number

theorem length_readScalar {cs rest : List Char} {j : Json} (h : readScalar cs = some (j, rest)) :
    rest.length < cs.length := by
  rw [readScalar.eq_def] at h
  split at h
  · cases h
    simp only [List.length_cons]
    omega
  · cases h
    simp only [List.length_cons]
    omega
  · cases h
    simp only [List.length_cons]
    omega
  · split at h
    · next hread =>
      cases h
      exact Nat.lt_succ_of_lt (length_readString hread)
    · cases h
  · split at h
    · next hread =>
      cases h
      exact Number.length_read hread
    · cases h

/-- Every turn takes a character at least. -/
theorem length_turn {p q : Place} (h : turn p = .goOn q) : q.text.length < p.text.length := by
  revert h
  fun_cases turn p with
  | case1 _ _ _ hcs _ hds | case3 _ _ _ hcs _ hds =>
      rintro ⟨⟩
      exact Nat.lt_trans (length_of_skipBlanks hds) (length_of_skipBlanks hcs)
  | case2 _ _ _ hcs =>
      rintro ⟨⟩
      exact Nat.lt_of_le_of_lt (length_skipBlanks _) (length_of_skipBlanks hcs)
  | case4 _ _ _ hcs _ _ _ hkey | case11 _ _ _ _ _ _ hcs _ _ hkey =>
      rintro ⟨⟩
      exact Nat.lt_trans (Nat.lt_of_lt_of_le (length_readKey hkey) (length_skipBlanks _))
        (length_of_skipBlanks hcs)
  | case6 _ _ _ _ _ _ hread =>
      rintro ⟨⟩
      exact Nat.lt_of_lt_of_le (length_readScalar hread) (length_skipBlanks _)
  | case9 _ _ _ _ _ hcs | case10 _ _ _ _ _ hcs | case13 _ _ _ _ _ _ hcs =>
      rintro ⟨⟩
      exact length_of_skipBlanks hcs
  | case5 | case7 | case8 | case12 | case14 => rintro ⟨⟩

/-! ## The reader with room -/

/-- The reader at a place, with room for `capacity` arrays and objects
in all. -/
def readOn (turns capacity : Nat) (p : Place) : Except ParseError Json :=
  parseFrom turns (capacity - p.stack.length) p.stack p.mode p.text

section

variable {turns capacity : Nat} {p : Place}

/-- Where there is no room for what a turn opens, the reader stops. -/
theorem readOn_of_lt (h : p.stack.length ≤ capacity) (hlevel : capacity < p.level) :
    readOn (turns + 1) capacity p = .error .tooDeep := by
  cases hopens : p.opens with
  | false =>
      rw [Place.level, hopens] at hlevel
      exact absurd hlevel (Nat.not_lt_of_le h)
  | true =>
      rw [Place.level, hopens] at hlevel
      have hroom : capacity - p.stack.length = 0 := Nat.sub_eq_zero_of_le (Nat.le_of_lt_succ hlevel)
      obtain ⟨hmode, c, ds, hcs, rfl | rfl⟩ := Place.exists_of_opens hopens
      · simp only [readOn, hmode, parseFrom, hcs, hroom]
      · simp only [readOn, hmode, parseFrom, hcs, hroom]

/-- Where there is room for what a turn opens, the reader makes that
turn. -/
theorem readOn_of_le (hlevel : p.level ≤ capacity) :
    readOn (turns + 1) capacity p =
      match turn p with
      | .stop r => r
      | .goOn q => readOn turns capacity q := by
  -- room for one more, in front of a bracket and behind it
  have hopening : ∀ {stack : List Frame} {c : Char} {cs ds : List Char},
      Place.level ⟨stack, .value, cs⟩ ≤ capacity → skipBlanks cs = c :: ds →
        c = '[' ∨ c = '{' →
          ∃ room, capacity - stack.length = room + 1 ∧ capacity - (stack.length + 1) = room := by
    intro stack c cs ds hlevel hcs hc
    rw [Place.level_of_opening hcs hc] at hlevel
    exact ⟨capacity - (stack.length + 1), by omega, rfl⟩
  fun_cases turn p with
  | case1 stack cs ds hcs es hds | case3 stack cs ds hcs es hds =>
      obtain ⟨room, hroom, -⟩ := hopening hlevel hcs (by simp)
      simp only [readOn, parseFrom, hcs, hds, hroom]
  | case2 stack cs ds hcs hds =>
      obtain ⟨room, hroom, hinside⟩ := hopening hlevel hcs (by simp)
      simp only [readOn, parseFrom, hcs, hroom, List.length_cons, hinside]
  | case4 stack cs ds hcs key es hds hkey =>
      obtain ⟨room, hroom, hinside⟩ := hopening hlevel hcs (by simp)
      simp only [readOn, parseFrom, hcs, hkey, hroom, List.length_cons, hinside]
  | case5 stack cs ds hcs hds hkey =>
      obtain ⟨room, hroom, -⟩ := hopening hlevel hcs (by simp)
      simp only [readOn, parseFrom, hcs, hkey, hroom]
  | case6 stack cs j ds hsquare hcurly hread => simp only [readOn, parseFrom, hread]
  | case7 stack cs hsquare hcurly hread => simp only [readOn, parseFrom, hread]
  | case8 j cs hend => simp only [readOn, parseFrom, hend]
  | case9 j cs items stack ds hcs => simp only [readOn, parseFrom, hcs, List.length_cons]
  | case11 j cs fields key stack ds hcs key' es hkey =>
      simp only [readOn, parseFrom, hcs, hkey, List.length_cons]
  | case12 j cs fields key stack ds hcs hkey => simp only [readOn, parseFrom, hcs, hkey]
  | case10 j cs items stack ds hcs | case13 j cs fields key stack ds hcs =>
      rw [Place.level_after, List.length_cons] at hlevel
      have hroom : capacity - (stack.length + 1) + 1 = capacity - stack.length := by omega
      simp only [readOn, parseFrom, hcs, List.length_cons, hroom]
  | case14 => simp only [readOn, parseFrom]

end

/-! ## Runs -/

/-- The places that turns lead to from a place, itself among them. -/
abbrev Leads : Place → Place → Prop := Relation.ReflTransGen fun p q => turn p = .goOn q

/-- The place at the front of a text. -/
def front (cs : List Char) : Place := ⟨[], .value, cs⟩

/-- The places that a reader without limit comes to in a text, also if it
stops at an error. -/
def Visits (cs : List Char) (p : Place) : Prop := Leads (front cs) p

/-- What a reader without limit says of a text in the end. -/
def Reads (cs : List Char) (r : Except ParseError Json) : Prop :=
  ∃ p, Visits cs p ∧ turn p = .stop r

/-- A run that has turns enough makes them all if there is room for the
level of every place, and says so if there is not. -/
theorem readOn_cases {turns capacity : Nat} {p : Place} (hturns : p.text.length < turns)
    (hroom : p.stack.length ≤ capacity) :
    (∃ q, Leads p q ∧ capacity < q.level ∧ readOn turns capacity p = .error .tooDeep) ∨
      (∀ q, Leads p q → q.level ≤ capacity) ∧
        ∃ q, Leads p q ∧ turn q = .stop (readOn turns capacity p) := by
  induction turns generalizing p with
  | zero => exact absurd hturns (Nat.not_lt_zero _)
  | succ turns ih =>
      rcases Nat.lt_or_ge capacity p.level with hlevel | hlevel
      · exact .inl ⟨p, .refl, hlevel, readOn_of_lt hroom hlevel⟩
      · rw [readOn_of_le hlevel]
        cases hturn : turn p with
        | stop r =>
            refine .inr ⟨fun q hq => ?_, p, .refl, hturn⟩
            rcases hq.cases_head with rfl | ⟨q', hq', -⟩
            · exact hlevel
            · rw [hturn] at hq'
              cases hq'
        | goOn p' =>
            have htext := length_turn hturn
            have hstack := length_stack_turn hturn
            rcases ih (p := p') (by omega) (by omega) with
              ⟨q, hq, hdeep, hread⟩ | ⟨hall, q, hq, hread⟩
            · exact .inl ⟨q, .head hturn hq, hdeep, hread⟩
            · refine .inr ⟨fun r hr => ?_, q, .head hturn hq, hread⟩
              rcases hr.cases_head with rfl | ⟨p'', hp'', hr⟩
              · exact hlevel
              · rw [hturn] at hp''
                cases hp''
                exact hall r hr

/-- No turn ends with the error that there is no room. -/
theorem turn_ne_tooDeep (p : Place) : turn p ≠ .stop (.error .tooDeep) := by
  fun_cases turn p <;> rintro ⟨⟩

theorem reads_ne_tooDeep {cs : List Char} {r : Except ParseError Json} (h : Reads cs r) :
    r ≠ .error .tooDeep := by
  rintro rfl
  obtain ⟨p, -, hstop⟩ := h
  exact turn_ne_tooDeep p hstop

/-- From one place two runs go on alike, so they stop alike. -/
theorem reads_unique {cs : List Char} {r r' : Except ParseError Json} (h : Reads cs r)
    (h' : Reads cs r') : r = r' := by
  obtain ⟨p, hp, hstop⟩ := h
  obtain ⟨p', hp', hstop'⟩ := h'
  have hnext : Relator.RightUnique fun p q => turn p = .goOn q := fun p q q' hq hq' =>
    Turn.goOn.inj (hq.symm.trans hq')
  rcases Relation.ReflTransGen.total_of_right_unique hnext hp hp' with hlater | hlater
  · rcases hlater.cases_head with rfl | ⟨q, hq, -⟩
    · exact Turn.stop.inj (hstop.symm.trans hstop')
    · exact absurd (hstop.symm.trans hq) (by simp)
  · rcases hlater.cases_head with rfl | ⟨q, hq, -⟩
    · exact Turn.stop.inj (hstop.symm.trans hstop')
    · exact absurd (hstop'.symm.trans hq) (by simp)

/-! ## Room that is enough -/

/-- A place is in front of a character for each bracket that is opened
there. -/
theorem level_le_length_add (p : Place) : p.level ≤ p.stack.length + p.text.length := by
  obtain ⟨stack, mode, cs⟩ := p
  cases mode with
  | after j => exact Nat.le_add_right _ _
  | value =>
      cases cs with
      | nil => exact Nat.le_refl _
      | cons c cs => exact Nat.add_le_add_left (Nat.le_trans (Bool.toNat_le _) (by simp)) _

/-- Characters behind the reader have paid for all that is open. -/
theorem length_stack_add_le {cs : List Char} {p : Place} (h : Visits cs p) :
    p.stack.length + p.text.length ≤ cs.length := by
  induction h with
  | refl => simp [front]
  | @tail p q _ hturn ih =>
      have htext := length_turn hturn
      have hstack := length_stack_turn hturn
      have hlevel : p.level ≤ p.stack.length + 1 := Nat.add_le_add_left (Bool.toNat_le _) _
      omega

theorem level_le_length {cs : List Char} {p : Place} (h : Visits cs p) : p.level ≤ cs.length :=
  Nat.le_trans (level_le_length_add p) (length_stack_add_le h)

/-- The reader of a whole text has room enough, and turns enough. -/
theorem reads_parse (cs : List Char) : Reads cs (parse cs) := by
  rcases readOn_cases (p := front cs) (Nat.lt_succ_self _) (Nat.zero_le cs.length) with
    ⟨p, hp, hdeep, -⟩ | ⟨-, hread⟩
  · exact absurd (level_le_length hp) (Nat.not_le_of_lt hdeep)
  · exact hread

/-- With a limit on what is open at once the reader says the same as
without exactly if there is room for every place that is visited. -/
theorem parseWithin_eq_parse_iff {room : Nat} {cs : List Char} :
    parseWithin room cs = parse cs ↔ ∀ p, Visits cs p → p.level ≤ room := by
  have hparse := reads_parse cs
  rcases readOn_cases (p := front cs) (Nat.lt_succ_self _) (Nat.zero_le room) with
    ⟨p, hp, hdeep, hread⟩ | ⟨hall, hread⟩
  · have hwithin : parseWithin room cs = .error .tooDeep := hread
    refine ⟨fun heq => ?_, fun hall => absurd (hall p hp) (Nat.not_le_of_lt hdeep)⟩
    exact absurd (heq.symm.trans hwithin) (reads_ne_tooDeep hparse)
  · exact ⟨fun _ => hall, fun _ => reads_unique hread hparse⟩

end Json

end RowTypes
