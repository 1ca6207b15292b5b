import RowTypes.Proofs.Json.Layout
import RowTypes.Proofs.Json.Parts
import RowTypes.Proofs.Json.Quoted

/-!
# Texts read back

A value whose numbers are in range is read back from its text in any
layout (`parse_renderIn`). The reader is a loop over a stack of open
arrays and objects, so the statement that goes through by induction is
about any stack: with enough room for the depth of a value and enough
turns for its text, the reader comes to the end of the text with that
value in hand and the stack as it was (`parseFrom_renderIn`).
-/

namespace RowTypes

namespace Json

/-! ## Blanks and ends of numerals -/

theorem skipBlanks_cons {c : Char} (h : isBlank c = false) (cs : List Char) :
    skipBlanks (c :: cs) = c :: cs := by
  rw [skipBlanks, h]
  rfl

theorem skipBlanks_append {bs : List Char} (h : ∀ c ∈ bs, isBlank c) (cs : List Char) :
    skipBlanks (bs ++ cs) = skipBlanks cs := by
  induction bs with
  | nil => rfl
  | cons b bs ih =>
      rw [List.cons_append, skipBlanks, if_pos (h b List.mem_cons_self),
        ih fun c hc => h c (List.mem_cons_of_mem _ hc)]

theorem noNumeral_cons {c : Char} (h : c = ',' ∨ c = ']' ∨ c = '\x7d') (cs : List Char) :
    Number.NoNumeral (c :: cs) := by
  rintro _ _ ⟨⟩
  rcases h with rfl | rfl | rfl <;> decide

theorem noNumeral_blanks {bs : List Char} (h : ∀ c ∈ bs, isBlank c) {rest : List Char}
    (hrest : Number.NoNumeral rest) : Number.NoNumeral (bs ++ rest) := by
  cases bs with
  | nil => exact hrest
  | cons b bs =>
      rintro _ _ ⟨⟩
      have hb := h b List.mem_cons_self
      simp only [isBlank, Bool.or_eq_true, decide_eq_true_eq] at hb
      rcases hb with ((rfl | rfl) | rfl) | rfl <;> decide

theorem noNumeral_close (L : Layout) (level : Nat) {c : Char} (h : c = ']' ∨ c = '\x7d')
    (rest : List Char) : Number.NoNumeral (L.lineBreak level ++ c :: rest) :=
  noNumeral_blanks (L.isBlank_lineBreak level) (noNumeral_cons (.inr h) rest)

theorem noNumeral_items (L : Layout) (level : Nat) (js : List Json) {rest : List Char}
    (h : Number.NoNumeral rest) : Number.NoNumeral (renderItemsIn L level js rest) := by
  cases js with
  | nil => exact h
  | cons j js => exact noNumeral_cons (.inl rfl) _

theorem noNumeral_fields (L : Layout) (level : Nat) (fs : List (String × Json))
    {rest : List Char} (h : Number.NoNumeral rest) :
    Number.NoNumeral (renderFieldsIn L level fs rest) := by
  cases fs with
  | nil => exact h
  | cons f fs => exact noNumeral_cons (.inl rfl) _

/-! ## Values without parts -/

theorem readScalar_number {c : Char} {cs : List Char}
    (h : c = '-' ∨ ∃ d : Digit, c = Nat.digitChar d.val) :
    readScalar (c :: cs) =
      match Number.read (c :: cs) with
      | some (n, rest) => some (ofNumber n, rest)
      | none => none := by
  have hdigit : ∀ d : Digit, Nat.digitChar d.val ≠ 'n' ∧ Nat.digitChar d.val ≠ 't' ∧
      Nat.digitChar d.val ≠ 'f' ∧ Nat.digitChar d.val ≠ '"' := by decide
  have hne : c ≠ 'n' ∧ c ≠ 't' ∧ c ≠ 'f' ∧ c ≠ '"' := by
    rcases h with rfl | ⟨d, rfl⟩
    · decide
    · exact hdigit d
  obtain ⟨hnull, htrue, hfalse, hquote⟩ := hne
  unfold readScalar
  split
  · next heq => exact absurd (List.cons.inj heq).1 hnull
  · next heq => exact absurd (List.cons.inj heq).1 htrue
  · next heq => exact absurd (List.cons.inj heq).1 hfalse
  · next heq => exact absurd (List.cons.inj heq).1 hquote
  · rfl

theorem readScalar_render {j : Json} (h : j.parts? = none) (hrange : j.inRange)
    {rest : List Char} (hrest : Number.NoNumeral rest) :
    readScalar (j.render rest) = some (j, rest) := by
  match j, h with
  | .null, _ | .bool true, _ | .bool false, _ => rfl
  | .str s, _ =>
      show readScalar ('"' :: s.toList.foldr renderChar ('"' :: rest)) = _
      rw [readScalar, readString_render]
      rfl
  | .unreadable, _ =>
      have hcode : hexCode? 'd' '8' '0' '0' = some 0xD800 := by decide
      have hhalf : isHighSurrogate 0xD800 := by decide
      simp only [render, loneSurrogate, readScalar, readString, readUnits, hcode, addUnit,
        decodeUnits, hhalf, Bool.true_or, if_true, Option.map_none]
      rfl
  | .num n, _ =>
      obtain ⟨c, cs, hcons, hc⟩ := n.render_head rest
      rw [render, hcons, readScalar_number hc, ← hcons, Number.read_render n hrest]
      show some (ofNumber n, rest) = _
      have hn : n.inRange := hrange
      rw [ofNumber, if_pos hn]

theorem readKey_render (k : String) (rest : List Char) :
    readKey (renderString k (':' :: rest)) = some (some k, rest) := by
  rw [renderString, readKey, readString_render]
  rfl

/-- A field as the reader keeps it. -/
def readField (f : String × Json) : Option String × Json := (some f.1, f.2)

theorem ofFields_readField (fs : List (String × Json)) :
    ofFields (fs.map readField) = .obj fs := by
  have hfields : ∀ g : Option String × Json → Option (String × Json),
      (∀ k j, g (some k, j) = some (k, j)) → (fs.map readField).mapM g = some fs := by
    intro g hg
    induction fs with
    | nil => rfl
    | cons f fs ih =>
        rw [List.map_cons, List.mapM_cons, ih, readField, hg]
        rfl
  rw [ofFields, hfields _ fun _ _ => rfl]

/-! ## Turns of the reader -/

/-- Where the reader stands. -/
structure Cursor where
  room : Nat
  stack : List Frame
  mode : Mode
  text : List Char

/-- From `p` the reader comes to `q`, with as many turns left as the
text there needs if it had as many as it needs. -/
def Reaches (p q : Cursor) : Prop :=
  ∀ turns, p.text.length < turns → ∃ turns', q.text.length < turns' ∧
    parseFrom turns p.room p.stack p.mode p.text = parseFrom turns' q.room q.stack q.mode q.text

theorem Reaches.trans {p q r : Cursor} (hpq : Reaches p q) (hqr : Reaches q r) :
    Reaches p r := by
  intro turns hturns
  obtain ⟨turns', hturns', heq⟩ := hpq turns hturns
  obtain ⟨turns'', hturns'', heq'⟩ := hqr turns' hturns'
  exact ⟨turns'', hturns'', heq.trans heq'⟩

theorem Reaches.of_turn {p q : Cursor} (hlength : q.text.length < p.text.length)
    (h : ∀ turns, parseFrom (turns + 1) p.room p.stack p.mode p.text =
      parseFrom turns q.room q.stack q.mode q.text) : Reaches p q := by
  intro turns hturns
  obtain ⟨turns, rfl⟩ : ∃ n, turns = n + 1 := ⟨turns - 1, by omega⟩
  exact ⟨turns, by omega, h turns⟩

section

variable (room : Nat) (stack : List Frame)

theorem reaches_blanks (mode : Mode) {bs : List Char} (h : ∀ c ∈ bs, isBlank c)
    (rest : List Char) : Reaches ⟨room, stack, mode, bs ++ rest⟩ ⟨room, stack, mode, rest⟩ := by
  intro turns hturns
  simp only [List.length_append] at hturns ⊢
  refine ⟨turns, by omega, ?_⟩
  cases turns with
  | zero => rfl
  | succ turns => cases mode <;> simp only [parseFrom, skipBlanks_append h rest]

theorem reaches_scalar {j : Json} (h : j.parts? = none) (hrange : j.inRange)
    {rest : List Char} (hrest : Number.NoNumeral rest) :
    Reaches ⟨room, stack, .value, j.render rest⟩ ⟨room, stack, .after j, rest⟩ := by
  refine .of_turn (length_scalar h rest) fun turns => ?_
  obtain ⟨c, cs, hcons, hblank, hbracket⟩ := scalar_head h rest
  have hread := readScalar_render h hrange hrest
  rw [hcons] at hread
  show parseFrom (turns + 1) room stack .value (j.render rest) = _
  rw [hcons, parseFrom, skipBlanks_cons hblank]
  split
  · next heq =>
    cases heq
    exact absurd hbracket (by decide)
  · next heq =>
    cases heq
    exact absurd hbracket (by decide)
  · rw [hread]

/-! ### Arrays -/

theorem reaches_emptyArray (rest : List Char) :
    Reaches ⟨room + 1, stack, .value, '[' :: ']' :: rest⟩
      ⟨room + 1, stack, .after (.arr []), rest⟩ :=
  .of_turn (Nat.lt_succ_of_lt (Nat.lt_succ_self _)) fun _ => rfl

theorem reaches_openArray (L : Layout) (level level' : Nat) (j : Json) (rest : List Char) :
    Reaches ⟨room + 1, stack, .value, '[' :: (L.lineBreak level ++ renderIn L level' j rest)⟩
      ⟨room, .array [] :: stack, .value, renderIn L level' j rest⟩ := by
  obtain ⟨c, cs, hcons, hblank, hclose⟩ := renderIn_head L level' j rest
  have hskip : skipBlanks (L.lineBreak level ++ c :: cs) = c :: cs := by
    rw [skipBlanks_append (L.isBlank_lineBreak level), skipBlanks_cons hblank]
  rw [hcons]
  refine .of_turn (by simp only [List.length_cons, List.length_append]; omega) fun turns => ?_
  rw [parseFrom, skipBlanks_cons (by decide)]
  simp only [hskip]
  split
  · next heq =>
    cases heq
    exact absurd rfl hclose
  · rfl

theorem reaches_nextItem (items : List Json) (j : Json) (rest : List Char) :
    Reaches ⟨room, .array items :: stack, .after j, ',' :: rest⟩
      ⟨room, .array (j :: items) :: stack, .value, rest⟩ :=
  .of_turn (Nat.lt_succ_self _) fun _ => rfl

theorem reaches_closeArray (items : List Json) (j : Json) (rest : List Char) :
    Reaches ⟨room, .array items :: stack, .after j, ']' :: rest⟩
      ⟨room + 1, stack, .after (.arr (items.reverse ++ [j])), rest⟩ := by
  rw [← List.reverse_cons]
  exact .of_turn (Nat.lt_succ_self _) fun _ => rfl

/-! ### Objects -/

theorem skipBlanks_key (L : Layout) (level : Nat) (k : String) (rest : List Char) :
    skipBlanks (L.lineBreak level ++ renderString k rest) = renderString k rest := by
  rw [skipBlanks_append (L.isBlank_lineBreak level), renderString, skipBlanks_cons (by decide)]

theorem reaches_emptyObject (rest : List Char) :
    Reaches ⟨room + 1, stack, .value, '\x7b' :: '\x7d' :: rest⟩
      ⟨room + 1, stack, .after (.obj []), rest⟩ :=
  .of_turn (Nat.lt_succ_of_lt (Nat.lt_succ_self _)) fun _ => rfl

theorem length_key (L : Layout) (level : Nat) (k : String) (rest : List Char) (c : Char) :
    rest.length < (c :: (L.lineBreak level ++ renderString k (':' :: rest))).length := by
  have hkey := length_renderString k (':' :: rest)
  simp only [List.length_cons, List.length_append] at hkey ⊢
  omega

theorem reaches_openObject (L : Layout) (level : Nat) (k : String) (rest : List Char) :
    Reaches
      ⟨room + 1, stack, .value, '\x7b' :: (L.lineBreak level ++ renderString k (':' :: rest))⟩
      ⟨room, .object [] (some k) :: stack, .value, rest⟩ := by
  refine .of_turn (length_key L level k rest _) fun turns => ?_
  have hskip := skipBlanks_key L level k (':' :: rest)
  have hkey := readKey_render k rest
  rw [parseFrom, skipBlanks_cons (by decide)]
  simp only [hskip]
  split
  · next heq => cases heq
  · rw [hkey]

theorem reaches_nextField (L : Layout) (level : Nat) (fields : List (Option String × Json))
    (key : Option String) (j : Json) (k : String) (rest : List Char) :
    Reaches
      ⟨room, .object fields key :: stack, .after j,
        ',' :: (L.lineBreak level ++ renderString k (':' :: rest))⟩
      ⟨room, .object ((key, j) :: fields) (some k) :: stack, .value, rest⟩ := by
  refine .of_turn (length_key L level k rest _) fun turns => ?_
  have hcomma : ∀ cs, skipBlanks (',' :: cs) = ',' :: cs := skipBlanks_cons (by decide)
  simp only [parseFrom, hcomma, skipBlanks_key, readKey_render]

theorem reaches_closeObject (fields : List (Option String × Json)) (key : Option String)
    (j : Json) (rest : List Char) :
    Reaches ⟨room, .object fields key :: stack, .after j, '\x7d' :: rest⟩
      ⟨room + 1, stack, .after (ofFields (fields.reverse ++ [(key, j)])), rest⟩ := by
  rw [← List.reverse_cons]
  exact .of_turn (Nat.lt_succ_self _) fun _ => rfl

end

/-! ## A whole value -/

theorem reaches_renderIn_scalar (L : Layout) (level : Nat) {j : Json} (h : j.parts? = none)
    (hrange : j.all inRange) {rest : List Char} (hrest : Number.NoNumeral rest) (room : Nat)
    (stack : List Frame) :
    Reaches ⟨room, stack, .value, renderIn L level j rest⟩ ⟨room, stack, .after j, rest⟩ := by
  rw [renderIn_scalar h]
  refine reaches_scalar room stack h ?_ hrest
  cases j with
  | arr items => cases h
  | obj fields => cases h
  | _ => exact hrange

mutual

/-- The reader comes to the end of the text of a value with that value
in hand, and everything else as it was. -/
theorem reaches_renderIn (L : Layout) : ∀ (level : Nat) (j : Json) {rest : List Char},
    j.all inRange → Number.NoNumeral rest → ∀ {room : Nat}, j.depth ≤ room →
      ∀ stack : List Frame,
        Reaches ⟨room, stack, .value, renderIn L level j rest⟩ ⟨room, stack, .after j, rest⟩
  | level, .null, _, hrange, hrest, room, _, stack =>
      reaches_renderIn_scalar L level rfl hrange hrest room stack
  | level, .bool _, _, hrange, hrest, room, _, stack =>
      reaches_renderIn_scalar L level rfl hrange hrest room stack
  | level, .num _, _, hrange, hrest, room, _, stack =>
      reaches_renderIn_scalar L level rfl hrange hrest room stack
  | level, .str _, _, hrange, hrest, room, _, stack =>
      reaches_renderIn_scalar L level rfl hrange hrest room stack
  | level, .unreadable, _, hrange, hrest, room, _, stack =>
      reaches_renderIn_scalar L level rfl hrange hrest room stack
  -- an array or object has a depth, so there is room for it
  | _, .arr _, _, _, _, 0, hroom, _ => absurd hroom (Nat.not_succ_le_zero _)
  | _, .obj _, _, _, _, 0, hroom, _ => absurd hroom (Nat.not_succ_le_zero _)
  | _, .arr [], rest, _, _, room + 1, _, stack => reaches_emptyArray room stack rest
  | _, .obj [], rest, _, _, room + 1, _, stack => reaches_emptyObject room stack rest
  | level, .arr (j :: js), rest, hrange, _, room + 1, hroom, stack => by
      simp only [all, allItems, Bool.and_eq_true] at hrange
      simp only [depth, depthItems, Nat.add_le_add_iff_right, Nat.max_le] at hroom
      have hend := noNumeral_items L (level + 1) js (noNumeral_close L level (.inl rfl) rest)
      have hfirst := reaches_renderIn L (level + 1) j hrange.2.1 hend hroom.1 (.array [] :: stack)
      have hothers := reaches_renderItemsIn L (level + 1) level js hrange.2.2 hroom.2 stack [] j
        rest
      refine (reaches_openArray room stack L (level + 1) (level + 1) j _).trans ?_
      exact hfirst.trans hothers
  | level, .obj ((k, j) :: fs), rest, hrange, _, room + 1, hroom, stack => by
      simp only [all, allFields, Bool.and_eq_true] at hrange
      simp only [depth, depthFields, Nat.add_le_add_iff_right, Nat.max_le] at hroom
      have hend := noNumeral_fields L (level + 1) fs (noNumeral_close L level (.inr rfl) rest)
      have hfirst := reaches_renderIn L (level + 1) j hrange.2.1 hend hroom.1
        (.object [] (some k) :: stack)
      have hothers := reaches_renderFieldsIn L (level + 1) level fs hrange.2.2 hroom.2 stack []
        (some k) j rest
      -- every key was a string, so the fields make an object again
      have hfields := ofFields_readField ((k, j) :: fs)
      rw [List.map_cons, readField] at hfields
      rw [List.reverse_nil, List.nil_append, hfields] at hothers
      refine (reaches_openObject room stack L (level + 1) k _).trans ?_
      refine (reaches_blanks room (.object [] (some k) :: stack) .value L.isBlank_gap _).trans ?_
      exact hfirst.trans hothers

theorem reaches_renderItemsIn (L : Layout) : ∀ (level outer : Nat) (js : List Json),
    allItems inRange js → ∀ {room : Nat}, depthItems js ≤ room →
      ∀ (stack : List Frame) (items : List Json) (j : Json) (rest : List Char),
        Reaches
          ⟨room, .array items :: stack, .after j,
            renderItemsIn L level js (L.lineBreak outer ++ ']' :: rest)⟩
          ⟨room + 1, stack, .after (.arr (items.reverse ++ j :: js)), rest⟩
  | _, outer, [], _, room, _, stack, items, j, rest => by
      refine (reaches_blanks room (.array items :: stack) (.after j)
        (L.isBlank_lineBreak outer) _).trans ?_
      exact reaches_closeArray room stack items j rest
  | level, outer, j' :: js, hrange, room, hroom, stack, items, j, rest => by
      simp only [allItems, Bool.and_eq_true] at hrange
      simp only [depthItems, Nat.max_le] at hroom
      have hend := noNumeral_items L level js (noNumeral_close L outer (.inl rfl) rest)
      have hitem := reaches_renderIn L level j' hrange.1 hend hroom.1
        (.array (j :: items) :: stack)
      have hothers := reaches_renderItemsIn L level outer js hrange.2 hroom.2 stack (j :: items)
        j' rest
      rw [List.reverse_cons, List.append_assoc, List.singleton_append] at hothers
      refine (reaches_nextItem room stack items j _).trans ?_
      refine (reaches_blanks room (.array (j :: items) :: stack) .value
        (L.isBlank_lineBreak level) _).trans ?_
      exact hitem.trans hothers

theorem reaches_renderFieldsIn (L : Layout) :
    ∀ (level outer : Nat) (fs : List (String × Json)), allFields inRange fs →
      ∀ {room : Nat}, depthFields fs ≤ room →
        ∀ (stack : List Frame) (fields : List (Option String × Json)) (key : Option String)
          (j : Json) (rest : List Char),
          Reaches
            ⟨room, .object fields key :: stack, .after j,
              renderFieldsIn L level fs (L.lineBreak outer ++ '\x7d' :: rest)⟩
            ⟨room + 1, stack,
              .after (ofFields (fields.reverse ++ (key, j) :: fs.map readField)), rest⟩
  | _, outer, [], _, room, _, stack, fields, key, j, rest => by
      refine (reaches_blanks room (.object fields key :: stack) (.after j)
        (L.isBlank_lineBreak outer) _).trans ?_
      exact reaches_closeObject room stack fields key j rest
  | level, outer, (k, j') :: fs, hrange, room, hroom, stack, fields, key, j, rest => by
      simp only [allFields, Bool.and_eq_true] at hrange
      simp only [depthFields, Nat.max_le] at hroom
      have hend := noNumeral_fields L level fs (noNumeral_close L outer (.inr rfl) rest)
      have hvalue := reaches_renderIn L level j' hrange.1 hend hroom.1
        (.object ((key, j) :: fields) (some k) :: stack)
      have hothers := reaches_renderFieldsIn L level outer fs hrange.2 hroom.2 stack
        ((key, j) :: fields) (some k) j' rest
      rw [List.reverse_cons, List.append_assoc, List.singleton_append] at hothers
      refine (reaches_nextField room stack L level fields key j k _).trans ?_
      refine (reaches_blanks room (.object ((key, j) :: fields) (some k) :: stack) .value
        L.isBlank_gap _).trans ?_
      exact hvalue.trans hothers

end

/-- A value whose numbers are in range is read back from its text. -/
theorem parse_renderIn (L : Layout) {j : Json} (h : j.all inRange) :
    parse (renderIn L 0 j []) = .ok j := by
  have hroom : j.depth ≤ (renderIn L 0 j []).length :=
    Nat.le_of_lt (depth_lt_length L 0 j [])
  have hend : Number.NoNumeral [] := by rintro _ _ ⟨⟩
  obtain ⟨turns, hturns, heq⟩ := reaches_renderIn L 0 j h hend hroom [] _ (Nat.lt_succ_self _)
  match turns, hturns with
  | turns + 1, _ => exact heq

end Json

end RowTypes
