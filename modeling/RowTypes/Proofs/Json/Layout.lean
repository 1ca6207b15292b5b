import RowTypes.Json.Nesting
import RowTypes.Json.Parse
import RowTypes.Json.Print
import RowTypes.Proofs.Json.Numeral

/-!
# Texts in any layout

The compact and the pretty text of a value differ in blanks only.
`renderIn` writes a value with the blanks that a layout asks for, and
both texts are its results (`render_eq`, `renderPretty_eq`); what is said
of `renderIn` is said of both. Each array and object takes a character
at least, so a text is longer than its value is deep
(`depth_lt_length`).
-/

namespace RowTypes

namespace Json

/-! ## Layouts -/

/-- Where a text has blanks. -/
structure Layout where
  /-- In front of an item or field and of the bracket that closes a list
  of them, at a level of nesting. -/
  lineBreak : Nat → List Char
  /-- Between a colon and a value. -/
  gap : List Char
  isBlank_lineBreak : ∀ level, ∀ c ∈ lineBreak level, isBlank c
  isBlank_gap : ∀ c ∈ gap, isBlank c

/-- No blanks at all. -/
def Layout.compact : Layout where
  lineBreak _ := []
  gap := []
  isBlank_lineBreak := by simp
  isBlank_gap := by simp

/-- Lines indented by two blanks for each level. -/
def Layout.pretty : Layout where
  lineBreak level := '\n' :: List.replicate (2 * level) ' '
  gap := [' ']
  isBlank_lineBreak level c hc := by
    rcases List.mem_cons.mp hc with rfl | hc
    · decide
    · rw [List.eq_of_mem_replicate hc]
      decide
  isBlank_gap c hc := by
    rw [List.mem_singleton.mp hc]
    decide

mutual

/-- The text of a value in a layout, in front of `rest`. -/
def renderIn (L : Layout) (level : Nat) : Json → List Char → List Char
  | .arr (j :: js), rest =>
    '[' :: (L.lineBreak (level + 1) ++ renderIn L (level + 1) j
      (renderItemsIn L (level + 1) js (L.lineBreak level ++ ']' :: rest)))
  | .obj ((k, j) :: fs), rest =>
    '\x7b' :: (L.lineBreak (level + 1) ++ renderString k (':' :: (L.gap ++
      renderIn L (level + 1) j
        (renderFieldsIn L (level + 1) fs (L.lineBreak level ++ '\x7d' :: rest)))))
  | j, rest => j.render rest

/-- Further items, each after a comma. -/
def renderItemsIn (L : Layout) (level : Nat) : List Json → List Char → List Char
  | [], rest => rest
  | j :: js, rest =>
    ',' :: (L.lineBreak level ++ renderIn L level j (renderItemsIn L level js rest))

/-- Further fields, each after a comma. -/
def renderFieldsIn (L : Layout) (level : Nat) :
    List (String × Json) → List Char → List Char
  | [], rest => rest
  | (k, j) :: fs, rest =>
    ',' :: (L.lineBreak level ++ renderString k (':' :: (L.gap ++
      renderIn L level j (renderFieldsIn L level fs rest))))

end

/-- A value without parts is written in the same way in all layouts. -/
theorem renderIn_scalar {j : Json} (h : j.parts? = none) (L : Layout) (level : Nat)
    (rest : List Char) : renderIn L level j rest = j.render rest := by
  cases j with
  | arr items => cases h
  | obj fields => cases h
  | _ => rfl

mutual

theorem render_eq (level : Nat) : ∀ (j : Json) (rest : List Char),
    render j rest = renderIn .compact level j rest
  | .null, _ | .bool _, _ | .num _, _ | .str _, _ | .unreadable, _ => rfl
  | .arr [], _ | .obj [], _ => rfl
  | .arr (j :: js), rest => by
      rw [render, renderIn, render_eq (level + 1) j, renderItems_eq (level + 1) js]
      rfl
  | .obj ((k, j) :: fs), rest => by
      rw [render, renderIn, render_eq (level + 1) j, renderFields_eq (level + 1) fs]
      rfl

theorem renderItems_eq (level : Nat) : ∀ (js : List Json) (rest : List Char),
    renderItems js rest = renderItemsIn .compact level js rest
  | [], _ => rfl
  | j :: js, rest => by
      rw [renderItems, renderItemsIn, render_eq level j, renderItems_eq level js]
      rfl

theorem renderFields_eq (level : Nat) : ∀ (fs : List (String × Json)) (rest : List Char),
    renderFields fs rest = renderFieldsIn .compact level fs rest
  | [], _ => rfl
  | (k, j) :: fs, rest => by
      rw [renderFields, renderFieldsIn, render_eq level j, renderFields_eq level fs]
      rfl

end

mutual

theorem renderPretty_eq : ∀ (level : Nat) (j : Json) (rest : List Char),
    renderPretty level j rest = renderIn .pretty level j rest
  | _, .null, _ | _, .bool true, _ | _, .bool false, _ | _, .num _, _ | _, .str _, _ => rfl
  | _, .unreadable, _ | _, .arr [], _ | _, .obj [], _ => rfl
  | level, .arr (j :: js), rest => by
      rw [renderPretty, renderIn, renderPretty_eq (level + 1) j,
        renderPrettyItems_eq (level + 1) js]
      rfl
  | level, .obj ((k, j) :: fs), rest => by
      rw [renderPretty, renderIn, renderPretty_eq (level + 1) j,
        renderPrettyFields_eq (level + 1) fs]
      rfl

theorem renderPrettyItems_eq : ∀ (level : Nat) (js : List Json) (rest : List Char),
    renderPrettyItems level js rest = renderItemsIn .pretty level js rest
  | _, [], _ => rfl
  | level, j :: js, rest => by
      rw [renderPrettyItems, renderItemsIn, renderPretty_eq level j,
        renderPrettyItems_eq level js]
      rfl

theorem renderPrettyFields_eq : ∀ (level : Nat) (fs : List (String × Json))
    (rest : List Char), renderPrettyFields level fs rest = renderFieldsIn .pretty level fs rest
  | _, [], _ => rfl
  | level, (k, j) :: fs, rest => by
      rw [renderPrettyFields, renderFieldsIn, renderPretty_eq level j,
        renderPrettyFields_eq level fs]
      rfl

end

/-! ## The first character -/

/-- Whether a character opens or closes an array or object. -/
def isBracket (c : Char) : Bool := c = '[' || c = ']' || c = '\x7b' || c = '\x7d'

theorem digitChar_plain :
    ∀ d : Digit, isBlank (Nat.digitChar d.val) = false ∧ isBracket (Nat.digitChar d.val) = false ∧
      Nat.digitChar d.val ≠ '"' := by decide

/-- A text of a value without parts starts neither with a blank nor with
a bracket. -/
theorem scalar_head {j : Json} (h : j.parts? = none) (rest : List Char) :
    ∃ c cs, j.render rest = c :: cs ∧ isBlank c = false ∧ isBracket c = false := by
  cases j with
  | arr items => cases h
  | obj fields => cases h
  | null => exact ⟨_, _, rfl, by decide, by decide⟩
  | bool b => cases b <;> exact ⟨_, _, rfl, by decide, by decide⟩
  | str s => exact ⟨_, _, rfl, by decide, by decide⟩
  | unreadable => exact ⟨_, _, rfl, by decide, by decide⟩
  | num n =>
      obtain ⟨c, cs, hcons, hc⟩ := n.render_head rest
      refine ⟨c, cs, hcons, ?_⟩
      rcases hc with rfl | ⟨d, rfl⟩
      · decide
      · exact ⟨(digitChar_plain d).1, (digitChar_plain d).2.1⟩

theorem renderIn_head (L : Layout) (level : Nat) (j : Json) (rest : List Char) :
    ∃ c cs, renderIn L level j rest = c :: cs ∧ isBlank c = false ∧ c ≠ ']' := by
  cases hparts : j.parts? with
  | none =>
      obtain ⟨c, cs, hcons, hblank, hbracket⟩ := scalar_head hparts rest
      refine ⟨c, cs, by rw [renderIn_scalar hparts, hcons], hblank, ?_⟩
      rintro rfl
      exact absurd hbracket (by decide)
  | some js =>
      match j, hparts with
      | .arr [], _ => exact ⟨'[', _, rfl, by decide, by decide⟩
      | .arr (j :: js), _ => exact ⟨'[', _, rfl, by decide, by decide⟩
      | .obj [], _ => exact ⟨'\x7b', _, rfl, by decide, by decide⟩
      | .obj ((k, j) :: fs), _ => exact ⟨'\x7b', _, rfl, by decide, by decide⟩

/-! ## Lengths -/

theorem length_renderChar (c : Char) (rest : List Char) :
    rest.length < (renderChar c rest).length := by
  unfold renderChar
  repeat' split
  all_goals simp only [List.length_cons]; omega

theorem length_renderString (s : String) (rest : List Char) :
    rest.length < (renderString s rest).length := by
  have hchars : ∀ cs : List Char,
      rest.length < (cs.foldr renderChar ('"' :: rest)).length := by
    intro cs
    induction cs with
    | nil => exact Nat.lt_succ_self _
    | cons c cs ih => exact Nat.lt_trans ih (length_renderChar c _)
  exact Nat.lt_succ_of_lt (hchars s.toList)

theorem Number.length_render (n : Number) (rest : List Char) :
    rest.length < (n.render rest).length := by
  obtain ⟨negative, whole, fraction, exponent⟩ := n
  obtain ⟨d, ds, hchars, -, -⟩ := exists_digits whole
  have hexponent : rest.length ≤ (renderExponent exponent rest).length := by
    unfold renderExponent
    split
    · exact Nat.le_refl _
    all_goals simp only [List.length_cons, List.length_append]; omega
  have hfraction : (renderExponent exponent rest).length ≤
      (renderFraction fraction (renderExponent exponent rest)).length := by
    unfold renderFraction
    split
    · exact Nat.le_refl _
    · simp only [List.length_cons, List.length_append]
      omega
  simp only [Number.render, hchars, digitChars, List.length_append, List.length_map,
    List.length_cons]
  omega

theorem length_scalar {j : Json} (h : j.parts? = none) (rest : List Char) :
    rest.length < (j.render rest).length := by
  cases j with
  | arr items => cases h
  | obj fields => cases h
  | num n => exact n.length_render rest
  | str s => exact length_renderString s rest
  | bool b => cases b <;> simp only [render, List.length_cons] <;> omega
  | null => simp only [render, List.length_cons]; omega
  | unreadable => simp only [render, loneSurrogate, List.length_cons]; omega

theorem depth_scalar {j : Json} (h : j.parts? = none) : j.depth = 0 := by
  cases j with
  | arr items => cases h
  | obj fields => cases h
  | _ => rfl

theorem depth_lt_length_scalar {j : Json} (h : j.parts? = none) (L : Layout) (level : Nat)
    (rest : List Char) : j.depth + rest.length < (renderIn L level j rest).length := by
  rw [depth_scalar h, renderIn_scalar h, Nat.zero_add]
  exact length_scalar h rest

mutual

theorem depth_lt_length (L : Layout) : ∀ (level : Nat) (j : Json) (rest : List Char),
    j.depth + rest.length < (renderIn L level j rest).length
  | _, .arr [], rest | _, .obj [], rest => by
      simp only [depth, depthItems, depthFields, renderIn, render, List.length_cons]
      omega
  | level, .arr (j :: js), rest => by
      have hitem := depth_lt_length L (level + 1) j
        (renderItemsIn L (level + 1) js (L.lineBreak level ++ ']' :: rest))
      have hitems := depthItems_le_length L (level + 1) js (L.lineBreak level ++ ']' :: rest)
      simp only [depth, depthItems, renderIn, List.length_cons, List.length_append] at *
      omega
  | level, .obj ((k, j) :: fs), rest => by
      have hvalue := depth_lt_length L (level + 1) j
        (renderFieldsIn L (level + 1) fs (L.lineBreak level ++ '\x7d' :: rest))
      have hfields := depthFields_le_length L (level + 1) fs (L.lineBreak level ++ '\x7d' :: rest)
      have hkey := length_renderString k (':' :: (L.gap ++ renderIn L (level + 1) j
        (renderFieldsIn L (level + 1) fs (L.lineBreak level ++ '\x7d' :: rest))))
      simp only [depth, depthFields, renderIn, List.length_cons, List.length_append] at *
      omega
  | level, .null, rest => depth_lt_length_scalar rfl L level rest
  | level, .bool _, rest => depth_lt_length_scalar rfl L level rest
  | level, .num _, rest => depth_lt_length_scalar rfl L level rest
  | level, .str _, rest => depth_lt_length_scalar rfl L level rest
  | level, .unreadable, rest => depth_lt_length_scalar rfl L level rest

theorem depthItems_le_length (L : Layout) : ∀ (level : Nat) (js : List Json)
    (rest : List Char), depthItems js + rest.length ≤ (renderItemsIn L level js rest).length
  | _, [], rest => by simp only [depthItems, renderItemsIn]; omega
  | level, j :: js, rest => by
      have hitem := depth_lt_length L level j (renderItemsIn L level js rest)
      have hitems := depthItems_le_length L level js rest
      simp only [depthItems, renderItemsIn, List.length_cons, List.length_append] at *
      omega

theorem depthFields_le_length (L : Layout) : ∀ (level : Nat) (fs : List (String × Json))
    (rest : List Char), depthFields fs + rest.length ≤ (renderFieldsIn L level fs rest).length
  | _, [], rest => by simp only [depthFields, renderFieldsIn]; omega
  | level, (k, j) :: fs, rest => by
      have hvalue := depth_lt_length L level j (renderFieldsIn L level fs rest)
      have hfields := depthFields_le_length L level fs rest
      have hkey := length_renderString k
        (':' :: (L.gap ++ renderIn L level j (renderFieldsIn L level fs rest)))
      simp only [depthFields, renderFieldsIn, List.length_cons, List.length_append] at *
      omega

end

end Json

end RowTypes
