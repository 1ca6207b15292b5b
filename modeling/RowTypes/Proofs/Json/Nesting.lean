import RowTypes.Proofs.Json.Layout
import RowTypes.Proofs.Json.Quoted

/-!
# The guards against nesting

Both guards compare the depth of a value with the limit: the scan of a
text of the value, in any layout (`textExceeds_renderIn`), and the walk
through the value itself (`exceeds_eq`). The scan is lifted over a text
part by part: a part has nothing but its depth to tell the scan, which
goes on behind it as it came (`scan_renderIn`).
-/

namespace RowTypes

namespace Json

/-! ## Text without brackets -/

/-- No quote and no bracket stands in a text. -/
def Quiet (cs : List Char) : Prop := ∀ c ∈ cs, c ≠ '"' ∧ isBracket c = false

instance (cs : List Char) : Decidable (Quiet cs) :=
  List.decidableBAll (fun c => c ≠ '"' ∧ isBracket c = false) cs

theorem Quiet.append {cs ds : List Char} (hc : Quiet cs) (hd : Quiet ds) : Quiet (cs ++ ds) := by
  intro c h
  rcases List.mem_append.mp h with h | h
  · exact hc c h
  · exact hd c h

theorem quiet_blanks {cs : List Char} (h : ∀ c ∈ cs, isBlank c) : Quiet cs := by
  intro c hc
  have hblank := h c hc
  simp only [isBlank, Bool.or_eq_true, decide_eq_true_eq] at hblank
  rcases hblank with ((rfl | rfl) | rfl) | rfl <;> decide

theorem quiet_digits (ds : List Digit) : Quiet (digitChars ds) := by
  intro c hc
  obtain ⟨d, -, rfl⟩ := List.mem_map.mp hc
  exact ⟨(digitChar_plain d).2.2, (digitChar_plain d).2.1⟩

theorem quiet_toDigits (n : Nat) : Quiet (Nat.toDigits 10 n) := by
  obtain ⟨d, ds, hchars, -, -⟩ := exists_digits n
  rw [hchars]
  exact quiet_digits _

theorem scan_quiet {cs : List Char} (h : Quiet cs) (limit depth : Nat) (rest : List Char) :
    scanExceeds limit .outside depth (cs ++ rest) = scanExceeds limit .outside depth rest := by
  induction cs with
  | nil => rfl
  | cons c cs ih =>
      obtain ⟨hquote, hbracket⟩ := h c List.mem_cons_self
      simp only [isBracket, Bool.or_eq_false_iff, decide_eq_false_iff_not] at hbracket
      obtain ⟨⟨⟨hsquare, hsquare'⟩, hcurly⟩, hcurly'⟩ := hbracket
      rw [List.cons_append, scanExceeds, if_neg hquote, if_neg (not_or.mpr ⟨hsquare, hcurly⟩),
        if_neg (not_or.mpr ⟨hsquare', hcurly'⟩), ih fun c hc => h c (List.mem_cons_of_mem _ hc)]

theorem Number.scan_render (n : Number) (limit depth : Nat) (rest : List Char) :
    scanExceeds limit .outside depth (n.render rest) = scanExceeds limit .outside depth rest := by
  obtain ⟨negative, whole, fraction, exponent⟩ := n
  have hexponent : scanExceeds limit .outside depth (renderExponent exponent rest) =
      scanExceeds limit .outside depth rest := by
    match exponent with
    | none => rfl
    | some (.ofNat n) =>
        have he : Quiet ['e'] := by decide
        exact scan_quiet (he.append (quiet_toDigits n)) limit depth rest
    | some (.negSucc n) =>
        have he : Quiet ['e', '-'] := by decide
        exact scan_quiet (he.append (quiet_toDigits (n + 1))) limit depth rest
  have hfraction : ∀ rest, scanExceeds limit .outside depth (renderFraction fraction rest) =
      scanExceeds limit .outside depth rest := by
    intro rest
    cases fraction with
    | nil => rfl
    | cons d ds =>
        have hpoint : Quiet ['.'] := by decide
        exact scan_quiet (hpoint.append (quiet_digits (d :: ds))) limit depth rest
  have hsign : Quiet (if negative = true then ['-'] else []) := by
    cases negative <;> decide
  rw [render, scan_quiet hsign, scan_quiet (quiet_toDigits whole), hfraction, hexponent]

theorem scan_scalar {j : Json} (h : j.parts? = none) (limit depth : Nat) (rest : List Char) :
    scanExceeds limit .outside depth (j.render rest) = scanExceeds limit .outside depth rest := by
  match j, h with
  | .null, _ =>
      have hquiet : Quiet ['n', 'u', 'l', 'l'] := by decide
      exact scan_quiet hquiet limit depth rest
  | .bool true, _ =>
      have hquiet : Quiet ['t', 'r', 'u', 'e'] := by decide
      exact scan_quiet hquiet limit depth rest
  | .bool false, _ =>
      have hquiet : Quiet ['f', 'a', 'l', 's', 'e'] := by decide
      exact scan_quiet hquiet limit depth rest
  | .num n, _ => exact n.scan_render limit depth rest
  | .str s, _ => exact scan_renderString limit depth s rest
  | .unreadable, _ => simp [render, loneSurrogate, scanExceeds]

/-! ## Of a text -/

theorem scan_lineBreak (L : Layout) (level limit depth : Nat) (rest : List Char) :
    scanExceeds limit .outside depth (L.lineBreak level ++ rest) =
      scanExceeds limit .outside depth rest :=
  scan_quiet (quiet_blanks (L.isBlank_lineBreak level)) limit depth rest

theorem scan_gap (L : Layout) (limit depth : Nat) (rest : List Char) :
    scanExceeds limit .outside depth (L.gap ++ rest) = scanExceeds limit .outside depth rest :=
  scan_quiet (quiet_blanks L.isBlank_gap) limit depth rest

theorem scan_close {c : Char} (hc : c = ']' ∨ c = '\x7d') (limit depth : Nat) (cs : List Char) :
    scanExceeds limit .outside (depth + 1) (c :: cs) = scanExceeds limit .outside depth cs := by
  rcases hc with rfl | rfl <;> simp [scanExceeds]

theorem scan_mark {c : Char} (hc : c = ',' ∨ c = ':') (limit depth : Nat) (cs : List Char) :
    scanExceeds limit .outside depth (c :: cs) = scanExceeds limit .outside depth cs := by
  rcases hc with rfl | rfl <;> simp [scanExceeds]

theorem decide_lt_depth {limit depth m n : Nat} (b : Bool) :
    (decide (limit < depth + m) || (decide (limit < depth + n) || b)) =
      (decide (limit < depth + max m n) || b) := by
  rw [← Bool.or_assoc, ← Bool.decide_or]
  congr 1
  exact decide_eq_decide.mpr (by omega)

/-- An opening bracket is one more level for what stands inside it,
which is looked at only if that level is allowed. -/
theorem scan_bracketed {c : Char} (hc : c = '[' ∨ c = '\x7b') {limit depth n : Nat}
    {cs rest : List Char}
    (h : depth + 1 ≤ limit → scanExceeds limit .outside (depth + 1) cs =
      (decide (limit < depth + 1 + n) || scanExceeds limit .outside depth rest)) :
    scanExceeds limit .outside depth (c :: cs) =
      (decide (limit < depth + (n + 1)) || scanExceeds limit .outside depth rest) := by
  have hquote : c ≠ '"' := by
    rintro rfl
    exact absurd hc (by decide)
  have hlevel : decide (limit < depth + (n + 1)) = decide (limit < depth + 1 + n) :=
    decide_eq_decide.mpr (by omega)
  rw [scanExceeds, if_neg hquote, if_pos hc, hlevel]
  rcases Nat.lt_or_ge limit (depth + 1) with hopen | hopen
  · rw [if_pos hopen, decide_eq_true (by omega), Bool.true_or]
  · rw [if_neg (Nat.not_lt_of_le hopen), h hopen]

theorem scan_renderIn_scalar {j : Json} (h : j.parts? = none) (L : Layout) {limit depth : Nat}
    (hdepth : depth ≤ limit) (level : Nat) (rest : List Char) :
    scanExceeds limit .outside depth (renderIn L level j rest) =
      (decide (limit < depth + j.depth) || scanExceeds limit .outside depth rest) := by
  rw [renderIn_scalar h, scan_scalar h, depth_scalar h, decide_eq_false (by omega)]
  rfl

mutual

/-- A value exceeds the limit by its depth, or what follows it does. -/
theorem scan_renderIn (L : Layout) {limit : Nat} :
    ∀ {depth : Nat}, depth ≤ limit → ∀ (level : Nat) (j : Json) (rest : List Char),
      scanExceeds limit .outside depth (renderIn L level j rest) =
        (decide (limit < depth + j.depth) || scanExceeds limit .outside depth rest)
  | _, hdepth, level, .null, rest => scan_renderIn_scalar rfl L hdepth level rest
  | _, hdepth, level, .bool _, rest => scan_renderIn_scalar rfl L hdepth level rest
  | _, hdepth, level, .num _, rest => scan_renderIn_scalar rfl L hdepth level rest
  | _, hdepth, level, .str _, rest => scan_renderIn_scalar rfl L hdepth level rest
  | _, hdepth, level, .unreadable, rest => scan_renderIn_scalar rfl L hdepth level rest
  | _, _, _, .arr [], rest => by
      refine scan_bracketed (.inl rfl) fun hopen => ?_
      rw [scan_close (.inl rfl), depthItems, decide_eq_false (Nat.not_lt_of_le hopen),
        Bool.false_or]
  | _, _, _, .obj [], rest => by
      refine scan_bracketed (.inr rfl) fun hopen => ?_
      rw [scan_close (.inr rfl), depthFields, decide_eq_false (Nat.not_lt_of_le hopen),
        Bool.false_or]
  | _, _, level, .arr (j :: js), rest => by
      refine scan_bracketed (.inl rfl) fun hopen => ?_
      rw [scan_lineBreak, scan_renderIn L hopen, scan_renderItemsIn L hopen, scan_lineBreak,
        scan_close (.inl rfl), decide_lt_depth]
      rfl
  | _, _, level, .obj ((k, j) :: fs), rest => by
      refine scan_bracketed (.inr rfl) fun hopen => ?_
      rw [scan_lineBreak, scan_renderString, scan_mark (.inr rfl), scan_gap,
        scan_renderIn L hopen, scan_renderFieldsIn L hopen, scan_lineBreak,
        scan_close (.inr rfl), decide_lt_depth]
      rfl

theorem scan_renderItemsIn (L : Layout) {limit : Nat} :
    ∀ {depth : Nat}, depth ≤ limit → ∀ (level : Nat) (js : List Json) (rest : List Char),
      scanExceeds limit .outside depth (renderItemsIn L level js rest) =
        (decide (limit < depth + depthItems js) || scanExceeds limit .outside depth rest)
  | depth, hdepth, _, [], rest => by
      rw [renderItemsIn, depthItems, decide_eq_false (by omega)]
      rfl
  | depth, hdepth, level, j :: js, rest => by
      rw [renderItemsIn, scan_mark (.inl rfl), scan_lineBreak, scan_renderIn L hdepth,
        scan_renderItemsIn L hdepth, decide_lt_depth]
      rfl

theorem scan_renderFieldsIn (L : Layout) {limit : Nat} :
    ∀ {depth : Nat}, depth ≤ limit → ∀ (level : Nat) (fs : List (String × Json))
      (rest : List Char),
      scanExceeds limit .outside depth (renderFieldsIn L level fs rest) =
        (decide (limit < depth + depthFields fs) || scanExceeds limit .outside depth rest)
  | depth, hdepth, _, [], rest => by
      rw [renderFieldsIn, depthFields, decide_eq_false (by omega)]
      rfl
  | depth, hdepth, level, (k, j) :: fs, rest => by
      rw [renderFieldsIn, scan_mark (.inl rfl), scan_lineBreak, scan_renderString,
        scan_mark (.inr rfl), scan_gap, scan_renderIn L hdepth, scan_renderFieldsIn L hdepth,
        decide_lt_depth]
      rfl

end

/-- The guard of a text compares the depth of the value with the limit. -/
theorem textExceeds_renderIn (L : Layout) (limit : Nat) (j : Json) :
    textExceeds limit (renderIn L 0 j []) = decide (limit < j.depth) := by
  rw [textExceeds, scan_renderIn L (Nat.zero_le limit), scanExceeds, Nat.zero_add, Bool.or_false]

/-- A scan that stays within a limit stays within every greater one. -/
theorem scanExceeds_of_le {limit limit' : Nat} (h : limit ≤ limit') {state : ScanState}
    {depth : Nat} {cs : List Char} (hscan : scanExceeds limit state depth cs = false) :
    scanExceeds limit' state depth cs = false := by
  fun_induction scanExceeds limit state depth cs with
  | case1 => rw [scanExceeds]
  | case2 depth c cs ih => rw [scanExceeds, ih hscan]
  | case3 depth cs ih => rw [scanExceeds, if_pos rfl, ih hscan]
  | case4 depth cs hbackslash ih => rw [scanExceeds, if_neg hbackslash, if_pos rfl, ih hscan]
  | case5 depth c cs hbackslash hquote ih =>
      rw [scanExceeds, if_neg hbackslash, if_neg hquote, ih hscan]
  | case6 depth cs ih => rw [scanExceeds, if_pos rfl, ih hscan]
  | case7 => cases hscan
  | case8 depth c cs hquote hopening hlimit ih =>
      have hlimit' : ¬ limit' < depth + 1 := by omega
      rw [scanExceeds, if_neg hquote, if_pos hopening, if_neg hlimit', ih hscan]
  | case9 depth c cs hquote hopening hclosing ih =>
      rw [scanExceeds, if_neg hquote, if_neg hopening, if_pos hclosing, ih hscan]
  | case10 depth c cs hquote hopening hclosing ih =>
      rw [scanExceeds, if_neg hquote, if_neg hopening, if_neg hclosing, ih hscan]

theorem textExceeds_of_le {limit limit' : Nat} (h : limit ≤ limit') {cs : List Char}
    (hscan : textExceeds limit cs = false) : textExceeds limit' cs = false :=
  scanExceeds_of_le h hscan

/-! ## Of a value -/

theorem depthFields_eq (fs : List (String × Json)) :
    depthFields fs = depthItems (fs.map Prod.snd) := by
  induction fs with
  | nil => rfl
  | cons f fs ih => rw [depthFields, List.map_cons, depthItems, ih]

theorem depthItems_le_iff {js : List Json} {n : Nat} :
    depthItems js ≤ n ↔ ∀ j ∈ js, j.depth ≤ n := by
  induction js with
  | nil => simp [depthItems]
  | cons j js ih => rw [depthItems, Nat.max_le, ih, List.forall_mem_cons]

theorem depth_le_of_mem {j : Json} {js : List Json} (h : j ∈ js) : j.depth ≤ depthItems js :=
  depthItems_le_iff.mp (Nat.le_refl _) j h

theorem depth_of_parts {j : Json} {js : List Json} (h : j.parts? = some js) :
    j.depth = depthItems js + 1 := by
  cases j with
  | arr items =>
      cases h
      rfl
  | obj fields =>
      cases h
      rw [depth, depthFields_eq]
  | _ => cases h

theorem any_lt_depth {limit depth : Nat} (h : depth ≤ limit) (js : List Json) :
    (js.any fun j => decide (limit < depth + j.depth)) =
      decide (limit < depth + depthItems js) := by
  induction js with
  | nil => exact (decide_eq_false (by simp only [depthItems]; omega)).symm
  | cons j js ih =>
      rw [List.any_cons, ih, depthItems, ← Bool.decide_or]
      exact decide_eq_decide.mpr (by omega)

theorem workExceeds_of_parts {j : Json} {js : List Json} (h : j.parts? = some js)
    (limit depth : Nat) (work : List (Json × Nat)) :
    workExceeds limit ((j, depth) :: work) =
      if limit < depth + 1 then true
      else workExceeds limit (js.map (·, depth + 1) ++ work) := by
  rw [workExceeds]
  split
  · next js' hjs =>
    rw [h] at hjs
    cases hjs
    rfl
  · next hnone =>
    rw [h] at hnone
    cases hnone

theorem workExceeds_of_scalar {j : Json} (h : j.parts? = none) (limit depth : Nat)
    (work : List (Json × Nat)) :
    workExceeds limit ((j, depth) :: work) = workExceeds limit work := by
  rw [workExceeds]
  split
  · next js hjs =>
    rw [h] at hjs
    cases hjs
  · rfl

theorem workExceeds_eq {limit : Nat} (work : List (Json × Nat))
    (h : ∀ p ∈ work, p.2 ≤ limit) :
    workExceeds limit work = work.any fun p => decide (limit < p.2 + p.1.depth) := by
  induction work using workExceeds.induct limit with
  | case1 => rw [workExceeds, List.any_nil]
  | case2 j depth work js hparts hdeep =>
      have hj := depth_of_parts hparts
      have hlt : limit < depth + j.depth := by omega
      rw [workExceeds_of_parts hparts, if_pos hdeep, List.any_cons, decide_eq_true hlt,
        Bool.true_or]
  | case3 j depth work js hparts hdeep ih =>
      have hj := depth_of_parts hparts
      have hwork : ∀ p ∈ js.map (·, depth + 1) ++ work, p.2 ≤ limit := by
        intro p hp
        rcases List.mem_append.mp hp with hp | hp
        · obtain ⟨_, -, rfl⟩ := List.mem_map.mp hp
          exact Nat.le_of_not_lt hdeep
        · exact h p (List.mem_cons_of_mem _ hp)
      -- the parts, one level further in, say together what the value says
      have hinside : (js.any fun j => decide (limit < depth + 1 + j.depth)) =
          decide (limit < depth + j.depth) := by
        rw [any_lt_depth (Nat.le_of_not_lt hdeep), hj]
        exact decide_eq_decide.mpr (by omega)
      rw [workExceeds_of_parts hparts, if_neg hdeep, ih hwork, List.any_append, List.any_cons,
        List.any_map, ← hinside]
      rfl
  | case4 j depth work hparts ih =>
      have hj : depth ≤ limit := h _ List.mem_cons_self
      rw [workExceeds_of_scalar hparts, ih fun p hp => h p (List.mem_cons_of_mem _ hp),
        List.any_cons, depth_scalar hparts, decide_eq_false (by omega), Bool.false_or]

/-- The guard of a value compares its depth with the limit. -/
theorem exceeds_eq (limit : Nat) (j : Json) : j.exceeds limit = decide (limit < j.depth) := by
  rw [exceeds, workExceeds_eq [(j, 0)] (by simp)]
  simp

end Json

end RowTypes
