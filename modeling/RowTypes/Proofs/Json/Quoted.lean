import RowTypes.Json.Nesting
import RowTypes.Json.Parse
import RowTypes.Json.Print

/-!
# Strings read back

A string written in quotes is read back, whatever characters it has
(`readString_render`), and a scan for brackets passes over it
(`scan_renderString`). Each character is written as one unit, which
denotes that character wherever it stands (`exists_unit`).
-/

namespace RowTypes

namespace Json

theorem hexValue?_hexDigit : ∀ d : Fin 16, hexValue? (hexDigit d.val) = some d.val := by decide

theorem hexCode?_hexDigit {n : Nat} (h : n < 32) :
    hexCode? '0' '0' (hexDigit (n / 16)) (hexDigit (n % 16)) = some n := by
  have hhigh := hexValue?_hexDigit ⟨n / 16, by omega⟩
  have hlow := hexValue?_hexDigit ⟨n % 16, by omega⟩
  have hzero : hexValue? '0' = some 0 := rfl
  simp only [hexCode?, hhigh, hlow, hzero, Option.pure_def, Option.bind_eq_bind, Option.bind_some,
    Option.some.injEq]
  omega

theorem decodeUnits_char (c : Char) (us : List StringUnit) :
    decodeUnits (.char c :: us) = (decodeUnits us).map (c :: ·) := by
  rw [decodeUnits]

theorem decodeUnits_code {n : Nat} (h : n < 32) (us : List StringUnit) :
    decodeUnits (.code n :: us) = (decodeUnits us).map (Char.ofNat n :: ·) := by
  have hhigh : isHighSurrogate n = false := by simp [isHighSurrogate]; omega
  have hlow : isLowSurrogate n = false := by simp [isLowSurrogate]; omega
  rcases us with _ | ⟨_ | m, us⟩ <;> simp [decodeUnits, hhigh, hlow]

/-- A character is written as an escape, as a code or as itself. -/
theorem renderChar_cases (c : Char) :
    (∃ e, e ≠ 'u' ∧ escape? e = some c ∧ ∀ tail, renderChar c tail = '\\' :: e :: tail) ∨
      (c.toNat < 32 ∧ ∀ tail, renderChar c tail =
        '\\' :: 'u' :: '0' :: '0' :: hexDigit (c.toNat / 16) :: hexDigit (c.toNat % 16) :: tail) ∨
      (32 ≤ c.toNat ∧ c ≠ '"' ∧ c ≠ '\\' ∧ ∀ tail, renderChar c tail = c :: tail) := by
  by_cases hescaped : c = '"' ∨ c = '\\' ∨ c = '\x08' ∨ c = '\x0c' ∨ c = '\n' ∨ c = '\r' ∨ c = '\t'
  · left
    rcases hescaped with rfl | rfl | rfl | rfl | rfl | rfl | rfl
    · exact ⟨'"', by decide, rfl, fun _ => rfl⟩
    · exact ⟨'\\', by decide, rfl, fun _ => rfl⟩
    · exact ⟨'b', by decide, rfl, fun _ => rfl⟩
    · exact ⟨'f', by decide, rfl, fun _ => rfl⟩
    · exact ⟨'n', by decide, rfl, fun _ => rfl⟩
    · exact ⟨'r', by decide, rfl, fun _ => rfl⟩
    · exact ⟨'t', by decide, rfl, fun _ => rfl⟩
  · simp only [not_or] at hescaped
    obtain ⟨hquote, hbackslash, hb, hf, hn, hr, ht⟩ := hescaped
    have hrender : ∀ tail, renderChar c tail =
        if c.toNat < 32 then
          '\\' :: 'u' :: '0' :: '0' :: hexDigit (c.toNat / 16) :: hexDigit (c.toNat % 16) :: tail
        else c :: tail := by
      intro tail
      rw [renderChar, if_neg hquote, if_neg hbackslash, if_neg hb, if_neg hf, if_neg hn,
        if_neg hr, if_neg ht]
    by_cases hcontrol : c.toNat < 32
    · refine Or.inr (Or.inl ⟨hcontrol, fun tail => ?_⟩)
      rw [hrender, if_pos hcontrol]
    · refine Or.inr (Or.inr ⟨Nat.le_of_not_lt hcontrol, hquote, hbackslash, fun tail => ?_⟩)
      rw [hrender, if_neg hcontrol]

/-! ## Reading -/

/-- The unit that a character is written as denotes it. -/
theorem exists_unit (c : Char) : ∃ u,
    (∀ tail, readUnits (renderChar c tail) = addUnit u (readUnits tail)) ∧
      ∀ us, decodeUnits (u :: us) = (decodeUnits us).map (c :: ·) := by
  rcases renderChar_cases c with
    ⟨e, hu, he, hrender⟩ | ⟨hc, hrender⟩ | ⟨hc, hquote, hbackslash, hrender⟩
  · refine ⟨.char c, fun tail => ?_, decodeUnits_char c⟩
    rw [hrender, readUnits, he]
    rintro _ _ _ _ _ rfl
    exact absurd rfl hu
  · refine ⟨.code c.toNat, fun tail => ?_, fun us => ?_⟩
    · rw [hrender, readUnits, hexCode?_hexDigit hc]
    · rw [decodeUnits_code hc, Char.ofNat_toNat]
  · refine ⟨.char c, fun tail => ?_, decodeUnits_char c⟩
    rw [hrender, readUnits, if_neg (Nat.not_lt_of_le hc)]
    · exact hquote
    · exact fun _ _ _ _ _ h _ => hbackslash h
    · exact fun _ _ h _ => hbackslash h

theorem exists_units (cs rest : List Char) : ∃ us,
    readUnits (cs.foldr renderChar ('"' :: rest)) = some (us, rest) ∧ decodeUnits us = some cs := by
  induction cs with
  | nil => exact ⟨[], by rw [List.foldr_nil, readUnits], rfl⟩
  | cons c cs ih =>
      obtain ⟨us, hread, hdecode⟩ := ih
      obtain ⟨u, hu, hc⟩ := exists_unit c
      refine ⟨u :: us, ?_, ?_⟩
      · rw [List.foldr_cons, hu, hread]
        rfl
      · rw [hc, hdecode]
        rfl

/-- What follows the opening quote of a string is read as that string. -/
theorem readString_render (s : String) (rest : List Char) :
    readString (s.toList.foldr renderChar ('"' :: rest)) = some (some s, rest) := by
  obtain ⟨us, hread, hdecode⟩ := exists_units s.toList rest
  rw [readString, hread]
  simp only [hdecode, Option.map_some, String.ofList_toList]

/-! ## Scanning -/

theorem hexDigit_plain : ∀ d : Fin 16, hexDigit d.val ≠ '\\' ∧ hexDigit d.val ≠ '"' := by decide

theorem scan_plain {limit depth : Nat} {c : Char} (cs : List Char) (hbackslash : c ≠ '\\')
    (hquote : c ≠ '"') :
    scanExceeds limit .inString depth (c :: cs) = scanExceeds limit .inString depth cs := by
  rw [scanExceeds, if_neg hbackslash, if_neg hquote]

theorem scan_escape (limit depth : Nat) (c : Char) (cs : List Char) :
    scanExceeds limit .inString depth ('\\' :: c :: cs) = scanExceeds limit .inString depth cs := by
  rw [scanExceeds, if_pos rfl, scanExceeds]

theorem scan_renderChar (limit depth : Nat) (c : Char) (tail : List Char) :
    scanExceeds limit .inString depth (renderChar c tail) =
      scanExceeds limit .inString depth tail := by
  rcases renderChar_cases c with
    ⟨e, -, -, hrender⟩ | ⟨hc, hrender⟩ | ⟨-, hquote, hbackslash, hrender⟩
  · rw [hrender, scan_escape]
  · have hhigh := hexDigit_plain ⟨c.toNat / 16, by omega⟩
    have hlow := hexDigit_plain ⟨c.toNat % 16, by omega⟩
    rw [hrender, scan_escape, scan_plain _ (by decide) (by decide),
      scan_plain _ (by decide) (by decide), scan_plain _ hhigh.1 hhigh.2,
      scan_plain _ hlow.1 hlow.2]
  · rw [hrender, scan_plain _ hbackslash hquote]

/-- A scan leaves a string as it came to it. -/
theorem scan_renderString (limit depth : Nat) (s : String) (rest : List Char) :
    scanExceeds limit .outside depth (renderString s rest) =
      scanExceeds limit .outside depth rest := by
  have hinside : ∀ cs : List Char,
      scanExceeds limit .inString depth (cs.foldr renderChar ('"' :: rest)) =
        scanExceeds limit .outside depth rest := by
    intro cs
    induction cs with
    | nil => rw [List.foldr_nil, scanExceeds, if_neg (by decide), if_pos rfl]
    | cons c cs ih => rw [List.foldr_cons, scan_renderChar, ih]
  rw [renderString, scanExceeds, if_pos rfl, hinside]

end Json

end RowTypes
