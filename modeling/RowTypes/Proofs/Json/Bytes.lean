import RowTypes.Json.Nesting

/-!
# The guard over bytes

The scan for brackets may as well go over the bytes of a text in UTF-8
(`bytesExceed_utf8`): a character that is a byte is that byte, and no
byte of any other character is a quote, a backslash or a bracket.
-/

namespace RowTypes

namespace Json

/-- `scanExceeds` over bytes. -/
def scanBytes (limit : Nat) : ScanState → (depth : Nat) → List UInt8 → Bool
  | _, _, [] => false
  | .escaped, depth, _ :: bs => scanBytes limit .inString depth bs
  | .inString, depth, b :: bs =>
    if b = '\\'.toUInt8 then scanBytes limit .escaped depth bs
    else if b = '"'.toUInt8 then scanBytes limit .outside depth bs
    else scanBytes limit .inString depth bs
  | .outside, depth, b :: bs =>
    if b = '"'.toUInt8 then scanBytes limit .inString depth bs
    else if b = '['.toUInt8 ∨ b = '\x7b'.toUInt8 then
      if limit < depth + 1 then true else scanBytes limit .outside (depth + 1) bs
    else if b = ']'.toUInt8 ∨ b = '\x7d'.toUInt8 then scanBytes limit .outside (depth - 1) bs
    else scanBytes limit .outside depth bs

/-- Whether arrays and objects of a text of bytes nest deeper than
`limit`. -/
def bytesExceed (limit : Nat) (bs : List UInt8) : Bool := scanBytes limit .outside 0 bs

/-! ## Characters -/

/-- The bytes of a character: one below 128 that is the character, or
several that are not below 128. -/
theorem utf8EncodeChar_cases (c : Char) :
    (c.toNat < 128 ∧ String.utf8EncodeChar c = [c.toUInt8]) ∨
      (128 ≤ c.toNat ∧ ∃ b bs, String.utf8EncodeChar c = b :: bs ∧
        ∀ b' ∈ b :: bs, 128 ≤ b'.toNat) := by
  have hval : c.val.toNat = c.toNat := rfl
  simp only [String.utf8EncodeChar, hval]
  split
  · exact .inl ⟨by omega, rfl⟩
  · refine .inr ⟨by omega, ?_⟩
    split
    · exact ⟨_, _, rfl, by simp; omega⟩
    · split
      · exact ⟨_, _, rfl, by simp; omega⟩
      · exact ⟨_, _, rfl, by simp; omega⟩

theorem toNat_toUInt8 {c : Char} (h : c.toNat < 128) : c.toUInt8.toNat = c.toNat := by
  have hmod : c.toUInt8.toNat = c.toNat % 256 := rfl
  omega

theorem toUInt8_inj {c d : Char} (hc : c.toNat < 128) (hd : d.toNat < 128) :
    c.toUInt8 = d.toUInt8 ↔ c = d := by
  refine ⟨fun h => ?_, fun h => h ▸ rfl⟩
  have hnat := congrArg UInt8.toNat h
  rw [toNat_toUInt8 hc, toNat_toUInt8 hd] at hnat
  exact Char.toNat_inj.mp hnat

/-- The characters that the scan looks for. -/
def marks : List Char := ['\\', '"', '[', ']', '\x7b', '\x7d']

theorem toNat_lt_of_mem_marks : ∀ c ∈ marks, c.toNat < 128 := by simp [marks]

/-! ## Texts -/

/-- Bytes from 128 on mean nothing to the scan. -/
theorem scanBytes_high {bs : List UInt8} (h : ∀ b ∈ bs, 128 ≤ b.toNat) {state : ScanState}
    (hstate : state ≠ .escaped) (limit depth : Nat) (rest : List UInt8) :
    scanBytes limit state depth (bs ++ rest) = scanBytes limit state depth rest := by
  induction bs with
  | nil => rfl
  | cons b bs ih =>
      have hrest := ih fun b hb => h b (List.mem_cons_of_mem _ hb)
      have hne : ∀ c ∈ marks, b ≠ c.toUInt8 := by
        rintro c hc rfl
        have hlow := toNat_lt_of_mem_marks c hc
        have hhigh := h _ List.mem_cons_self
        rw [toNat_toUInt8 hlow] at hhigh
        omega
      simp only [marks, List.forall_mem_cons] at hne
      cases state with
      | escaped => exact absurd rfl hstate
      | inString => simp [scanBytes, hne, hrest]
      | outside => simp [scanBytes, hne, hrest]

/-- The scan of the bytes of a text and the scan of its characters come
to the same answer. -/
theorem scanBytes_utf8 (limit : Nat) (state : ScanState) (depth : Nat) (cs : List Char) :
    scanBytes limit state depth (cs.flatMap String.utf8EncodeChar) =
      scanExceeds limit state depth cs := by
  induction cs generalizing state depth with
  | nil => cases state <;> rfl
  | cons c cs ih =>
      rw [List.flatMap_cons]
      rcases utf8EncodeChar_cases c with ⟨hc, hbytes⟩ | ⟨hc, b, bs, hbytes, hhigh⟩
      · have hmark : ∀ d ∈ marks, (c.toUInt8 = d.toUInt8 ↔ c = d) := fun d hd =>
          toUInt8_inj hc (toNat_lt_of_mem_marks d hd)
        simp only [marks, List.forall_mem_cons] at hmark
        rw [hbytes, List.singleton_append]
        cases state with
        | escaped => simp only [scanBytes, scanExceeds, ih]
        | inString => simp only [scanBytes, scanExceeds, ih, hmark]
        | outside => simp only [scanBytes, scanExceeds, ih, hmark]
      · have hmark : ∀ d ∈ marks, c ≠ d := by
          rintro d hd rfl
          exact absurd (toNat_lt_of_mem_marks c hd) (Nat.not_lt_of_le hc)
        simp only [marks, List.forall_mem_cons] at hmark
        have hrest : ∀ b' ∈ bs, 128 ≤ b'.toNat := fun b' hb => hhigh b' (List.mem_cons_of_mem _ hb)
        rw [hbytes]
        cases state with
        | escaped =>
            -- the backslash takes the first byte alone
            rw [List.cons_append, scanBytes, scanExceeds, scanBytes_high hrest (by simp), ih]
        | inString =>
            rw [scanBytes_high hhigh (by simp), ih]
            simp [scanExceeds, hmark]
        | outside =>
            rw [scanBytes_high hhigh (by simp), ih]
            simp [scanExceeds, hmark]

/-- The guard over the bytes of a text is the guard. -/
theorem bytesExceed_utf8 (limit : Nat) (s : String) :
    bytesExceed limit s.toUTF8.data.toList = textExceeds limit s.toList := by
  have hbytes : s.toUTF8.data.toList = s.toList.flatMap String.utf8EncodeChar := by
    rw [String.toUTF8, ← String.utf8Encode_toList, List.utf8Encode, List.data_toByteArray]
  rw [hbytes]
  exact scanBytes_utf8 limit .outside 0 s.toList

end Json

end RowTypes
