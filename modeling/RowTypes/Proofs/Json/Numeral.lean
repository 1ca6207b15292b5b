import RowTypes.Json.Number

/-!
# Numerals read back

A numeral written in front of a text that cannot extend it is read back
from there (`read_render`). A machine number is written as its digits,
and it is in range (`inRange_ofNat`).
-/

namespace RowTypes

namespace Json

/-! ## Digits -/

/-- The characters of a sequence of digits. -/
def digitChars (ds : List Digit) : List Char := ds.map fun d => Nat.digitChar d.val

theorem digit?_digitChar : ∀ d : Digit, digit? (Nat.digitChar d.val) = some d := by decide

/-- No digit stands at the front of a text. -/
def NoDigit (cs : List Char) : Prop := ∀ c rest, cs = c :: rest → digit? c = none

theorem noDigit_cons {c : Char} {cs : List Char} (h : digit? c = none) : NoDigit (c :: cs) := by
  rintro _ _ ⟨⟩
  exact h

theorem spanDigits_append (ds : List Digit) {rest : List Char} (h : NoDigit rest) :
    spanDigits (digitChars ds ++ rest) = (ds, rest) := by
  induction ds with
  | nil =>
      cases rest with
      | nil => rfl
      | cons c rest => simp [digitChars, spanDigits, h c rest rfl]
  | cons d ds ih =>
      have hcons : digitChars (d :: ds) ++ rest =
          Nat.digitChar d.val :: (digitChars ds ++ rest) := rfl
      rw [hcons, spanDigits, digit?_digitChar, ih]

theorem ofDigits_append (ds : List Digit) (d : Digit) :
    ofDigits (ds ++ [d]) = 10 * ofDigits ds + d.val := by
  simp [ofDigits, List.foldl_append]

/-- The digits of a number, without leading zeros but for the number
zero. -/
theorem exists_digits (n : Nat) : ∃ d ds, Nat.toDigits 10 n = digitChars (d :: ds) ∧
    ofDigits (d :: ds) = n ∧ (d = 0 → n = 0 ∧ ds = []) := by
  induction n using Nat.strongRecOn with
  | _ n ih =>
      rw [Nat.toDigits_eq_if (by decide)]
      split
      · next hn =>
        refine ⟨⟨n, hn⟩, [], rfl, by simp [ofDigits], fun h => ⟨congrArg Fin.val h, rfl⟩⟩
      · next hn =>
        obtain ⟨d, ds, hchars, hvalue, hzero⟩ := ih (n / 10) (by omega)
        refine ⟨d, ds ++ [⟨n % 10, by omega⟩], ?_, ?_, ?_⟩
        · rw [hchars]
          simp [digitChars]
        · rw [← List.cons_append, ofDigits_append, hvalue]
          show 10 * (n / 10) + n % 10 = n
          omega
        · intro hd
          have := (hzero hd).1
          omega

theorem exists_toDigits_cons (n : Nat) (rest : List Char) : ∃ (d : Digit) (cs : List Char),
    Nat.toDigits 10 n ++ rest = Nat.digitChar d.val :: cs := by
  obtain ⟨d, ds, hchars, -, -⟩ := exists_digits n
  exact ⟨d, digitChars ds ++ rest, by rw [hchars]; rfl⟩

theorem digitChar_ne_sign : ∀ d : Digit, Nat.digitChar d.val ≠ '-' ∧ Nat.digitChar d.val ≠ '+' := by
  decide

namespace Number

/-! ## Reading what was written -/

/-- A text at whose front a numeral ends. -/
def NoNumeral (cs : List Char) : Prop :=
  ∀ c rest, cs = c :: rest → digit? c = none ∧ c ≠ '.' ∧ c ≠ 'e' ∧ c ≠ 'E'

theorem NoNumeral.noDigit {cs : List Char} (h : NoNumeral cs) : NoDigit cs :=
  fun c rest hc => (h c rest hc).1

theorem readDigits_toDigits (n : Nat) {rest : List Char} (h : NoDigit rest) :
    readDigits (Nat.toDigits 10 n ++ rest) = some (n, rest) := by
  obtain ⟨d, ds, hchars, hvalue, -⟩ := exists_digits n
  rw [readDigits, hchars, spanDigits_append _ h]
  exact congrArg (fun n => some (n, rest)) hvalue

theorem readWhole_toDigits (n : Nat) {rest : List Char} (h : NoDigit rest) :
    readWhole (Nat.toDigits 10 n ++ rest) = some (n, rest) := by
  obtain ⟨d, ds, hchars, hvalue, hzero⟩ := exists_digits n
  by_cases hd : d = 0
  · obtain ⟨rfl, rfl⟩ := hzero hd
    rfl
  · have hne : ∀ d : Digit, d ≠ 0 → Nat.digitChar d.val ≠ '0' := by decide
    have hspan := spanDigits_append (d :: ds) h
    have hcons : digitChars (d :: ds) ++ rest =
        Nat.digitChar d.val :: (digitChars ds ++ rest) := rfl
    rw [hchars, readWhole]
    · rw [hspan]
      exact congrArg (fun n => some (n, rest)) hvalue
    · intro rest' heq
      rw [hcons] at heq
      exact hne d hd (List.cons.inj heq).1

theorem readSigned_toDigits (n : Nat) {rest : List Char} (h : NoDigit rest) :
    readSigned (Nat.toDigits 10 n ++ rest) = some ((n : Int), rest) := by
  obtain ⟨d, cs, hcons⟩ := exists_toDigits_cons n rest
  rw [readSigned, readDigits_toDigits n h]
  · rfl
  · intro cs' heq
    rw [hcons] at heq
    exact (digitChar_ne_sign d).1 (List.cons.inj heq).1
  · intro cs' heq
    rw [hcons] at heq
    exact (digitChar_ne_sign d).2 (List.cons.inj heq).1

theorem readExponent_render (e : Option Int) {rest : List Char} (h : NoNumeral rest) :
    readExponent (renderExponent e rest) = some (e, rest) := by
  match e with
  | none =>
      rw [renderExponent, readExponent]
      · rintro cs rfl
        exact (h 'e' cs rfl).2.2.1 rfl
      · rintro cs rfl
        exact (h 'E' cs rfl).2.2.2 rfl
  | some (.ofNat n) =>
      rw [renderExponent, readExponent, readSigned_toDigits n h.noDigit]
      rfl
  | some (.negSucc n) =>
      rw [renderExponent, readExponent, readSigned, readDigits_toDigits (n + 1) h.noDigit]
      rfl

theorem readFraction_render (ds : List Digit) {rest : List Char} (hd : NoDigit rest)
    (hp : ∀ cs, rest ≠ '.' :: cs) : readFraction (renderFraction ds rest) = some (ds, rest) := by
  cases ds with
  | nil =>
      rw [renderFraction, readFraction]
      exact fun cs h => hp cs h
  | cons d ds =>
      have hspan := spanDigits_append (d :: ds) hd
      rw [digitChars] at hspan
      rw [renderFraction, readFraction, hspan]
      simp

theorem noDigit_renderExponent (e : Option Int) {rest : List Char} (h : NoNumeral rest) :
    NoDigit (renderExponent e rest) ∧ ∀ cs, renderExponent e rest ≠ '.' :: cs := by
  match e with
  | none => exact ⟨h.noDigit, fun cs hcs => (h '.' cs hcs).2.1 rfl⟩
  | some (.ofNat n) => exact ⟨noDigit_cons (by decide), fun cs hcs => by cases hcs⟩
  | some (.negSucc n) => exact ⟨noDigit_cons (by decide), fun cs hcs => by cases hcs⟩

theorem noDigit_renderFraction (ds : List Digit) {rest : List Char} (h : NoDigit rest) :
    NoDigit (renderFraction ds rest) := by
  cases ds with
  | nil => exact h
  | cons d ds => exact noDigit_cons (by decide)

/-- A numeral is read back up to where it ends. -/
theorem read_render (n : Number) {rest : List Char} (h : NoNumeral rest) :
    read (n.render rest) = some (n, rest) := by
  obtain ⟨negative, whole, fraction, exponent⟩ := n
  have hexp := noDigit_renderExponent exponent h
  have hfrac := noDigit_renderFraction fraction hexp.1
  have hsign : readSign (render ⟨negative, whole, fraction, exponent⟩ rest) =
      (negative, Nat.toDigits 10 whole ++
        renderFraction fraction (renderExponent exponent rest)) := by
    cases negative with
    | true => rfl
    | false =>
        obtain ⟨d, cs, hcons⟩ := exists_toDigits_cons whole
          (renderFraction fraction (renderExponent exponent rest))
        simp only [render]
        rw [if_neg Bool.false_ne_true, List.nil_append, readSign]
        intro cs' heq
        rw [hcons] at heq
        exact (digitChar_ne_sign d).1 (List.cons.inj heq).1
  rw [read, hsign]
  simp only [readWhole_toDigits whole hfrac, readFraction_render fraction hexp.1 hexp.2,
    readExponent_render exponent h, Option.bind_eq_bind, Option.bind_some]
  rfl

/-- A numeral starts with a minus sign or a digit. -/
theorem render_head (n : Number) (rest : List Char) : ∃ c cs, n.render rest = c :: cs ∧
    (c = '-' ∨ ∃ d : Digit, c = Nat.digitChar d.val) := by
  obtain ⟨negative, whole, fraction, exponent⟩ := n
  cases negative with
  | true => exact ⟨'-', _, rfl, Or.inl rfl⟩
  | false =>
      obtain ⟨d, cs, hcons⟩ :=
        exists_toDigits_cons whole (renderFraction fraction (renderExponent exponent rest))
      exact ⟨Nat.digitChar d.val, cs, hcons, Or.inr ⟨d, rfl⟩⟩

/-! ## Machine numbers are in range -/

theorem le_foldl_digits (ds : List Digit) (m : Nat) :
    m ≤ ds.foldl (fun n d => 10 * n + d.val) m := by
  induction ds generalizing m with
  | nil => exact Nat.le_refl m
  | cons d ds ih => exact Nat.le_trans (by omega) (ih (10 * m + d.val))

theorem appendDigits_of_lt (ds : List Digit) (m : Nat)
    (h : ds.foldl (fun n d => 10 * n + d.val) m < UInt64.size) :
    appendDigits m ds = (ds.foldl (fun n d => 10 * n + d.val) m, []) := by
  induction ds generalizing m with
  | nil => rfl
  | cons d ds ih =>
      have hle := le_foldl_digits ds (10 * m + d.val)
      rw [List.foldl_cons] at h ⊢
      rw [appendDigits, if_pos (Nat.lt_of_le_of_lt hle h), ih _ h]

theorem scaled_ofNat {n : Nat} (h : n < UInt64.size) : (ofNat n).scaled = (n, 0) := by
  obtain ⟨d, ds, hchars, hvalue, -⟩ := exists_digits n
  have hdigits : (ofNat n).wholeDigits = d :: ds := by
    have hend : NoDigit [] := by rintro _ _ ⟨⟩
    have hspan := spanDigits_append (d :: ds) hend
    rw [List.append_nil] at hspan
    rw [wholeDigits, ofNat, hchars, hspan]
  have hfold : (d :: ds).foldl (fun n d => 10 * n + d.val) 0 = n := hvalue
  have happ := appendDigits_of_lt (d :: ds) 0 (by rw [hfold]; exact h)
  rw [scaled, hdigits, happ, hfold]
  rfl

theorem roundTo53_of_lt {n : Nat} (h : n < Nat.pow 2 53) : roundTo53 n = n := by
  have hlog : n.log2 + 1 - 53 = 0 := by
    rcases Nat.eq_zero_or_pos n with rfl | hn
    · decide
    · have := (Nat.log2_lt (Nat.ne_of_gt hn)).mpr h
      omega
  have hunit : Nat.pow 2 0 = 1 := rfl
  rw [roundTo53, hlog, hunit]
  simp [Nat.mod_one]

theorem inRange_ofNat {n : Nat} (h : n < Nat.pow 2 53) : (ofNat n).inRange := by
  have hlt : n < Nat.pow 2 1024 - Nat.pow 2 970 := Nat.lt_of_lt_of_le h (by decide +kernel)
  have hscale : roundTo53 (Nat.pow 10 0) = 1 := roundTo53_of_lt (by decide)
  rw [inRange, scaled_ofNat (Nat.lt_of_lt_of_le h (by decide))]
  simp only [Int.toNat_zero, roundTo53_of_lt h, hscale, Nat.mul_one, decide_eq_true hlt]
  simp

end Number

end Json

end RowTypes
