import RowTypes.Proofs.Json.Nesting
import RowTypes.Proofs.Json.Parts

/-!
# The guard along the reader

The scan for brackets keeps up with the reader on any text, JSON or not:
what the reader takes for blanks, a string, a numeral or a key, the scan
passes over with as many brackets open as before (`scan_skipBlanks`,
`scan_readScalar`, `scan_readKey`).
-/

namespace RowTypes

namespace Json

/-! ## Numerals -/

/-- Between two places of a text there is neither quote nor bracket. -/
def Skips (cs rest : List Char) : Prop := ∃ ds, Quiet ds ∧ cs = ds ++ rest

theorem Skips.refl (cs : List Char) : Skips cs cs := ⟨[], by decide, rfl⟩

theorem Skips.trans {cs ds rest : List Char} (h : Skips cs ds) (h' : Skips ds rest) :
    Skips cs rest := by
  obtain ⟨xs, hxs, rfl⟩ := h
  obtain ⟨ys, hys, rfl⟩ := h'
  exact ⟨xs ++ ys, hxs.append hys, (List.append_assoc xs ys rest).symm⟩

theorem Skips.cons {c : Char} {cs rest : List Char} (hc : c ≠ '"' ∧ isBracket c = false)
    (h : Skips cs rest) : Skips (c :: cs) rest := by
  obtain ⟨ds, hds, rfl⟩ := h
  exact ⟨c :: ds, List.forall_mem_cons.mpr ⟨hc, hds⟩, rfl⟩

theorem Skips.scan_eq {cs rest : List Char} (h : Skips cs rest) (limit depth : Nat) :
    scanExceeds limit .outside depth cs = scanExceeds limit .outside depth rest := by
  obtain ⟨ds, hds, rfl⟩ := h
  exact scan_quiet hds limit depth rest

theorem digit?_plain {c : Char} {d : Digit} (h : digit? c = some d) :
    c ≠ '"' ∧ isBracket c = false := by
  constructor
  · rintro rfl
    cases h
  · simp only [isBracket, Bool.or_eq_false_iff, decide_eq_false_iff_not]
    refine ⟨⟨⟨?_, ?_⟩, ?_⟩, ?_⟩ <;> rintro rfl <;> cases h

theorem skips_spanDigits (cs : List Char) : Skips cs (spanDigits cs).2 := by
  induction cs with
  | nil => exact .refl []
  | cons c cs ih =>
      rw [spanDigits]
      split
      · next d hd => exact .cons (digit?_plain hd) ih
      · exact .refl _

namespace Number

theorem skips_readDigits {cs rest : List Char} {n : Nat} (h : readDigits cs = some (n, rest)) :
    Skips cs rest := by
  have hspan := skips_spanDigits cs
  rw [readDigits] at h
  split at h
  · cases h
  · next hcs =>
    cases h
    rwa [hcs] at hspan

theorem skips_readWhole {cs rest : List Char} {n : Nat} (h : readWhole cs = some (n, rest)) :
    Skips cs rest := by
  rw [readWhole.eq_def] at h
  split at h
  · cases h
    exact .cons (by decide) (.refl _)
  · exact skips_readDigits h

theorem skips_readFraction {cs rest : List Char} {ds : List Digit}
    (h : readFraction cs = some (ds, rest)) : Skips cs rest := by
  rw [readFraction.eq_def] at h
  split at h
  · next cs =>
    have hspan := skips_spanDigits cs
    split at h
    · cases h
    · next hcs =>
      cases h
      rw [hcs] at hspan
      exact .cons (by decide) hspan
  · cases h
    exact .refl _

theorem skips_readSigned {cs rest : List Char} {e : Int} (h : readSigned cs = some (e, rest)) :
    Skips cs rest := by
  rw [readSigned.eq_def] at h
  split at h <;> obtain ⟨⟨n, rest'⟩, hread, heq⟩ := Option.map_eq_some_iff.mp h <;> cases heq
  · exact .cons (by decide) (skips_readDigits hread)
  · exact .cons (by decide) (skips_readDigits hread)
  · exact skips_readDigits hread

theorem skips_readExponent {cs rest : List Char} {e : Option Int}
    (h : readExponent cs = some (e, rest)) : Skips cs rest := by
  rw [readExponent.eq_def] at h
  split at h
  · obtain ⟨⟨e, rest'⟩, hread, heq⟩ := Option.map_eq_some_iff.mp h
    cases heq
    exact .cons (by decide) (skips_readSigned hread)
  · obtain ⟨⟨e, rest'⟩, hread, heq⟩ := Option.map_eq_some_iff.mp h
    cases heq
    exact .cons (by decide) (skips_readSigned hread)
  · cases h
    exact .refl _

theorem skips_readSign (cs : List Char) : Skips cs (readSign cs).2 := by
  rw [readSign.eq_def]
  split
  · exact .cons (by decide) (.refl _)
  · exact .refl _

theorem skips_read {cs rest : List Char} {n : Number} (h : Number.read cs = some (n, rest)) :
    Skips cs rest := by
  simp only [Number.read, Option.bind_eq_bind, Option.bind_eq_some_iff] at h
  obtain ⟨⟨whole, cs₁⟩, hwhole, ⟨fraction, cs₂⟩, hfraction, ⟨e, cs₃⟩, hexponent, heq⟩ := h
  cases heq
  exact (skips_readSign cs).trans ((skips_readWhole hwhole).trans
    ((skips_readFraction hfraction).trans (skips_readExponent hexponent)))

end Number

/-! ## Strings -/

theorem scan_hexValue {c : Char} {n : Nat} (h : hexValue? c = some n) (limit depth : Nat)
    (cs : List Char) :
    scanExceeds limit .inString depth (c :: cs) = scanExceeds limit .inString depth cs := by
  refine scan_plain cs ?_ ?_ <;> rintro rfl <;> cases h

theorem addUnit_eq_some {u : StringUnit} {r : Option (List StringUnit × List Char)}
    {us : List StringUnit} {rest : List Char} (h : addUnit u r = some (us, rest)) :
    ∃ us', r = some (us', rest) := by
  rcases r with _ | ⟨us', rest'⟩
  · cases h
  · cases h
    exact ⟨us', rfl⟩

/-- Where the reader finds the end of a string, the scan finds it. -/
theorem scan_readUnits {cs rest : List Char} {us : List StringUnit}
    (h : readUnits cs = some (us, rest)) (limit depth : Nat) :
    scanExceeds limit .inString depth cs = scanExceeds limit .outside depth rest := by
  fun_induction readUnits cs generalizing us with
  | case1 rest' =>
      cases h
      rw [scanExceeds, if_neg (by decide), if_pos rfl]
  | case2 a b c d cs n hcode ih =>
      obtain ⟨us', hread⟩ := addUnit_eq_some h
      simp only [hexCode?, Option.bind_eq_bind, Option.bind_eq_some_iff] at hcode
      obtain ⟨na, ha, nb, hb, nc, hc, nd, hd, -⟩ := hcode
      rw [scan_escape, scan_hexValue ha, scan_hexValue hb, scan_hexValue hc, scan_hexValue hd,
        ih hread]
  | case4 e cs _ c _ ih =>
      obtain ⟨us', hread⟩ := addUnit_eq_some h
      rw [scan_escape, ih hread]
  | case7 c cs hquote _ hbackslash _ ih =>
      obtain ⟨us', hread⟩ := addUnit_eq_some h
      have hc : c ≠ '\\' := by
        rintro rfl
        cases cs with
        | nil => cases hread
        | cons e cs => exact hbackslash e cs rfl rfl
      rw [scan_plain _ hc hquote, ih hread]
  | case3 | case5 | case6 | case8 => cases h

theorem scan_readString {cs rest : List Char} {s : Option String}
    (h : readString cs = some (s, rest)) (limit depth : Nat) :
    scanExceeds limit .outside depth ('"' :: cs) = scanExceeds limit .outside depth rest := by
  rw [readString] at h
  split at h
  · next us rest' hread =>
    cases h
    rw [scanExceeds, if_pos rfl, scan_readUnits hread]
  · cases h

/-! ## Parts of a text -/

theorem scan_skipBlanks (limit depth : Nat) (cs : List Char) :
    scanExceeds limit .outside depth (skipBlanks cs) = scanExceeds limit .outside depth cs := by
  have hskips : Skips cs (skipBlanks cs) := by
    induction cs with
    | nil => exact .refl []
    | cons c cs ih =>
        rw [skipBlanks]
        split
        · next hblank =>
          have hquiet : Quiet [c] := quiet_blanks (by simpa using hblank)
          exact .cons (hquiet c List.mem_cons_self) ih
        · exact .refl _
  exact (hskips.scan_eq limit depth).symm

theorem scan_readScalar {cs rest : List Char} {j : Json} (h : readScalar cs = some (j, rest))
    (limit depth : Nat) :
    scanExceeds limit .outside depth cs = scanExceeds limit .outside depth rest := by
  rw [readScalar.eq_def] at h
  split at h
  · cases h
    have hquiet : Quiet ['n', 'u', 'l', 'l'] := by decide
    exact scan_quiet hquiet limit depth rest
  · cases h
    have hquiet : Quiet ['t', 'r', 'u', 'e'] := by decide
    exact scan_quiet hquiet limit depth rest
  · cases h
    have hquiet : Quiet ['f', 'a', 'l', 's', 'e'] := by decide
    exact scan_quiet hquiet limit depth rest
  · split at h
    · next hread =>
      cases h
      exact scan_readString hread limit depth
    · cases h
  · split at h
    · next hread =>
      cases h
      exact (Number.skips_read hread).scan_eq limit depth
    · cases h

theorem scan_readKey {cs rest : List Char} {key : Option String}
    (h : readKey cs = some (key, rest)) (limit depth : Nat) :
    scanExceeds limit .outside depth cs = scanExceeds limit .outside depth rest := by
  rw [readKey.eq_def] at h
  split at h
  · split at h
    · next hread =>
      split at h
      · next hcolon =>
        cases h
        rw [scan_readString hread, ← scan_skipBlanks, hcolon, scan_mark (.inr rfl)]
      · cases h
    · cases h
  · cases h

end Json

end RowTypes
