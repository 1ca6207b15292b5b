/-!
# Numerals

A numeral of JSON: sign, whole part, digits after the point, exponent.
`read` takes a numeral off the front of a text and `render` writes one.
A reader that holds numbers in 64-bit floating point cannot hold every
numeral; `inRange` says which of them it can.
-/

namespace RowTypes

namespace Json

/-- A decimal digit. -/
abbrev Digit := Fin 10

/-- The number that a sequence of digits denotes. -/
def ofDigits (ds : List Digit) : Nat :=
  ds.foldl (fun n d => 10 * n + d.val) 0

/-- The digit that a character is. -/
def digit? (c : Char) : Option Digit :=
  if h : '0'.toNat ≤ c.toNat ∧ c.toNat ≤ '9'.toNat then
    some ⟨c.toNat - '0'.toNat, by
      have h0 : '0'.toNat = 48 := rfl
      have h9 : '9'.toNat = 57 := rfl
      omega⟩
  else none

/-- The digits at the front of a text, and the rest. -/
def spanDigits : List Char → List Digit × List Char
  | [] => ([], [])
  | c :: cs =>
    match digit? c with
    | some d =>
      let (ds, rest) := spanDigits cs
      (d :: ds, rest)
    | none => ([], c :: cs)

/-- A numeral. -/
structure Number where
  negative : Bool
  whole : Nat
  fraction : List Digit
  exponent : Option Int
deriving DecidableEq, Repr

namespace Number

/-- The numeral of a natural number. -/
def ofNat (n : Nat) : Number := ⟨false, n, [], none⟩

/-- The natural number that a numeral without sign, point and exponent
denotes. -/
def toNat? (n : Number) : Option Nat :=
  if n.negative = false ∧ n.fraction = [] ∧ n.exponent = none then some n.whole
  else none

/-! ## Text -/

/-- The whole part at the front of a text: a zero alone, or digits that
do not start with one. -/
def readWhole : List Char → Option (Nat × List Char)
  | '0' :: rest => some (0, rest)
  | cs =>
    match spanDigits cs with
    | ([], _) => none
    | (ds, rest) => some (ofDigits ds, rest)

/-- The digits after a point, if there is a point. -/
def readFraction : List Char → Option (List Digit × List Char)
  | '.' :: cs =>
    match spanDigits cs with
    | ([], _) => none
    | (ds, rest) => some (ds, rest)
  | cs => some ([], cs)

/-- A natural number that may start with zeros. -/
def readDigits (cs : List Char) : Option (Nat × List Char) :=
  match spanDigits cs with
  | ([], _) => none
  | (ds, rest) => some (ofDigits ds, rest)

/-- An integer with an optional sign. -/
def readSigned : List Char → Option (Int × List Char)
  | '-' :: cs => (readDigits cs).map fun (n, rest) => (-(n : Int), rest)
  | '+' :: cs => (readDigits cs).map fun (n, rest) => ((n : Int), rest)
  | cs => (readDigits cs).map fun (n, rest) => ((n : Int), rest)

/-- The exponent, if there is one. -/
def readExponent : List Char → Option (Option Int × List Char)
  | 'e' :: cs => (readSigned cs).map fun (e, rest) => (some e, rest)
  | 'E' :: cs => (readSigned cs).map fun (e, rest) => (some e, rest)
  | cs => some (none, cs)

/-- A minus sign, if there is one. -/
def readSign : List Char → Bool × List Char
  | '-' :: cs => (true, cs)
  | cs => (false, cs)

/-- Takes a numeral off the front of a text. -/
def read (cs : List Char) : Option (Number × List Char) := do
  let (negative, cs) := readSign cs
  let (whole, cs) ← readWhole cs
  let (fraction, cs) ← readFraction cs
  let (exponent, cs) ← readExponent cs
  return (⟨negative, whole, fraction, exponent⟩, cs)

/-- The exponent part in front of `rest`. -/
def renderExponent : Option Int → List Char → List Char
  | none, rest => rest
  | some (.ofNat n), rest => 'e' :: (Nat.toDigits 10 n ++ rest)
  | some (.negSucc n), rest => 'e' :: '-' :: (Nat.toDigits 10 (n + 1) ++ rest)

/-- The part after the point in front of `rest`. -/
def renderFraction : List Digit → List Char → List Char
  | [], rest => rest
  | ds, rest => '.' :: (ds.map (fun d => Nat.digitChar d.val) ++ rest)

/-- The numeral in front of `rest`. -/
def render (n : Number) (rest : List Char) : List Char :=
  (if n.negative then ['-'] else []) ++
    (Nat.toDigits 10 n.whole ++
      renderFraction n.fraction (renderExponent n.exponent rest))

/-! ## Range -/

/-- The nearest number with 53 significant bits, the even one of two. -/
def roundTo53 (n : Nat) : Nat :=
  let unit := Nat.pow 2 (n.log2 + 1 - 53)
  let q := n / unit
  let r := n % unit
  if unit < 2 * r ∨ (2 * r = unit ∧ q % 2 = 1) then (q + 1) * unit
  else q * unit

/-- Digits appended to a significand as long as it fits into 64 bits, and
the digits that are left. -/
def appendDigits (m : Nat) : List Digit → Nat × List Digit
  | [] => (m, [])
  | d :: ds =>
    if 10 * m + d.val < UInt64.size then appendDigits (10 * m + d.val) ds
    else (m, d :: ds)

/-- The digits of the whole part. -/
def wholeDigits (n : Number) : List Digit :=
  (spanDigits (Nat.toDigits 10 n.whole)).1

/-- A 64-bit significand and the power of ten that goes with it. Digits
of the whole part that do not fit count in the exponent, those of the
fraction are dropped. -/
def scaled (n : Number) : Nat × Int :=
  let (m, cut) := appendDigits 0 n.wholeDigits
  let (m', left) := appendDigits m n.fraction
  (m', (cut.length : Int) - (n.fraction.length - left.length : Nat) + n.exponent.getD 0)

/-- Whether the product of the significand and the power of ten, each of
them and then their product rounded to 53 bits, is below 2 ^ 1024. -/
def inRange (n : Number) : Bool :=
  let (m, e) := n.scaled
  m = 0 || e < 0 ||
    (e ≤ 308 &&
      roundTo53 m * roundTo53 (Nat.pow 10 e.toNat) < Nat.pow 2 1024 - Nat.pow 2 970)

end Number

end Json

end RowTypes
