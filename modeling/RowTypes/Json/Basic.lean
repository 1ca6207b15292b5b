import RowTypes.Json.Number

/-!
# JSON values

A JSON value as it is written: the fields of an object keep their order
and may repeat. A text can be well formed and yet denote no value, if it
has half of a surrogate pair or a number out of range; such a part is
`unreadable`. It may be passed over, but nothing can be made of it.
`canonical` gives the value as a map from keys to values sees it.
-/

namespace RowTypes

/-- A JSON value. -/
inductive Json where
  | null
  | bool (b : Bool)
  | num (n : Json.Number)
  | str (s : String)
  | arr (items : List Json)
  | obj (fields : List (String × Json))
  /-- A string, number or object that stands for no value. -/
  | unreadable

namespace Json

/-- The numeral of a machine number. -/
def ofUInt32 (n : UInt32) : Json := .num (.ofNat n.toNat)

/-- The machine number that a numeral denotes. -/
def toUInt32? : Json → Option UInt32
  | .num n =>
    match n.toNat? with
    | some k => if k < UInt32.size then some (UInt32.ofNat k) else none
    | none => none
  | _ => none

/-- The string that a value is. -/
def toString? : Json → Option String
  | .str s => some s
  | _ => none

/-! ## Nesting -/

mutual

/-- The longest chain of arrays and objects, each inside the one before
it. -/
def depth : Json → Nat
  | .arr items => depthItems items + 1
  | .obj fields => depthFields fields + 1
  | _ => 0

/-- The greatest depth of a list of values. -/
def depthItems : List Json → Nat
  | [] => 0
  | j :: js => max (depth j) (depthItems js)

/-- The greatest depth of the values of a list of fields. -/
def depthFields : List (String × Json) → Nat
  | [] => 0
  | (_, j) :: fs => max (depth j) (depthFields fs)

end

/-! ## Readable values -/

mutual

/-- Whether no part of a value is unreadable. -/
def readable : Json → Bool
  | .arr items => readableItems items
  | .obj fields => readableFields fields
  | .unreadable => false
  | _ => true

/-- Whether all values of a list are readable. -/
def readableItems : List Json → Bool
  | [] => true
  | j :: js => readable j && readableItems js

/-- Whether the values of all fields are readable. -/
def readableFields : List (String × Json) → Bool
  | [] => true
  | (_, j) :: fs => readable j && readableFields fs

end

/-! ## Canonical form -/

/-- Puts a field in front of the first greater key; a field with an equal
key takes precedence over the new one. -/
def insertField (key : String) (value : Json) :
    List (String × Json) → List (String × Json)
  | [] => [(key, value)]
  | (k, v) :: fs =>
    if k = key then (k, v) :: fs
    else if key < k then (key, value) :: (k, v) :: fs
    else (k, v) :: insertField key value fs

mutual

/-- The value with the keys of every object in ascending order and, of
fields with one key, only the last. -/
def canonical : Json → Json
  | .arr items => .arr (canonicalItems items)
  | .obj fields => .obj (canonicalFields fields)
  | j => j

/-- The canonical forms of a list of values. -/
def canonicalItems : List Json → List Json
  | [] => []
  | j :: js => canonical j :: canonicalItems js

/-- Fields in ascending order with canonical values. -/
def canonicalFields : List (String × Json) → List (String × Json)
  | [] => []
  | (k, j) :: fs => insertField k (canonical j) (canonicalFields fs)

end

end Json

end RowTypes
