import RowTypes.Json.Basic

/-!
# Reading JSON

`parse` reads a JSON value from a text, which may hold nothing but blanks
besides. The arrays and objects that are open at some place of the text
are a stack of frames, and the reader stops with `tooDeep` where more of
them would be open than it has room for; it stops with `malformed` at the
first place where the text cannot go on to be JSON. Strings and numbers
that denote no value are read as unreadable parts.
-/

namespace RowTypes

namespace Json

/-- Why a text was not read. -/
inductive ParseError where
  | malformed
  | tooDeep
deriving DecidableEq, Repr

/-! ## Blanks -/

/-- The four characters that may stand between the parts of a text. -/
def isBlank (c : Char) : Bool := c = ' ' || c = '\n' || c = '\t' || c = '\r'

/-- The text without the blanks at its front. -/
def skipBlanks : List Char → List Char
  | [] => []
  | c :: cs => if isBlank c then skipBlanks cs else c :: cs

/-! ## Strings -/

/-- One unit of a string as it is written: a character, or a number given
by a hexadecimal escape. -/
inductive StringUnit where
  | char (c : Char)
  | code (n : Nat)

/-- The value of a hexadecimal digit. -/
def hexValue? (c : Char) : Option Nat :=
  if '0' ≤ c ∧ c ≤ '9' then some (c.toNat - '0'.toNat)
  else if 'a' ≤ c ∧ c ≤ 'f' then some (c.toNat - 'a'.toNat + 10)
  else if 'A' ≤ c ∧ c ≤ 'F' then some (c.toNat - 'A'.toNat + 10)
  else none

/-- The number that four hexadecimal digits denote. -/
def hexCode? (a b c d : Char) : Option Nat := do
  return 4096 * (← hexValue? a) + 256 * (← hexValue? b) + 16 * (← hexValue? c) +
    (← hexValue? d)

/-- The character that a letter after a backslash stands for. -/
def escape? (c : Char) : Option Char :=
  if c = '"' then some '"'
  else if c = '\\' then some '\\'
  else if c = '/' then some '/'
  else if c = 'b' then some '\x08'
  else if c = 'f' then some '\x0c'
  else if c = 'n' then some '\n'
  else if c = 'r' then some '\r'
  else if c = 't' then some '\t'
  else none

/-- Adds a unit in front of those that have been read. -/
def addUnit (u : StringUnit) :
    Option (List StringUnit × List Char) → Option (List StringUnit × List Char)
  | some (us, rest) => some (u :: us, rest)
  | none => none

/-- The units of a string up to its closing quote, and the rest. -/
def readUnits : List Char → Option (List StringUnit × List Char)
  | '"' :: rest => some ([], rest)
  | '\\' :: 'u' :: a :: b :: c :: d :: cs =>
    match hexCode? a b c d with
    | some n => addUnit (.code n) (readUnits cs)
    | none => none
  | '\\' :: e :: cs =>
    match escape? e with
    | some c => addUnit (.char c) (readUnits cs)
    | none => none
  | c :: cs => if c.toNat < 32 then none else addUnit (.char c) (readUnits cs)
  | [] => none

/-- Whether a code is the first half of a surrogate pair. -/
def isHighSurrogate (n : Nat) : Bool := 0xD800 ≤ n && n < 0xDC00

/-- Whether a code is the second half of a surrogate pair. -/
def isLowSurrogate (n : Nat) : Bool := 0xDC00 ≤ n && n < 0xE000

/-- The characters that units denote; there are none if half of a
surrogate pair stands alone. -/
def decodeUnits : List StringUnit → Option (List Char)
  | [] => some []
  | .char c :: us => (decodeUnits us).map (c :: ·)
  | .code n :: .code m :: us =>
    if isHighSurrogate n then
      if isLowSurrogate m then
        (decodeUnits us).map
          (Char.ofNat (0x10000 + 1024 * (n - 0xD800) + (m - 0xDC00)) :: ·)
      else none
    else if isLowSurrogate n then none
    else (decodeUnits (.code m :: us)).map (Char.ofNat n :: ·)
  | .code n :: us =>
    if isHighSurrogate n || isLowSurrogate n then none
    else (decodeUnits us).map (Char.ofNat n :: ·)

/-- The string after an opening quote, if it denotes one, and the
rest. -/
def readString (cs : List Char) : Option (Option String × List Char) :=
  match readUnits cs with
  | some (us, rest) => some ((decodeUnits us).map String.ofList, rest)
  | none => none

/-! ## Values without parts -/

/-- A string as a value. -/
def ofString? : Option String → Json
  | some s => .str s
  | none => .unreadable

/-- A numeral as a value. -/
def ofNumber (n : Number) : Json := if n.inRange then .num n else .unreadable

/-- Takes a value that is neither array nor object off the front of a
text. -/
def readScalar : List Char → Option (Json × List Char)
  | 'n' :: 'u' :: 'l' :: 'l' :: rest => some (.null, rest)
  | 't' :: 'r' :: 'u' :: 'e' :: rest => some (.bool true, rest)
  | 'f' :: 'a' :: 'l' :: 's' :: 'e' :: rest => some (.bool false, rest)
  | '"' :: cs =>
    match readString cs with
    | some (s, rest) => some (ofString? s, rest)
    | none => none
  | cs =>
    match Number.read cs with
    | some (n, rest) => some (ofNumber n, rest)
    | none => none

/-! ## Arrays and objects -/

/-- An array or object that has been opened. -/
inductive Frame where
  /-- The items read so far, the last of them first. -/
  | array (items : List Json)
  /-- The fields read so far, the last of them first, and the key of the
  value that comes next; a key that is no string makes the object
  unreadable. -/
  | object (fields : List (Option String × Json)) (key : Option String)

/-- The object with the given fields. -/
def ofFields (fields : List (Option String × Json)) : Json :=
  match fields.mapM fun (k, j) => k.map (·, j) with
  | some fs => .obj fs
  | none => .unreadable

/-- A key with the colon after it. -/
def readKey (cs : List Char) : Option (Option String × List Char) :=
  match cs with
  | '"' :: cs =>
    match readString cs with
    | some (key, rest) =>
      match skipBlanks rest with
      | ':' :: rest => some (key, rest)
      | _ => none
    | none => none
  | _ => none

/-- What the reader is about to do. -/
inductive Mode where
  /-- Read a value. -/
  | value
  /-- Go on after a value. -/
  | after (j : Json)

/-- Reads on inside the open arrays and objects of `stack`, with `room`
for more of them. Each turn but the last takes a character, so as many
turns as there are characters, and one, are enough. -/
def parseFrom : (turns room : Nat) → List Frame → Mode → List Char →
    Except ParseError Json
  | 0, _, _, _, _ => .error .malformed
  | turns + 1, room, stack, .value, cs =>
    match skipBlanks cs with
    | '[' :: cs =>
      match room with
      | 0 => .error .tooDeep
      | room' + 1 =>
        match skipBlanks cs with
        | ']' :: cs => parseFrom turns room stack (.after (.arr [])) cs
        | cs => parseFrom turns room' (.array [] :: stack) .value cs
    | '\x7b' :: cs =>
      match room with
      | 0 => .error .tooDeep
      | room' + 1 =>
        match skipBlanks cs with
        | '\x7d' :: cs => parseFrom turns room stack (.after (.obj [])) cs
        | cs =>
          match readKey cs with
          | some (key, cs) => parseFrom turns room' (.object [] key :: stack) .value cs
          | none => .error .malformed
    | cs =>
      match readScalar cs with
      | some (j, cs) => parseFrom turns room stack (.after j) cs
      | none => .error .malformed
  | turns + 1, room, stack, .after j, cs =>
    match stack, skipBlanks cs with
    | [], [] => .ok j
    | .array items :: stack, ',' :: cs =>
      parseFrom turns room (.array (j :: items) :: stack) .value cs
    | .array items :: stack, ']' :: cs =>
      parseFrom turns (room + 1) stack (.after (.arr (j :: items).reverse)) cs
    | .object fields key :: stack, ',' :: cs =>
      match readKey (skipBlanks cs) with
      | some (key', cs) =>
        parseFrom turns room (.object ((key, j) :: fields) key' :: stack) .value cs
      | none => .error .malformed
    | .object fields key :: stack, '\x7d' :: cs =>
      parseFrom turns (room + 1) stack
        (.after (ofFields ((key, j) :: fields).reverse)) cs
    | _, _ => .error .malformed

/-- Reads a text that opens at most `room` arrays and objects at once. -/
def parseWithin (room : Nat) (cs : List Char) : Except ParseError Json :=
  parseFrom (cs.length + 1) room [] .value cs

/-- Reads a text. No text opens more arrays and objects than it has
characters. -/
def parse (cs : List Char) : Except ParseError Json := parseWithin cs.length cs

end Json

end RowTypes
