import RowTypes.Json.Nesting
import RowTypes.Json.Parse
import RowTypes.Json.Print
import RowTypes.Traversal.Summary
import RowTypes.Wire.Decode
import RowTypes.Wire.Encode

/-!
# Encoding and decoding

Types are written to JSON text and to JSON values and read back, within
a limit on their depth. Before a text is read its nesting is bounded by
`levelsPerType` times the limit, so that no text can make the reader go
deeper than that; a value is bounded in the same way.
-/

namespace RowTypes

namespace Codec

/-! ## Limits and errors -/

/-- The greatest machine word. -/
def maxWord : Nat := UInt64.size - 1

/-- Arrays and objects opened for one level of a type, at most: a
constraint argument lies in an object, its contents, the list of
constraints, a constraint and its arguments. -/
def levelsPerType : Nat := 5

/-- What an encoder or decoder is asked for. -/
structure Options where
  /-- The greatest depth of a type; a leaf has depth one. -/
  maxDepth : UInt64 := 2048
  /-- Whether the text has lines and blanks. -/
  pretty : Bool := false
deriving DecidableEq, Repr

/-- The greatest nesting of a text or a value, if it is a machine
word. -/
def Options.nestingLimit (o : Options) : Nat :=
  min (levelsPerType * o.maxDepth.toNat) maxWord

/-- The depth reported for a text or value that is nested too deeply. -/
def Options.beyond (o : Options) : Nat := min (o.maxDepth.toNat + 1) maxWord

/-- Why a type is not encoded or decoded. -/
inductive Error where
  /-- The type has a greater depth than allowed, or its encoding is nested
  so deeply that it need not be read. -/
  | depthExceeded (depth : Nat) (max : UInt64)
  /-- The encoding is not that of a type. -/
  | malformed
deriving DecidableEq, Repr

/-- The text of an error. -/
def Error.message : Error → String
  | .depthExceeded depth max =>
    "type nesting depth " ++ toString depth ++ " exceeds maximum of " ++
      toString max.toNat ++ " levels"
  | .malformed => "malformed type encoding"

/-- Accepts types within the limit on depth. -/
def checkDepth (o : Options) (t : Ty) : Except Error Unit :=
  let depth := t.depth
  if o.maxDepth.toNat < depth then .error (.depthExceeded depth o.maxDepth)
  else .ok ()

/-! ## Text -/

/-- The JSON text of a type. -/
def encode (t : Ty) (o : Options := {}) : Except Error String := do
  checkDepth o t
  return if o.pretty then t.toJson.pretty else t.toJson.compact

/-- Reads a type from a JSON text. -/
def decode (text : String) (o : Options := {}) : Except Error Ty := do
  let cs := text.toList
  if Json.textExceeds o.nestingLimit cs then
    throw (.depthExceeded o.beyond o.maxDepth)
  match Json.parse cs with
  | .error _ => throw .malformed
  | .ok j =>
    match Ty.ofJson? j with
    | none => throw .malformed
    | some t =>
      checkDepth o t
      return t

/-! ## Values -/

/-- The JSON value of a type, its keys in ascending order. -/
def toValue (t : Ty) : Except Error Json := do
  checkDepth {} t
  return t.toJson.canonical

/-- Reads a type from a JSON value, seen as a map from keys to
values. -/
def fromValue (j : Json) : Except Error Ty := do
  let o : Options := {}
  let j := j.canonical
  if j.exceeds o.nestingLimit then
    throw (.depthExceeded o.beyond o.maxDepth)
  match Ty.ofJson? j with
  | none => throw .malformed
  | some t =>
    checkDepth o t
    return t

end Codec

end RowTypes
