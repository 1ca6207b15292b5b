import RowTypes.Json.Basic
import RowTypes.Ty.Tag

/-!
# Types from JSON

Reads types from JSON values of the shapes that `Ty.toJson` gives and of
some others: an object may have its fields in any order and further ones
besides, or be an array of its fields in the order of definition. In an
object, a tag `t` may be written as an object with the one key `t` and
the value `null`.

Contents that come before their tag have to be kept until the tag says
what they are. What is kept is `held`: all of it has to be readable, even
where it is passed over otherwise, and tags inside it may be written in
two more ways. In an object, a tag `t` may be an object with the one key
`t` and an empty object as the value; in an array, a tag may be the number
of its place among all tags.
-/

namespace RowTypes

namespace Json

/-! ## Fields -/

/-- The value of a key, if it has one; fails if it has several. -/
def field? (key : String) (fields : List (String × Json)) : Option (Option Json) :=
  match fields.filter (·.1 = key) with
  | [] => some none
  | [(_, j)] => some (some j)
  | _ => none

/-- The values of the given keys. An array has all of them. -/
def record? (keys : List String) : Json → Option (List (Option Json))
  | .arr items => if items.length = keys.length then some (items.map some) else none
  | .obj fields => keys.mapM (field? · fields)
  | _ => none

/-- Reads a value that may be `null` or missing. -/
def optional? {α : Type} (f : Json → Option α) : Option Json → Option (Option α)
  | none => some none
  | some .null => some none
  | some j => (f j).map some

/-! ## Tags and contents -/

/-- What a value says of its tag. -/
inductive TagRef where
  /-- The name of the tag. -/
  | name (s : String)
  /-- The place of the tag among all tags, counted from zero. -/
  | place (n : Nat)
deriving DecidableEq, Repr

/-- A tag with its contents, if it has any. -/
structure Tagged where
  tag : TagRef
  contents : Option Json
  /-- Whether the contents are held. -/
  held : Bool

/-- The tag that the value of a key says. -/
def fieldTag? (held : Bool) : Json → Option TagRef
  | .str s => some (.name s)
  | .obj [(s, .null)] => some (.name s)
  | .obj [(s, .obj [])] => if held then some (.name s) else none
  | _ => none

/-- The tag that the first item of an array says. -/
def itemTag? (held : Bool) : Json → Option TagRef
  | .str s => some (.name s)
  | .num n => if held then n.toNat?.map .place else none
  | _ => none

/-- Whether the contents of an object come before its tag. -/
def contentsFirst (fields : List (String × Json)) : Bool :=
  match fields.find? fun f => f.1 = "tag" || f.1 = "contents" with
  | some (key, _) => key = "contents"
  | none => false

/-- The tag and the contents of a value. -/
def tagged? (held : Bool) : Json → Option Tagged
  | .arr [tag, contents] => do
    return ⟨← itemTag? held tag, some contents, held⟩
  | .obj fields => do
    let tag ← (← field? "tag" fields)
    let contents ← field? "contents" fields
    let tag ← fieldTag? held tag
    if contentsFirst fields && !held then
      guard (contents.all readable)
      return ⟨tag, contents, true⟩
    else return ⟨tag, contents, held⟩
  | _ => none

end Json

/-! ## Names, spans and kinds -/

/-- Reads a qualified name; the module may be missing. -/
def Qualified.ofJson? (j : Json) : Option Qualified := do
  match ← j.record? ["module", "name"] with
  | [module, some name] =>
    return ⟨← Json.optional? Json.toString? module, ← name.toString?⟩
  | _ => none

/-- Reads a position. -/
def Position.ofJson? (j : Json) : Option Position := do
  match ← j.record? ["line", "column"] with
  | [some line, some column] => return ⟨← line.toUInt32?, ← column.toUInt32?⟩
  | _ => none

/-- Reads a span. -/
def Span.ofJson? (j : Json) : Option Span := do
  match ← j.record? ["name", "start", "end"] with
  | [some name, some start, some stop] =>
    return ⟨← name.toString?, ← Position.ofJson? start, ← Position.ofJson? stop⟩
  | _ => none

/-- The form of a kind that a reference means. -/
def Kind.Tag.ofRef? : Json.TagRef → Option Tag
  | .name s => ofName? s
  | .place n => all[n]?

/-- Reads a kind that is nested in no more than the given number of
levels of JSON. -/
def Kind.ofJson? : (levels : Nat) → (held : Bool) → Json → Option Kind
  | 0, _, _ => none
  | levels + 1, held, j => do
    let ⟨tag, contents, held⟩ ← j.tagged? held
    match ← Tag.ofRef? tag, contents with
    | .unknown, some j => return .unknown (← j.toUInt32?)
    | .star, none | .star, some .null => return .star
    | .bang, none | .bang, some .null => return .bang
    | .row, some j => return .row (← Kind.ofJson? levels held j)
    | .function, some (.arr [a, b]) =>
      return .function (← Kind.ofJson? levels held a) (← Kind.ofJson? levels held b)
    | .named, some j => return .named (← Qualified.ofJson? j)
    | _, _ => none

/-! ## Types -/

namespace Ty

/-- The form of a type that a reference means. -/
def Tag.ofRef? : Json.TagRef → Option Tag
  | .name s => ofName? s
  | .place n => all[n]?

/-- Reads a constraint, given a reader of types. -/
def constraintOfJson? (ofJson? : Json → Option Ty) (j : Json) :
    Option (Constraint Ty) := do
  match ← j.record? ["class", "args"] with
  | [some className, some (.arr args)] =>
    return ⟨← Qualified.ofJson? className, ← args.mapM ofJson?⟩
  | _ => none

/-- Reads a type that is nested in no more than the given number of
levels of JSON. -/
def ofJsonWithin? : (levels : Nat) → (held : Bool) → Json → Option Ty
  | 0, _, _ => none
  | levels + 1, held, j => do
    let ⟨tag, contents, held⟩ ← j.tagged? held
    let ofJson? := ofJsonWithin? levels held
    match ← Tag.ofRef? tag, contents with
    | .unknown, some j => return .unknown (← j.toUInt32?)
    | .var, some j => return .var (← j.toString?)
    | .wildcard, none | .wildcard, some .null => return .wildcard
    | .constructor, some j => return .constructor (← Qualified.ofJson? j)
    | .app, some (.arr [f, a]) => return .app (← ofJson? f) (← ofJson? a)
    | .forAll, some (.arr [v, body, scope]) =>
      return .forAll (← v.toString?) (← ofJson? body)
        (← Json.optional? Json.toUInt32? (some scope))
    | .constrained, some (.arr [.arr cs, body]) =>
      return .constrained (← cs.mapM (constraintOfJson? ofJson?)) (← ofJson? body)
    | .skolem, some (.arr [v, id, scope, span]) =>
      return .skolem (← v.toString?) (← id.toUInt32?) (← scope.toUInt32?)
        (← Json.optional? Span.ofJson? (some span))
    | .rowEmpty, none | .rowEmpty, some .null => return .rowEmpty
    | .rowCons, some (.arr [l, head, tail]) =>
      return .rowCons (← l.toString?) (← ofJson? head) (← ofJson? tail)
    | .kinded, some (.arr [type, k]) =>
      return .kinded (← ofJson? type) (← Kind.ofJson? levels held k)
    | .prettyFunction, some (.arr [a, r]) =>
      return .prettyFunction (← ofJson? a) (← ofJson? r)
    | .prettyObject, some j => return .prettyObject (← ofJson? j)
    | .prettyForAll, some (.arr [.arr vs, body]) =>
      return .prettyForAll (← vs.mapM Json.toString?) (← ofJson? body)
    | _, _ => none

/-- Reads a type. -/
def ofJson? (j : Json) : Option Ty := ofJsonWithin? (j.depth + 1) false j

end Ty

end RowTypes
