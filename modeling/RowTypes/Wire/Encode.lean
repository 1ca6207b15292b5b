import RowTypes.Json.Basic
import RowTypes.Ty.Tag

/-!
# Types as JSON

A type is an object with its tag and, if it has any payload, its
contents: one value by itself, several as an array in the order of
definition. Names, constraints and spans are objects of their fields;
what is missing is `null`.
-/

namespace RowTypes

/-- An object with a tag and contents. -/
def Json.tagged (tag : String) (contents : Json) : Json :=
  .obj [("tag", .str tag), ("contents", contents)]

/-- An object with a tag alone. -/
def Json.bare (tag : String) : Json := .obj [("tag", .str tag)]

/-- A value, or `null` in its place. -/
def Json.ofOption {α : Type} (f : α → Json) : Option α → Json
  | some a => f a
  | none => .null

/-- A qualified name as JSON. -/
def Qualified.toJson (q : Qualified) : Json :=
  .obj [("module", .ofOption .str q.module), ("name", .str q.name)]

/-- A position as JSON. -/
def Position.toJson (p : Position) : Json :=
  .obj [("line", .ofUInt32 p.line), ("column", .ofUInt32 p.column)]

/-- A span as JSON. -/
def Span.toJson (s : Span) : Json :=
  .obj [("name", .str s.name), ("start", s.start.toJson), ("end", s.stop.toJson)]

/-- A kind as JSON. -/
def Kind.toJson : Kind → Json
  | .unknown id => .tagged Tag.unknown.name (.ofUInt32 id)
  | .star => .bare Tag.star.name
  | .bang => .bare Tag.bang.name
  | .row k => .tagged Tag.row.name k.toJson
  | .function a b => .tagged Tag.function.name (.arr [a.toJson, b.toJson])
  | .named q => .tagged Tag.named.name q.toJson

namespace Ty

mutual

/-- A type as JSON. -/
def toJson : Ty → Json
  | .unknown id => .tagged Tag.unknown.name (.ofUInt32 id)
  | .var v => .tagged Tag.var.name (.str v)
  | .wildcard => .bare Tag.wildcard.name
  | .constructor q => .tagged Tag.constructor.name q.toJson
  | .app f a => .tagged Tag.app.name (.arr [f.toJson, a.toJson])
  | .forAll v body scope =>
    .tagged Tag.forAll.name
      (.arr [.str v, body.toJson, .ofOption .ofUInt32 scope])
  | .constrained cs body =>
    .tagged Tag.constrained.name
      (.arr [.arr (constraintsToJson cs), body.toJson])
  | .skolem v id scope span =>
    .tagged Tag.skolem.name
      (.arr [.str v, .ofUInt32 id, .ofUInt32 scope, .ofOption Span.toJson span])
  | .rowEmpty => .bare Tag.rowEmpty.name
  | .rowCons l head tail =>
    .tagged Tag.rowCons.name (.arr [.str l, head.toJson, tail.toJson])
  | .kinded type k => .tagged Tag.kinded.name (.arr [type.toJson, k.toJson])
  | .prettyFunction a r =>
    .tagged Tag.prettyFunction.name (.arr [a.toJson, r.toJson])
  | .prettyObject row => .tagged Tag.prettyObject.name row.toJson
  | .prettyForAll vs body =>
    .tagged Tag.prettyForAll.name (.arr [.arr (vs.map .str), body.toJson])

/-- Constraints as JSON. -/
def constraintsToJson : List (Constraint Ty) → List Json
  | [] => []
  | ⟨q, args⟩ :: cs =>
    .obj [("class", q.toJson), ("args", .arr (argsToJson args))] ::
      constraintsToJson cs

/-- A list of types as JSON. -/
def argsToJson : List Ty → List Json
  | [] => []
  | t :: ts => t.toJson :: argsToJson ts

end

end Ty

end RowTypes
