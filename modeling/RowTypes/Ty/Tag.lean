import RowTypes.Ty.Basic

/-!
# Tags

The form of a type or of a kind without its payload. Each form has a
name of its own, by which encoded types refer to it, and `ofName?`
reads that name back.
-/

namespace RowTypes

namespace Ty

/-- The forms of a type. -/
inductive Tag where
  | unknown | var | wildcard | constructor | app | forAll | constrained
  | skolem | rowEmpty | rowCons | kinded | prettyFunction | prettyObject
  | prettyForAll
deriving DecidableEq, Repr

namespace Tag

/-- The name of a form in encoded types. -/
def name : Tag → String
  | unknown => "TUnknown"
  | var => "TypeVar"
  | wildcard => "TypeWildcard"
  | constructor => "TypeConstructor"
  | app => "TypeApp"
  | forAll => "ForAll"
  | constrained => "ConstrainedType"
  | skolem => "Skolem"
  | rowEmpty => "REmpty"
  | rowCons => "RCons"
  | kinded => "KindedType"
  | prettyFunction => "PrettyPrintFunction"
  | prettyObject => "PrettyPrintObject"
  | prettyForAll => "PrettyPrintForAll"

/-- All forms, in the order of their definition. -/
def all : List Tag :=
  [unknown, var, wildcard, constructor, app, forAll, constrained, skolem,
    rowEmpty, rowCons, kinded, prettyFunction, prettyObject, prettyForAll]

/-- The form with the given name. -/
def ofName? (s : String) : Option Tag := all.find? (·.name = s)

theorem ofName?_name (t : Tag) : ofName? t.name = some t := by
  cases t <;> decide

end Tag

/-- The form of a type. -/
def tag : Ty → Tag
  | .unknown _ => .unknown
  | .var _ => .var
  | .wildcard => .wildcard
  | .constructor _ => .constructor
  | .app _ _ => .app
  | .forAll _ _ _ => .forAll
  | .constrained _ _ => .constrained
  | .skolem _ _ _ _ => .skolem
  | .rowEmpty => .rowEmpty
  | .rowCons _ _ _ => .rowCons
  | .kinded _ _ => .kinded
  | .prettyFunction _ _ => .prettyFunction
  | .prettyObject _ => .prettyObject
  | .prettyForAll _ _ => .prettyForAll

end Ty

namespace Kind

/-- The forms of a kind. -/
inductive Tag where
  | unknown | star | bang | row | function | named
deriving DecidableEq, Repr

namespace Tag

/-- The name of a form in encoded kinds. -/
def name : Tag → String
  | unknown => "KUnknown"
  | star => "Star"
  | bang => "Bang"
  | row => "Row"
  | function => "FunKind"
  | named => "NamedKind"

/-- All forms, in the order of their definition. -/
def all : List Tag := [unknown, star, bang, row, function, named]

/-- The form with the given name. -/
def ofName? (s : String) : Option Tag := all.find? (·.name = s)

theorem ofName?_name (t : Tag) : ofName? t.name = some t := by
  cases t <;> decide

end Tag

/-- The form of a kind. -/
def tag : Kind → Tag
  | .unknown _ => .unknown
  | .star => .star
  | .bang => .bang
  | .row _ => .row
  | .function _ _ => .function
  | .named _ => .named

end Kind

end RowTypes
