import RowTypes.Ty.Basic

/-!
# Displayed form

A compact form of types for messages. Every compound type stands in
brackets of its own; the entries of a row share one pair of them,
however far the row goes on.
-/

namespace RowTypes

/-- Where a type is displayed. -/
inductive Place where
  /-- On its own. -/
  | alone
  /-- As the tail of a row whose bracket is still open. -/
  | tail
deriving DecidableEq, Repr

/-- Displays a type that is not a row: as the tail of a row it comes
after a bar and closes the row. -/
def Place.wrap (place : Place) (body : List Char → List Char)
    (rest : List Char) : List Char :=
  match place with
  | .alone => body rest
  | .tail => ' ' :: '|' :: ' ' :: body (')' :: rest)

namespace Ty

mutual

/-- The displayed form at a place, in front of `rest`. -/
def renderAt (place : Place) : Ty → List Char → List Char
  | .unknown id, rest =>
    place.wrap (fun r => '?' :: renderNat id.toNat r) rest
  | .var v, rest => place.wrap (fun r => v.toList ++ r) rest
  | .wildcard, rest => place.wrap (fun r => '_' :: r) rest
  | .constructor q, rest => place.wrap q.render rest
  | .app f a, rest =>
    place.wrap (fun r =>
      '(' :: f.renderAt .alone (' ' :: a.renderAt .alone (')' :: r))) rest
  | .forAll v body _, rest =>
    place.wrap (fun r => "(forall ".toList ++
      (v.toList ++ '.' :: ' ' :: body.renderAt .alone (')' :: r))) rest
  | .constrained cs body, rest =>
    place.wrap (fun r =>
      '(' :: renderConstraints cs (body.renderAt .alone (')' :: r))) rest
  | .skolem v id _ _, rest =>
    place.wrap (fun r => v.toList ++ '#' :: renderNat id.toNat r) rest
  | .rowEmpty, rest =>
    match place with
    | .alone => '(' :: ')' :: rest
    | .tail => ')' :: rest
  | .rowCons l head tail, rest =>
    (match place with
      | .alone => ['(']
      | .tail => [',', ' ']) ++
      (l.toList ++ ' ' :: ':' :: ':' :: ' ' ::
        head.renderAt .alone (tail.renderAt .tail rest))
  | .kinded type k, rest =>
    place.wrap (fun r =>
      '(' :: type.renderAt .alone (" :: ".toList ++ k.render (')' :: r))) rest
  | .prettyFunction a b, rest =>
    place.wrap (fun r =>
      '(' :: a.renderAt .alone (" -> ".toList ++ b.renderAt .alone (')' :: r))) rest
  | .prettyObject row, rest =>
    place.wrap (fun r => '\x7b' :: row.renderAt .alone ('\x7d' :: r)) rest
  | .prettyForAll vs body, rest =>
    place.wrap (fun r => "(forall".toList ++
      vs.foldr (fun v r => ' ' :: (v.toList ++ r))
        ('.' :: ' ' :: body.renderAt .alone (')' :: r))) rest

/-- Constraints, each followed by an arrow. -/
def renderConstraints : List (Constraint Ty) → List Char → List Char
  | [], rest => rest
  | ⟨q, args⟩ :: cs, rest =>
    q.render (renderArgs args (" => ".toList ++ renderConstraints cs rest))

/-- Types, each with a blank in front. -/
def renderArgs : List Ty → List Char → List Char
  | [], rest => rest
  | t :: ts, rest => ' ' :: t.renderAt .alone (renderArgs ts rest)

end

/-- The displayed form. -/
def text (t : Ty) : String := String.ofList (t.renderAt .alone [])

end Ty

end RowTypes
