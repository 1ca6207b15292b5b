import RowTypes.Name

/-!
# Kinds

The kinds that an annotation may carry. They are payload: nothing here
infers or checks them.
-/

namespace RowTypes

/-- The kind of a kind annotation. -/
inductive Kind where
  /-- A kind still to be found. -/
  | unknown (id : UInt32)
  /-- The kind of types of values. -/
  | star
  /-- The kind of effects. -/
  | bang
  /-- The kind of rows whose entries have the given kind. -/
  | row (entry : Kind)
  | function (argument result : Kind)
  | named (name : Qualified)
deriving DecidableEq, Repr

namespace Kind

/-- The displayed form in front of `rest`; every compound kind stands in
parentheses. -/
def render : Kind → List Char → List Char
  | .unknown id, rest => '?' :: renderNat id.toNat rest
  | .star, rest => '*' :: rest
  | .bang, rest => '!' :: rest
  | .row k, rest => '(' :: '#' :: ' ' :: k.render (')' :: rest)
  | .function a b, rest =>
    '(' :: a.render (' ' :: '-' :: '>' :: ' ' :: b.render (')' :: rest))
  | .named q, rest => q.render rest

end Kind

end RowTypes
