import RowTypes.Ty.Order

/-!
# Hashing

A hasher is fed a type value by value: its form, then its fields from
left to right, with the length in front of a list and the form in front
of what an option has. The flags of a node are not fed, since they follow
from the rest. Where the hasher makes a hash of this, a hash set looks for
a type among those of the same hash only, and takes one that is equal
for the type itself.
-/

namespace RowTypes

/-- A value that a hasher is fed. -/
inductive Fed where
  /-- The place of a form among the forms of its type. -/
  | form (place : Nat)
  | number (n : UInt32)
  | text (s : String)
  | length (n : Nat)
deriving DecidableEq, Repr

/-! ## What is fed -/

/-- Feeds an option. -/
def feedOption {α : Type} (feed : α → List Fed → List Fed) : Option α → List Fed → List Fed
  | none, rest => .form 0 :: rest
  | some a, rest => .form 1 :: feed a rest

/-- Feeds a string. -/
def feedText (s : String) (rest : List Fed) : List Fed := .text s :: rest

/-- Feeds a machine number. -/
def feedNumber (n : UInt32) (rest : List Fed) : List Fed := .number n :: rest

/-- Feeds a qualified name. -/
def Qualified.feed (q : Qualified) (rest : List Fed) : List Fed :=
  feedOption feedText q.module (feedText q.name rest)

/-- Feeds a position. -/
def Position.feed (p : Position) (rest : List Fed) : List Fed :=
  feedNumber p.line (feedNumber p.column rest)

/-- Feeds a span. -/
def Span.feed (s : Span) (rest : List Fed) : List Fed :=
  feedText s.name (s.start.feed (s.stop.feed rest))

/-- Feeds a kind. -/
def Kind.feed : Kind → List Fed → List Fed
  | .unknown id, rest => .form 0 :: feedNumber id rest
  | .star, rest => .form 1 :: rest
  | .bang, rest => .form 2 :: rest
  | .row k, rest => .form 3 :: k.feed rest
  | .function a b, rest => .form 4 :: a.feed (b.feed rest)
  | .named q, rest => .form 5 :: q.feed rest

namespace Ty

mutual

/-- Feeds a type. -/
def feed : Ty → List Fed → List Fed
  | .unknown id, rest => .form 0 :: feedNumber id rest
  | .var v, rest => .form 1 :: feedText v rest
  | .wildcard, rest => .form 2 :: rest
  | .constructor q, rest => .form 3 :: q.feed rest
  | .app f a, rest => .form 4 :: f.feed (a.feed rest)
  | .forAll v body scope, rest =>
    .form 5 :: feedText v (body.feed (feedOption feedNumber scope rest))
  | .constrained cs body, rest =>
    .form 6 :: .length cs.length :: feedConstraints cs (body.feed rest)
  | .skolem v id scope span, rest =>
    .form 7 :: feedText v (feedNumber id (feedNumber scope (feedOption Span.feed span rest)))
  | .rowEmpty, rest => .form 8 :: rest
  | .rowCons l head tail, rest => .form 9 :: feedText l (head.feed (tail.feed rest))
  | .kinded type k, rest => .form 10 :: type.feed (k.feed rest)
  | .prettyFunction a r, rest => .form 11 :: a.feed (r.feed rest)
  | .prettyObject row, rest => .form 12 :: row.feed rest
  | .prettyForAll vs body, rest =>
    .form 13 :: .length vs.length :: vs.foldr feedText (body.feed rest)

/-- Feeds constraints, without their number. -/
def feedConstraints : List (Constraint Ty) → List Fed → List Fed
  | [], rest => rest
  | ⟨q, args⟩ :: cs, rest =>
    q.feed (.length args.length :: feedArgs args (feedConstraints cs rest))

/-- Feeds types, without their number. -/
def feedArgs : List Ty → List Fed → List Fed
  | [], rest => rest
  | t :: ts, rest => t.feed (feedArgs ts rest)

end

/-! ## Hash sets -/

/-- The hash of a type, by a hasher that makes hashes of what it is
fed. -/
def hash (hasher : List Fed → UInt64) (t : Ty) : UInt64 := hasher (t.feed [])

/-- Puts a type into a hash set, unless an equal one is found where its
hash points. -/
def insertHashed (hasher : List Fed → UInt64) (set : List Ty) (t : Ty) : List Ty :=
  if set.any fun u => u.hash hasher == t.hash hasher && u == t then set else set ++ [t]

/-- The different types of a list, told apart by hash and then by
equality. -/
def hashSet (hasher : List Fed → UInt64) (ts : List Ty) : List Ty :=
  ts.foldl (insertHashed hasher) []

end Ty

end RowTypes
