import RowTypes.Ty.Basic

/-!
# Rows

A row is written as a chain of entries. `toRow` reads the entries of a
type up to the first node that is not an entry, the tail; `ofRow` puts
entries in front of a tail. Labels may repeat and the tail may be any
type.
-/

namespace RowTypes

namespace Ty

/-- The entries of a row, in order, and its tail. A type that is not a
row has no entries and is its own tail. -/
def toRow : Ty → List (Label × Ty) × Ty
  | .rowCons l head tail =>
    let (fields, last) := tail.toRow
    ((l, head) :: fields, last)
  | t => ([], t)

/-- The row with the given entries in front of a tail. -/
def ofRow (fields : List (Label × Ty)) (tail : Ty) : Ty :=
  fields.foldr (fun (l, head) rest => .rowCons l head rest) tail

end Ty

end RowTypes
