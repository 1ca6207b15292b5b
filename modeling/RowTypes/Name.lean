/-!
# Names

Variable names and row labels are plain strings, and a `NameSet` holds
finitely many of them. A `Qualified` name may carry the module it comes
from; its dotted path is split at the last dot (`Qualified.ofPath`) and
written back by `Qualified.render`. A `Span` says where in a source file
a skolem constant was introduced.

Text is produced as characters put in front of a given rest, so that a
long text is built in one pass.
-/

namespace RowTypes

/-- Name of a type variable or of its binder. -/
abbrev Name := String

/-- Label of a row entry. -/
abbrev Label := String

/-- Number of the quantifier instantiation that a skolem belongs to. -/
abbrev SkolemScope := UInt32

/-- The decimal digits of `n` in front of `rest`. -/
def renderNat (n : Nat) (rest : List Char) : List Char :=
  Nat.toDigits 10 n ++ rest

/-! ## Sets of names -/

/-- A finite set of names. -/
@[ext]
structure NameSet where
  names : List Name
  nodup : names.Nodup

namespace NameSet

/-- No name. -/
def empty : NameSet := ⟨[], .nil⟩

instance : Membership Name NameSet := ⟨fun s v => v ∈ s.names⟩

instance (v : Name) (s : NameSet) : Decidable (v ∈ s) :=
  inferInstanceAs (Decidable (v ∈ s.names))

/-- Puts a name in, and tells whether it was missing. -/
def insert (s : NameSet) (v : Name) : Bool × NameSet :=
  if h : v ∈ s.names then (false, s)
  else (true, ⟨v :: s.names, List.nodup_cons.mpr ⟨h, s.nodup⟩⟩)

/-- Takes a name out. -/
def erase (s : NameSet) (v : Name) : NameSet :=
  ⟨s.names.erase v, s.nodup.sublist List.erase_sublist⟩

theorem insert_of_mem {s : NameSet} {v : Name} (h : v ∈ s) : s.insert v = (false, s) :=
  dif_pos h

theorem insert_of_not_mem {s : NameSet} {v : Name} (h : v ∉ s) :
    s.insert v = (true, ⟨v :: s.names, List.nodup_cons.mpr ⟨h, s.nodup⟩⟩) :=
  dif_neg h

theorem mem_insert {s : NameSet} {v x : Name} : x ∈ (s.insert v).2 ↔ x = v ∨ x ∈ s := by
  by_cases h : v ∈ s
  · rw [insert_of_mem h, or_iff_right_of_imp]
    rintro rfl
    exact h
  · rw [insert_of_not_mem h]
    exact List.mem_cons

/-- A name that was missing can be taken out again. -/
theorem erase_insert {s : NameSet} {v : Name} (h : v ∉ s) : (s.insert v).2.erase v = s := by
  rw [insert_of_not_mem h]
  exact NameSet.ext (List.erase_cons_head ..)

end NameSet

/-! ## Qualified names -/

/-- Name of a constructor, class or kind, with its module if it has one. -/
structure Qualified where
  module : Option String
  name : String
deriving DecidableEq, Repr

/-- Splits at the last dot; `none` if there is no dot. -/
def splitLastDot : List Char → Option (List Char × List Char)
  | [] => none
  | c :: cs =>
    match splitLastDot cs with
    | some (before, after) => some (c :: before, after)
    | none => if c = '.' then some ([], cs) else none

namespace Qualified

/-- Reads a dotted path: what stands after the last dot is the name, what
stands before it is the module. -/
def ofPath (path : String) : Qualified :=
  match splitLastDot path.toList with
  | some (before, after) => ⟨some (String.ofList before), String.ofList after⟩
  | none => ⟨none, path⟩

/-- The dotted path in front of `rest`. -/
def render (q : Qualified) (rest : List Char) : List Char :=
  match q.module with
  | some m => m.toList ++ '.' :: (q.name.toList ++ rest)
  | none => q.name.toList ++ rest

/-- The dotted path. -/
def text (q : Qualified) : String := String.ofList (q.render [])

end Qualified

/-! ## Source spans -/

/-- A place in a source file. -/
structure Position where
  line : UInt32
  column : UInt32
deriving DecidableEq, Repr

/-- A stretch of a named source file. -/
structure Span where
  name : String
  start : Position
  stop : Position
deriving DecidableEq, Repr

end RowTypes
