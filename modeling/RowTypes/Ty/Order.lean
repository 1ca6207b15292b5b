import RowTypes.Ty.Basic

/-!
# Order

Types are ordered by form, in the order of definition, and then field by
field from left to right; a missing option comes before a present one,
and lists are compared like words. All of this is the word order of one
spelling of a type: its fields in sequence, each form and each option
announced by a number, each list element by a one and the end of a list
by a zero. The spelling determines the type (`spell_inj`), so equality
of types is decided by it as well.
-/

namespace RowTypes

/-- One symbol of a spelling. -/
inductive Symbol where
  | number (n : Nat)
  | word (s : String)
deriving DecidableEq, Repr

namespace Symbol

/-- Numbers by size, words by their characters, numbers before words. -/
def compare : Symbol → Symbol → Ordering
  | .number m, .number n => Ord.compare m n
  | .number _, .word _ => .lt
  | .word _, .number _ => .gt
  | .word s, .word t => Ord.compare s t

instance : Ord Symbol := ⟨compare⟩

end Symbol

/-! ## Spellings -/

/-- Spells an option. -/
def spellOption {α : Type} (spell : α → List Symbol → List Symbol) :
    Option α → List Symbol → List Symbol
  | none, rest => .number 0 :: rest
  | some a, rest => .number 1 :: spell a rest

/-- Spells a list. -/
def spellList {α : Type} (spell : α → List Symbol → List Symbol) :
    List α → List Symbol → List Symbol
  | [], rest => .number 0 :: rest
  | a :: as, rest => .number 1 :: spell a (spellList spell as rest)

/-- Spells a string. -/
def spellWord (s : String) (rest : List Symbol) : List Symbol :=
  .word s :: rest

/-- Spells a machine number. -/
def spellNumber (n : UInt32) (rest : List Symbol) : List Symbol :=
  .number n.toNat :: rest

/-- Spells a qualified name. -/
def Qualified.spell (q : Qualified) (rest : List Symbol) : List Symbol :=
  spellOption spellWord q.module (spellWord q.name rest)

/-- Spells a position. -/
def Position.spell (p : Position) (rest : List Symbol) : List Symbol :=
  spellNumber p.line (spellNumber p.column rest)

/-- Spells a span. -/
def Span.spell (s : Span) (rest : List Symbol) : List Symbol :=
  spellWord s.name (s.start.spell (s.stop.spell rest))

/-- Spells a kind. -/
def Kind.spell : Kind → List Symbol → List Symbol
  | .unknown id, rest => .number 0 :: spellNumber id rest
  | .star, rest => .number 1 :: rest
  | .bang, rest => .number 2 :: rest
  | .row k, rest => .number 3 :: k.spell rest
  | .function a b, rest => .number 4 :: a.spell (b.spell rest)
  | .named q, rest => .number 5 :: q.spell rest

namespace Ty

mutual

/-- Spells a type. -/
def spell : Ty → List Symbol → List Symbol
  | .unknown id, rest => .number 0 :: spellNumber id rest
  | .var v, rest => .number 1 :: spellWord v rest
  | .wildcard, rest => .number 2 :: rest
  | .constructor q, rest => .number 3 :: q.spell rest
  | .app f a, rest => .number 4 :: f.spell (a.spell rest)
  | .forAll v body scope, rest =>
    .number 5 :: spellWord v (body.spell (spellOption spellNumber scope rest))
  | .constrained cs body, rest =>
    .number 6 :: spellConstraints cs (body.spell rest)
  | .skolem v id scope span, rest =>
    .number 7 :: spellWord v (spellNumber id (spellNumber scope
      (spellOption Span.spell span rest)))
  | .rowEmpty, rest => .number 8 :: rest
  | .rowCons l head tail, rest =>
    .number 9 :: spellWord l (head.spell (tail.spell rest))
  | .kinded type k, rest => .number 10 :: type.spell (k.spell rest)
  | .prettyFunction a r, rest => .number 11 :: a.spell (r.spell rest)
  | .prettyObject row, rest => .number 12 :: row.spell rest
  | .prettyForAll vs body, rest =>
    .number 13 :: spellList spellWord vs (body.spell rest)

/-- Spells a list of constraints. -/
def spellConstraints : List (Constraint Ty) → List Symbol → List Symbol
  | [], rest => .number 0 :: rest
  | ⟨q, args⟩ :: cs, rest =>
    .number 1 :: q.spell (spellArgs args (spellConstraints cs rest))

/-- Spells a list of types. -/
def spellArgs : List Ty → List Symbol → List Symbol
  | [], rest => .number 0 :: rest
  | t :: ts, rest => .number 1 :: t.spell (spellArgs ts rest)

end

end Ty

/-! ## A spelling determines what it spells -/

/-- A spelling that can be read off the front of any longer one. -/
def Readable {α : Type} (spell : α → List Symbol → List Symbol) : Prop :=
  ∀ a b r s, spell a r = spell b s ↔ a = b ∧ r = s

theorem spellWord_inj : Readable spellWord := by
  simp [Readable, spellWord]

theorem spellNumber_inj : Readable spellNumber := by
  simp [Readable, spellNumber, UInt32.toNat_inj]

theorem spellOption_inj {α : Type} {spell : α → List Symbol → List Symbol}
    (hs : Readable spell) : Readable (spellOption spell) := by
  intro a b r s
  cases a <;> cases b <;> simp [spellOption, hs _ _ r s]

theorem spellList_inj {α : Type} {spell : α → List Symbol → List Symbol}
    (hs : Readable spell) : Readable (spellList spell) := by
  intro a
  induction a with
  | nil => intro b r s; cases b <;> simp [spellList]
  | cons x a ih =>
    intro b r s
    cases b <;> simp [spellList, hs x, ih, and_assoc]

theorem Qualified.spell_inj : Readable Qualified.spell := by
  intro ⟨_, _⟩ ⟨_, _⟩ r s
  simp [spell, spellOption_inj spellWord_inj _ _ _ _, spellWord_inj _ _ _ _, and_assoc]

theorem Position.spell_inj : Readable Position.spell := by
  intro ⟨_, _⟩ ⟨_, _⟩ r s
  simp [spell, spellNumber_inj _ _ _ _, and_assoc]

theorem Span.spell_inj : Readable Span.spell := by
  intro ⟨_, _, _⟩ ⟨_, _, _⟩ r s
  simp [spell, spellWord_inj _ _ _ _, Position.spell_inj _ _ _ _, and_assoc]

theorem Kind.spell_inj : Readable Kind.spell := by
  intro a
  induction a with
  | unknown id => intro b r s; cases b <;> simp [spell, spellNumber_inj _ _ _ _]
  | star => intro b r s; cases b <;> simp [spell]
  | bang => intro b r s; cases b <;> simp [spell]
  | row k ih => intro b r s; cases b <;> simp [spell, ih]
  | function a c iha ihc =>
    intro b r s
    cases b <;> simp [spell, iha, ihc, and_assoc]
  | named q => intro b r s; cases b <;> simp [spell, Qualified.spell_inj _ _ _ _]

namespace Ty

mutual

theorem spell_inj : ∀ (a b : Ty) (r s : List Symbol),
    a.spell r = b.spell s ↔ a = b ∧ r = s
  | .unknown id, b, r, s => by
    cases b <;> simp [spell, spellNumber_inj _ _ _ _]
  | .var v, b, r, s => by
    cases b <;> simp [spell, spellWord_inj _ _ _ _]
  | .wildcard, b, r, s => by
    cases b <;> simp [spell]
  | .constructor q, b, r, s => by
    cases b <;> simp [spell, Qualified.spell_inj _ _ _ _]
  | .app f a, b, r, s => by
    cases b <;> simp [spell, spell_inj f, spell_inj a, and_assoc]
  | .forAll v body scope, b, r, s => by
    cases b <;> simp [spell, spellWord_inj _ _ _ _, spell_inj body,
      spellOption_inj spellNumber_inj _ _ _ _, and_assoc]
  | .constrained cs body, b, r, s => by
    cases b <;> simp [spell, spellConstraints_inj cs, spell_inj body, and_assoc]
  | .skolem v id scope span, b, r, s => by
    cases b <;> simp [spell, spellWord_inj _ _ _ _, spellNumber_inj _ _ _ _,
      spellOption_inj Span.spell_inj _ _ _ _, and_assoc]
  | .rowEmpty, b, r, s => by
    cases b <;> simp [spell]
  | .rowCons l head tail, b, r, s => by
    cases b <;> simp [spell, spellWord_inj _ _ _ _, spell_inj head,
      spell_inj tail, and_assoc]
  | .kinded type k, b, r, s => by
    cases b <;> simp [spell, spell_inj type, Kind.spell_inj _ _ _ _, and_assoc]
  | .prettyFunction f a, b, r, s => by
    cases b <;> simp [spell, spell_inj f, spell_inj a, and_assoc]
  | .prettyObject row, b, r, s => by
    cases b <;> simp [spell, spell_inj row]
  | .prettyForAll vs body, b, r, s => by
    cases b <;> simp [spell, spellList_inj spellWord_inj _ _ _ _,
      spell_inj body, and_assoc]

theorem spellConstraints_inj :
    ∀ (a b : List (Constraint Ty)) (r s : List Symbol),
      spellConstraints a r = spellConstraints b s ↔ a = b ∧ r = s
  | [], b, r, s => by
    rcases b with _ | ⟨⟨_, _⟩, _⟩ <;> simp [spellConstraints]
  | ⟨q, args⟩ :: cs, b, r, s => by
    rcases b with _ | ⟨⟨_, _⟩, _⟩ <;> simp [spellConstraints,
      Qualified.spell_inj _ _ _ _, spellArgs_inj args, spellConstraints_inj cs,
      and_assoc]

theorem spellArgs_inj : ∀ (a b : List Ty) (r s : List Symbol),
    spellArgs a r = spellArgs b s ↔ a = b ∧ r = s
  | [], b, r, s => by
    cases b <;> simp [spellArgs]
  | t :: ts, b, r, s => by
    cases b <;> simp [spellArgs, spell_inj t, spellArgs_inj ts, and_assoc]

end

/-! ## Equality and order of types -/

instance : DecidableEq Ty := fun a b =>
  decidable_of_iff (a.spell [] = b.spell [])
    (by rw [spell_inj]; exact and_iff_left rfl)

/-- The order of types: the word order of their spellings. -/
def compare (a b : Ty) : Ordering :=
  Ord.compare (a.spell []) (b.spell [])

instance : Ord Ty := ⟨compare⟩

/-- The types in ascending order, equal ones kept. -/
def sort (ts : List Ty) : List Ty :=
  ts.mergeSort fun a b => (a.compare b).isLE

/-- One of each group of neighbours that compare as equal. -/
def dedupNeighbours : List Ty → List Ty
  | [] => []
  | [t] => [t]
  | t :: u :: ts =>
    if t.compare u = .eq then dedupNeighbours (u :: ts)
    else t :: dedupNeighbours (u :: ts)

/-- The different types of a list in ascending order, told apart by
comparison. -/
def orderedSet (ts : List Ty) : List Ty := dedupNeighbours (sort ts)

/-- The different types of a list, told apart by equality. -/
def distinct (ts : List Ty) : List Ty := ts.eraseDups

end Ty

end RowTypes
