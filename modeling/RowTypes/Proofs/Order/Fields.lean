import RowTypes.Ty.Order

/-!
# The order field by field

The order of types compares spellings symbol by symbol. `compareFields`
is the same order without spellings: types of different forms compare as
their forms do in the order of definition, and types of one form by their
fields, from left to right. The two agree (`compare_eq_compareFields`),
because spellings are compared before what follows them, and what
follows them only where they are equal (`Spells`).
-/

namespace RowTypes

/-! ## Comparison by fields -/

instance : Ord Qualified where
  compare q r := (compare q.module r.module).then (compare q.name r.name)

instance : Ord Position where
  compare p q := (compare p.line q.line).then (compare p.column q.column)

instance : Ord Span where
  compare s t :=
    (compare s.name t.name).then ((compare s.start t.start).then (compare s.stop t.stop))

/-- Compares kinds of one form by their fields, other kinds by form. -/
def Kind.compareFields : Kind → Kind → Ordering
  | .unknown m, .unknown n => compare m n
  | .row k, .row l => k.compareFields l
  | .function a b, .function c d => (a.compareFields c).then (b.compareFields d)
  | .named q, .named r => compare q r
  | k, l => compare k.ctorIdx l.ctorIdx

instance : Ord Kind := ⟨Kind.compareFields⟩

namespace Ty

mutual

/-- Compares types of one form by their fields, other types by form. -/
def compareFields : Ty → Ty → Ordering
  | .unknown m, .unknown n => Ord.compare m n
  | .var v, .var w => Ord.compare v w
  | .constructor q, .constructor r => Ord.compare q r
  | .app f a, .app g b => (f.compareFields g).then (a.compareFields b)
  | .forAll v body scope, .forAll w body' scope' =>
    (Ord.compare v w).then ((body.compareFields body').then (Ord.compare scope scope'))
  | .constrained cs body, .constrained ds body' =>
    (compareConstraints cs ds).then (body.compareFields body')
  | .skolem v m scope span, .skolem w n scope' span' =>
    (Ord.compare v w).then ((Ord.compare m n).then
      ((Ord.compare scope scope').then (Ord.compare span span')))
  | .rowCons l head tail, .rowCons m head' tail' =>
    (Ord.compare l m).then ((head.compareFields head').then (tail.compareFields tail'))
  | .kinded t k, .kinded u l => (t.compareFields u).then (Ord.compare k l)
  | .prettyFunction a r, .prettyFunction b s =>
    (a.compareFields b).then (r.compareFields s)
  | .prettyObject row, .prettyObject row' => row.compareFields row'
  | .prettyForAll vs body, .prettyForAll ws body' =>
    (Ord.compare vs ws).then (body.compareFields body')
  | t, u => Ord.compare t.ctorIdx u.ctorIdx

/-- Compares lists of constraints like words, and two constraints by class
and then by arguments. -/
def compareConstraints : List (Constraint Ty) → List (Constraint Ty) → Ordering
  | [], [] => .eq
  | [], _ :: _ => .lt
  | _ :: _, [] => .gt
  | ⟨q, ts⟩ :: cs, ⟨r, us⟩ :: ds =>
    ((Ord.compare q r).then (compareArgs ts us)).then (compareConstraints cs ds)

/-- Compares lists of types like words. -/
def compareArgs : List Ty → List Ty → Ordering
  | [], [] => .eq
  | [], _ :: _ => .lt
  | _ :: _, [] => .gt
  | t :: ts, u :: us => (t.compareFields u).then (compareArgs ts us)

end

end Ty

/-! ## Spellings are compared in order -/

/-- Where two values are spelled out in front of other symbols, they are
compared first and what follows them second. -/
def Spells {α : Type} [Ord α] (spell : α → List Symbol → List Symbol) : Prop :=
  ∀ a b r s, compare (spell a r) (spell b s) = (compare a b).then (compare r s)

/-- Two spellings that begin with the same number differ only after it. -/
theorem compare_number (n : Nat) (r s : List Symbol) :
    compare (Symbol.number n :: r) (.number n :: s) = compare r s := by
  have hn : compare (Symbol.number n) (.number n) = .eq := Nat.compare_eq_eq.mpr rfl
  rw [List.compare_cons_cons, hn]
  rfl

theorem spells_word : Spells spellWord :=
  fun _ _ _ _ => List.compare_cons_cons

theorem spells_number : Spells spellNumber := by
  intro m n r s
  have hn : compare (Symbol.number m.toNat) (.number n.toNat) = compare m n := by
    show compare m.toNat n.toNat = compare m n
    simp only [compare, compareOfLessAndEq, UInt32.lt_iff_toNat_lt, UInt32.toNat_inj]
  rw [spellNumber, spellNumber, List.compare_cons_cons, hn]

section

variable {α : Type} [Ord α] {spell : α → List Symbol → List Symbol}

theorem spells_option (h : Spells spell) : Spells (spellOption spell)
  | none, none, _, _ => rfl
  | none, some _, _, _ => rfl
  | some _, none, _, _ => rfl
  | some a, some b, r, s => (compare_number 1 _ _).trans (h a b r s)

theorem spells_list (h : Spells spell) : Spells (spellList spell)
  | [], [], _, _ => rfl
  | [], _ :: _, _, _ => rfl
  | _ :: _, [], _, _ => rfl
  | a :: as, b :: bs, r, s => by
      rw [spellList, spellList, compare_number, h, spells_list h as bs, List.compare_cons_cons,
        Ordering.then_assoc]

end

theorem Qualified.spells : Spells Qualified.spell := by
  intro q q' r s
  rw [spell, spell, spells_option spells_word, spells_word, ← Ordering.then_assoc]
  rfl

theorem Position.spells : Spells Position.spell := by
  intro p q r s
  rw [spell, spell, spells_number, spells_number, ← Ordering.then_assoc]
  rfl

theorem Span.spells : Spells Span.spell := by
  intro p q r s
  have hfields : compare p q = (compare p.name q.name).then
      ((compare p.start q.start).then (compare p.stop q.stop)) := rfl
  rw [spell, spell, spells_word, Position.spells, Position.spells, hfields, Ordering.then_assoc,
    Ordering.then_assoc]

theorem Kind.spells : Spells Kind.spell
  | .unknown m, l, r, s => by
      cases l with
      | unknown n => exact spells_number m n r s
      | _ => rfl
  | .star, l, r, s => by cases l <;> rfl
  | .bang, l, r, s => by cases l <;> rfl
  | .row k, l, r, s => by
      cases l with
      | row l => exact Kind.spells k l r s
      | _ => rfl
  | .function a b, l, r, s => by
      cases l with
      | function c d =>
          have hfields : compare (function a b) (function c d) =
            (compare a c).then (compare b d) := rfl
          rw [spell, spell, compare_number, Kind.spells a, Kind.spells b, hfields,
            Ordering.then_assoc]
      | _ => rfl
  | .named q, l, r, s => by
      cases l with
      | named q' => exact Qualified.spells q q' r s
      | _ => rfl

namespace Ty

mutual

theorem spells : ∀ (t u : Ty) (r s : List Symbol),
    Ord.compare (t.spell r) (u.spell s) = (t.compareFields u).then (Ord.compare r s)
  | .unknown m, u, r, s => by
      cases u with
      | unknown n => exact spells_number m n r s
      | _ => rfl
  | .var v, u, r, s => by
      cases u with
      | var w => exact spells_word v w r s
      | _ => rfl
  | .wildcard, u, r, s => by cases u <;> rfl
  | .constructor q, u, r, s => by
      cases u with
      | constructor q' => exact Qualified.spells q q' r s
      | _ => rfl
  | .app f a, u, r, s => by
      cases u with
      | app g b =>
          simp only [spell, compareFields, compare_number, spells f, spells a,
            Ordering.then_assoc]
      | _ => rfl
  | .forAll v body scope, u, r, s => by
      cases u with
      | forAll w body' scope' =>
          simp only [spell, compareFields, compare_number, spells_word v, spells body,
            spells_option spells_number scope, Ordering.then_assoc]
      | _ => rfl
  | .constrained cs body, u, r, s => by
      cases u with
      | constrained ds body' =>
          simp only [spell, compareFields, compare_number, spells_constraints cs, spells body,
            Ordering.then_assoc]
      | _ => rfl
  | .skolem v m scope span, u, r, s => by
      cases u with
      | skolem w n scope' span' =>
          simp only [spell, compareFields, compare_number, spells_word v, spells_number m,
            spells_number scope, spells_option Span.spells span, Ordering.then_assoc]
      | _ => rfl
  | .rowEmpty, u, r, s => by cases u <;> rfl
  | .rowCons l head tail, u, r, s => by
      cases u with
      | rowCons m head' tail' =>
          simp only [spell, compareFields, compare_number, spells_word l, spells head,
            spells tail, Ordering.then_assoc]
      | _ => rfl
  | .kinded t k, u, r, s => by
      cases u with
      | kinded u l =>
          simp only [spell, compareFields, compare_number, spells t, Kind.spells k,
            Ordering.then_assoc]
      | _ => rfl
  | .prettyFunction a q, u, r, s => by
      cases u with
      | prettyFunction b q' =>
          simp only [spell, compareFields, compare_number, spells a, spells q,
            Ordering.then_assoc]
      | _ => rfl
  | .prettyObject row, u, r, s => by
      cases u with
      | prettyObject row' => exact spells row row' r s
      | _ => rfl
  | .prettyForAll vs body, u, r, s => by
      cases u with
      | prettyForAll ws body' =>
          simp only [spell, compareFields, compare_number, spells_list spells_word vs,
            spells body, Ordering.then_assoc]
      | _ => rfl

theorem spells_constraints : ∀ (cs ds : List (Constraint Ty)) (r s : List Symbol),
    Ord.compare (spellConstraints cs r) (spellConstraints ds s) =
      (compareConstraints cs ds).then (Ord.compare r s)
  | [], [], _, _ => rfl
  | [], _ :: _, _, _ => rfl
  | _ :: _, [], _, _ => rfl
  | ⟨q, ts⟩ :: cs, ⟨q', us⟩ :: ds, r, s => by
      simp only [spellConstraints, compareConstraints, compare_number, Qualified.spells q,
        spells_args ts, spells_constraints cs, Ordering.then_assoc]

theorem spells_args : ∀ (ts us : List Ty) (r s : List Symbol),
    Ord.compare (spellArgs ts r) (spellArgs us s) =
      (compareArgs ts us).then (Ord.compare r s)
  | [], [], _, _ => rfl
  | [], _ :: _, _, _ => rfl
  | _ :: _, [], _, _ => rfl
  | t :: ts, u :: us, r, s => by
      simp only [spellArgs, compareArgs, compare_number, spells t, spells_args ts,
        Ordering.then_assoc]

end

/-- Comparing spellings is comparing fields. -/
theorem compare_eq_compareFields (t u : Ty) : t.compare u = t.compareFields u := by
  have hend : Ord.compare ([] : List Symbol) [] = .eq := rfl
  rw [compare, spells, hend, Ordering.then_eq]

/-- The body counts before the scope, though it stands inside the node. -/
example : (forAll "a" (.var "b") (some 1)).compare (.forAll "a" (.var "c") none) = .lt := by
  decide

end Ty

end RowTypes
