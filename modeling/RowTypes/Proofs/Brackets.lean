import RowTypes.Name

/-!
# Brackets

When the parentheses and braces of a text are properly nested. `Balanced`
says so by a grammar; reading the text with a stack of the brackets that
have to be closed comes to the same answer (`balanced_iff`). A text is
`Enclosed` if it is one bracket with all that it closes.

For texts that are written in front of a given rest, `Spans` and `Wraps`
say of what stands in front of the rest that it is balanced or enclosed.
-/

namespace RowTypes

namespace Brackets

/-! ## Balanced texts -/

/-- The bracket that closes an opening one. -/
def closing? (c : Char) : Option Char :=
  if c = '(' then some ')' else if c = '\x7b' then some '\x7d' else none

/-- Whether a character opens or closes a bracket. -/
def isBracket (c : Char) : Bool := c = '(' || c = ')' || c = '\x7b' || c = '\x7d'

/-- Every bracket is closed by its like, and all that is opened inside is
closed inside. -/
inductive Balanced : List Char → Prop where
  | nil : Balanced []
  | plain {c : Char} {cs : List Char} (hc : isBracket c = false) (h : Balanced cs) :
    Balanced (c :: cs)
  | group {o c : Char} {inner rest : List Char} (hc : closing? o = some c)
    (hinner : Balanced inner) (hrest : Balanced rest) : Balanced (o :: (inner ++ c :: rest))

/-- The last character closes the bracket that the first one opens. -/
def Enclosed (cs : List Char) : Prop :=
  ∃ o c inner, closing? o = some c ∧ Balanced inner ∧ cs = o :: (inner ++ [c])

theorem Balanced.append {cs ds : List Char} (h : Balanced cs) (hds : Balanced ds) :
    Balanced (cs ++ ds) := by
  induction h with
  | nil => exact hds
  | plain hc _ ih => exact .plain hc ih
  | group hc hinner _ _ ih =>
      rw [List.cons_append, List.append_assoc, List.cons_append]
      exact .group hc hinner ih

theorem closing?_cases {o c : Char} (h : closing? o = some c) :
    (o = '(' ∧ c = ')') ∨ (o = '\x7b' ∧ c = '\x7d') := by
  rw [closing?] at h
  split at h
  · next ho =>
    cases h
    exact .inl ⟨ho, rfl⟩
  · split at h
    · next ho =>
      cases h
      exact .inr ⟨ho, rfl⟩
    · cases h

theorem closing?_plain {c : Char} (h : isBracket c = false) : closing? c = none := by
  simp only [isBracket, Bool.or_eq_false_iff, decide_eq_false_iff_not] at h
  obtain ⟨⟨⟨hopen, -⟩, hopen'⟩, -⟩ := h
  rw [closing?, if_neg hopen, if_neg hopen']

/-! ## Reading brackets -/

/-- Reads a text with the brackets that have yet to be closed, each given
by the one that closes it and the innermost first. -/
def closes : (expected : List Char) → List Char → Bool
  | expected, [] => expected.isEmpty
  | expected, c :: cs =>
    match closing? c with
    | some d => closes (d :: expected) cs
    | none =>
      if isBracket c then expected.head? = some c && closes expected.tail cs
      else closes expected cs

theorem closes_opening {o c : Char} (h : closing? o = some c) (expected cs : List Char) :
    closes expected (o :: cs) = closes (c :: expected) cs := by
  rw [closes, h]

theorem closes_closing {o c : Char} (h : closing? o = some c) (expected cs : List Char) :
    closes (c :: expected) (c :: cs) = closes expected cs := by
  rcases closing?_cases h with ⟨-, rfl⟩ | ⟨-, rfl⟩ <;> simp [closes, closing?, isBracket]

theorem closes_plain {c : Char} (h : isBracket c = false) (expected cs : List Char) :
    closes expected (c :: cs) = closes expected cs := by
  simp only [closes, closing?_plain h, h, Bool.false_eq_true, if_false]

/-- A balanced text leaves what is yet to be closed as it was. -/
theorem closes_balanced {cs : List Char} (h : Balanced cs) (expected rest : List Char) :
    closes expected (cs ++ rest) = closes expected rest := by
  induction h generalizing expected rest with
  | nil => rfl
  | plain hc _ ih => rw [List.cons_append, closes_plain hc, ih]
  | group hc _ _ ihinner ihrest =>
      rw [List.cons_append, List.append_assoc, List.cons_append, closes_opening hc, ihinner,
        closes_closing hc, ihrest]

/-- A text in which balanced parts stand between the brackets expected and
at both ends. -/
def Fills : (expected : List Char) → List Char → Prop
  | [], cs => Balanced cs
  | d :: expected, cs => ∃ inner rest, Balanced inner ∧ Fills expected rest ∧
    cs = inner ++ d :: rest

theorem Fills.append {expected cs ds : List Char} (hcs : Balanced cs) (h : Fills expected ds) :
    Fills expected (cs ++ ds) := by
  cases expected with
  | nil => exact hcs.append h
  | cons d expected =>
      obtain ⟨inner, rest, hinner, hrest, rfl⟩ := h
      exact ⟨cs ++ inner, rest, hcs.append hinner, hrest, by rw [List.append_assoc]⟩

theorem fills_of_closes {expected cs : List Char} (h : closes expected cs) :
    Fills expected cs := by
  induction cs generalizing expected with
  | nil =>
      rw [closes, List.isEmpty_iff] at h
      subst h
      exact .nil
  | cons c cs ih =>
      cases hclosing : closing? c with
      | some d =>
          -- the group that is opened here goes in front of the part that follows it
          rw [closes_opening hclosing] at h
          obtain ⟨inner, rest, hinner, hrest, rfl⟩ := ih h
          have hgroup := Fills.append (.group hclosing hinner .nil) hrest
          rwa [List.cons_append, List.append_assoc] at hgroup
      | none =>
          cases hbracket : isBracket c with
          | true =>
              simp only [closes, hclosing, hbracket, if_true, Bool.and_eq_true,
                decide_eq_true_eq] at h
              obtain ⟨hhead, hrest⟩ := h
              obtain ⟨expected, rfl⟩ := List.head?_eq_some_iff.mp hhead
              exact ⟨[], cs, .nil, ih hrest, rfl⟩
          | false =>
              rw [closes_plain hbracket] at h
              exact Fills.append (.plain hbracket .nil) (ih h)

/-- A text is balanced if nothing is closed that was not opened, and
nothing is left to be closed at the end. -/
theorem balanced_iff {cs : List Char} : Balanced cs ↔ closes [] cs := by
  refine ⟨fun h => ?_, fills_of_closes⟩
  have hclosed := closes_balanced h [] []
  rw [List.append_nil] at hclosed
  rw [hclosed]
  rfl

instance (cs : List Char) : Decidable (Balanced cs) := decidable_of_iff _ balanced_iff.symm

/-- Brackets of one kind do not close those of the other. -/
example : Balanced "a (b \x7bc\x7d) ()".toList ∧ ¬ Balanced "(\x7b)\x7d".toList ∧
    ¬ Balanced ")(".toList := by decide

/-! ## In front of a rest -/

/-- No bracket stands in a text. -/
def Plain (cs : List Char) : Prop := ∀ c ∈ cs, isBracket c = false

instance (cs : List Char) : Decidable (Plain cs) :=
  List.decidableBAll (fun c => isBracket c = false) cs

/-- What stands in front of the rest is balanced. -/
def Spans (cs rest : List Char) : Prop := ∃ ds, Balanced ds ∧ cs = ds ++ rest

/-- What stands in front of the rest is enclosed. -/
def Wraps (cs rest : List Char) : Prop :=
  ∃ o c inner, closing? o = some c ∧ Spans inner (c :: rest) ∧ cs = o :: inner

theorem Spans.refl (cs : List Char) : Spans cs cs := ⟨[], .nil, rfl⟩

theorem Spans.trans {cs ds rest : List Char} (h : Spans cs ds) (h' : Spans ds rest) :
    Spans cs rest := by
  obtain ⟨xs, hxs, rfl⟩ := h
  obtain ⟨ys, hys, rfl⟩ := h'
  exact ⟨xs ++ ys, hxs.append hys, (List.append_assoc xs ys rest).symm⟩

theorem Spans.cons {c : Char} {cs rest : List Char} (hc : isBracket c = false)
    (h : Spans cs rest) : Spans (c :: cs) rest := by
  obtain ⟨ds, hds, rfl⟩ := h
  exact ⟨c :: ds, .plain hc hds, rfl⟩

theorem Spans.plain {ds cs rest : List Char} (hds : Plain ds) (h : Spans cs rest) :
    Spans (ds ++ cs) rest := by
  induction ds with
  | nil => exact h
  | cons c ds ih =>
      obtain ⟨hc, hds⟩ := List.forall_mem_cons.mp hds
      exact .cons hc (ih hds)

theorem Wraps.paren {cs rest : List Char} (h : Spans cs (')' :: rest)) : Wraps ('(' :: cs) rest :=
  ⟨'(', ')', cs, rfl, h, rfl⟩

theorem Wraps.brace {cs rest : List Char} (h : Spans cs ('\x7d' :: rest)) :
    Wraps ('\x7b' :: cs) rest :=
  ⟨'\x7b', '\x7d', cs, rfl, h, rfl⟩

theorem Wraps.spans {cs rest : List Char} (h : Wraps cs rest) : Spans cs rest := by
  obtain ⟨o, c, _, hc, ⟨ds, hds, rfl⟩, rfl⟩ := h
  exact ⟨o :: (ds ++ [c]), .group hc hds .nil, by simp⟩

theorem Spans.balanced {cs : List Char} (h : Spans cs []) : Balanced cs := by
  obtain ⟨ds, hds, rfl⟩ := h
  rwa [List.append_nil]

theorem Wraps.enclosed {cs : List Char} (h : Wraps cs []) : Enclosed cs := by
  obtain ⟨o, c, _, hc, ⟨ds, hds, rfl⟩, rfl⟩ := h
  exact ⟨o, c, ds, hc, hds, rfl⟩

end Brackets

end RowTypes
