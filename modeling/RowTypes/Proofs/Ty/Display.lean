import RowTypes.Proofs.Brackets
import RowTypes.Ty.Display
import RowTypes.Ty.Tag

/-!
# The displayed form in brackets

Where no name has a bracket in it, all brackets of a displayed type are
its own. Then its text is balanced, and it is enclosed in one bracket
unless the type is an atom (`enclosed_text`).

A type is displayed on its own or as the tail of a row (`Shown`). As a
tail it is balanced up to the bracket that closes the row, and it writes
that bracket too; so a row is closed once, however many entries it has
and whatever comes behind them.
-/

namespace RowTypes

open Brackets

/-! ## Names and kinds -/

/-- The module, if there is one, and the name in it. -/
def Qualified.names (q : Qualified) : List String := q.module.toList ++ [q.name]

/-- All names in a kind. -/
def Kind.names : Kind → List String
  | .row k => k.names
  | .function a b => a.names ++ b.names
  | .named q => q.names
  | .unknown _ | .star | .bang => []

theorem plain_toDigits (n : Nat) : Plain (Nat.toDigits 10 n) := by
  intro c hc
  have hdigit : c.isDigit := Nat.isDigit_of_mem_toDigits (by decide) (by decide) hc
  have hne : ∀ d : Char, d.isDigit = false → c ≠ d := by
    rintro d hd rfl
    rw [hdigit] at hd
    cases hd
  simp [isBracket, hne '(' rfl, hne ')' rfl, hne '\x7b' rfl, hne '\x7d' rfl]

theorem spans_renderNat (n : Nat) (rest : List Char) : Spans (renderNat n rest) rest :=
  .plain (plain_toDigits n) (.refl rest)

theorem Qualified.spans_render {q : Qualified} (h : ∀ name ∈ q.names, Plain name.toList)
    (rest : List Char) : Spans (q.render rest) rest := by
  obtain ⟨module, name⟩ := q
  have hname : Spans (name.toList ++ rest) rest := .plain (h name (by simp [names])) (.refl rest)
  cases module with
  | none => exact hname
  | some m =>
      exact .plain (h m (by simp [names])) (.cons rfl hname)

theorem Kind.spans_render {k : Kind} (h : ∀ name ∈ k.names, Plain name.toList)
    (rest : List Char) : Spans (k.render rest) rest := by
  induction k generalizing rest with
  | unknown id => exact .cons rfl (spans_renderNat _ rest)
  | star => exact .cons rfl (.refl rest)
  | bang => exact .cons rfl (.refl rest)
  | row k ih => exact (Wraps.paren (.cons rfl (.cons rfl (ih h _)))).spans
  | function a b iha ihb =>
      rw [names, List.forall_mem_append] at h
      have harrow : Plain " -> ".toList := by decide
      have hinside := (iha h.1 _).trans (.plain harrow (ihb h.2 (')' :: rest)))
      exact (Wraps.paren hinside).spans
  | named q => exact q.spans_render h rest

namespace Ty

/-- The names in a node, those in its children apart. -/
def ownNames : Ty → List String
  | .var v => [v]
  | .constructor q => q.names
  | .forAll v _ _ => [v]
  | .constrained cs _ => cs.flatMap (·.className.names)
  | .skolem v _ _ _ => [v]
  | .rowCons l _ _ => [l]
  | .kinded _ k => k.names
  | .prettyForAll vs _ => vs
  | .unknown _ | .wildcard | .app _ _ | .rowEmpty | .prettyFunction _ _ | .prettyObject _ => []

/-- All names in a type. -/
def names : Ty → List String := fold fun t below => t.ownNames ++ below.flatten

theorem names_eq (t : Ty) : t.names = t.ownNames ++ t.children.flatMap names := by
  rw [List.flatMap_def]
  exact fold_eq _ t

/-- The forms that are displayed without a bracket around them. -/
def atoms : List Tag := [.unknown, .var, .wildcard, .constructor, .skolem]

/-! ## Parts of a node -/

/-- A type is balanced where it stands on its own, and as the tail of a
row up to the bracket that closes the row. -/
structure Shown (t : Ty) : Prop where
  alone : ∀ rest, Spans (t.renderAt .alone rest) rest
  tail : ∀ rest, Spans (t.renderAt .tail rest) (')' :: rest)

theorem spans_renderArgs {ts : List Ty} (h : ∀ t ∈ ts, Shown t) (rest : List Char) :
    Spans (renderArgs ts rest) rest := by
  induction ts with
  | nil => exact .refl rest
  | cons t ts ih =>
      rw [List.forall_mem_cons] at h
      exact .cons rfl ((h.1.alone _).trans (ih h.2))

theorem spans_renderConstraints {cs : List (Constraint Ty)}
    (hnames : ∀ name ∈ cs.flatMap (·.className.names), Plain name.toList)
    (hargs : ∀ t ∈ cs.flatMap (·.args), Shown t) (rest : List Char) :
    Spans (renderConstraints cs rest) rest := by
  induction cs with
  | nil => exact .refl rest
  | cons c cs ih =>
      obtain ⟨q, args⟩ := c
      simp only [List.flatMap_cons, List.forall_mem_append] at hnames hargs
      have harrow : Plain " => ".toList := by decide
      exact (q.spans_render hnames.1 _).trans ((spans_renderArgs hargs.1 _).trans
        (.plain harrow (ih hnames.2 hargs.2)))

theorem spans_binders {vs : List Name} (h : ∀ v ∈ vs, Plain v.toList) {cs rest : List Char}
    (hcs : Spans cs rest) : Spans (vs.foldr (fun v r => ' ' :: (v.toList ++ r)) cs) rest := by
  induction vs with
  | nil => exact hcs
  | cons v vs ih =>
      rw [List.forall_mem_cons] at h
      exact .cons rfl (.plain h.1 (ih h.2))

/-- An entry, with all that follows it in its row. -/
theorem spans_entry {l : Label} {head tail : Ty} (hl : Plain l.toList) (hhead : Shown head)
    (htail : Shown tail) (rest : List Char) :
    Spans (l.toList ++ (" :: ".toList ++ head.renderAt .alone (tail.renderAt .tail rest)))
      (')' :: rest) := by
  have hcolons : Plain " :: ".toList := by decide
  exact .plain hl (.plain hcolons ((hhead.alone _).trans (htail.tail rest)))

/-! ## Nodes -/

section

variable {t : Ty}

theorem spans_atom (h : t.tag ∈ atoms) (hnames : ∀ name ∈ t.ownNames, Plain name.toList)
    (rest : List Char) : Spans (t.renderAt .alone rest) rest := by
  cases t with
  | unknown id => exact .cons rfl (spans_renderNat _ rest)
  | var v => exact .plain (hnames v List.mem_cons_self) (.refl rest)
  | wildcard => exact .cons rfl (.refl rest)
  | constructor q => exact q.spans_render hnames rest
  | skolem v id scope span =>
      exact .plain (hnames v List.mem_cons_self) (.cons rfl (spans_renderNat _ rest))
  | _ => simp [tag, atoms] at h

theorem wraps_compound (h : t.tag ∉ atoms) (hnames : ∀ name ∈ t.ownNames, Plain name.toList)
    (hchildren : ∀ c ∈ t.children, Shown c) (rest : List Char) :
    Wraps (t.renderAt .alone rest) rest := by
  cases t with
  | unknown | var | wildcard | constructor | skolem => simp [tag, atoms] at h
  | app f a =>
      obtain ⟨hf, ha⟩ : Shown f ∧ Shown a := by simpa [children] using hchildren
      exact .paren ((hf.alone _).trans (.cons rfl (ha.alone _)))
  | forAll v body scope =>
      have hbody : Shown body := by simpa [children] using hchildren
      have hword : Plain "forall ".toList := by decide
      have hv : Plain v.toList := hnames v List.mem_cons_self
      have hbound : Spans (v.toList ++ '.' :: ' ' :: body.renderAt .alone (')' :: rest)) _ :=
        .plain hv (.cons rfl (.cons rfl (hbody.alone _)))
      exact .paren (.plain hword hbound)
  | constrained cs body =>
      have hbody : Shown body := hchildren body (by simp [children])
      have hconstraints := spans_renderConstraints hnames fun u hu =>
        hchildren u (List.mem_append_left _ hu)
      exact .paren ((hconstraints _).trans (hbody.alone _))
  | rowEmpty => exact .paren (.refl _)
  | rowCons l head tail =>
      obtain ⟨hhead, htail⟩ : Shown head ∧ Shown tail := by simpa [children] using hchildren
      exact .paren (spans_entry (hnames l List.mem_cons_self) hhead htail rest)
  | kinded type k =>
      have htype : Shown type := by simpa [children] using hchildren
      have hcolons : Plain " :: ".toList := by decide
      have hkind := k.spans_render hnames (')' :: rest)
      exact .paren ((htype.alone _).trans (.plain hcolons hkind))
  | prettyFunction a b =>
      obtain ⟨ha, hb⟩ : Shown a ∧ Shown b := by simpa [children] using hchildren
      have harrow : Plain " -> ".toList := by decide
      exact .paren ((ha.alone _).trans (.plain harrow (hb.alone _)))
  | prettyObject row =>
      have hrow : Shown row := by simpa [children] using hchildren
      exact .brace (hrow.alone _)
  | prettyForAll vs body =>
      have hbody : Shown body := by simpa [children] using hchildren
      have hword : Plain "forall".toList := by decide
      have hdot : Spans ('.' :: ' ' :: body.renderAt .alone (')' :: rest)) (')' :: rest) :=
        .cons rfl (.cons rfl (hbody.alone _))
      exact .paren (.plain hword (spans_binders hnames hdot))

theorem spans_alone (hnames : ∀ name ∈ t.ownNames, Plain name.toList)
    (hchildren : ∀ c ∈ t.children, Shown c) (rest : List Char) :
    Spans (t.renderAt .alone rest) rest := by
  by_cases h : t.tag ∈ atoms
  · exact spans_atom h hnames rest
  · exact (wraps_compound h hnames hchildren rest).spans

theorem shown_of_children (hnames : ∀ name ∈ t.ownNames, Plain name.toList)
    (hchildren : ∀ c ∈ t.children, Shown c) : Shown t where
  alone := spans_alone hnames hchildren
  tail rest := by
    have hbar : Plain " | ".toList := by decide
    cases t with
    | rowEmpty => exact .refl _
    | rowCons l head tail =>
        obtain ⟨hhead, htail⟩ : Shown head ∧ Shown tail := by simpa [children] using hchildren
        exact .cons rfl (.cons rfl (spans_entry (hnames l List.mem_cons_self) hhead htail rest))
    -- a tail that is no row stands behind a bar
    | _ => exact .plain hbar (spans_alone hnames hchildren (')' :: rest))

end

theorem plain_children {t : Ty} (h : ∀ name ∈ t.names, Plain name.toList) :
    (∀ name ∈ t.ownNames, Plain name.toList) ∧
      ∀ c ∈ t.children, ∀ name ∈ c.names, Plain name.toList := by
  rw [names_eq, List.forall_mem_append] at h
  exact ⟨h.1, fun c hc name hname => h.2 name (List.mem_flatMap.mpr ⟨c, hc, hname⟩)⟩

theorem shown_of_names {t : Ty} (h : ∀ name ∈ t.names, Plain name.toList) : Shown t := by
  induction t using induction_on_children with
  | step t ih =>
      obtain ⟨hnames, hbelow⟩ := plain_children h
      exact shown_of_children hnames fun c hc => ih c hc (hbelow c hc)

/-- The text of a type has its parentheses and braces properly nested if
no name in the type has one in it, and it is enclosed: it starts with a
bracket that is closed by its last character, unless the type is an atom. -/
theorem enclosed_text {t : Ty} (h : ∀ name ∈ t.names, Plain name.toList) :
    Balanced t.text.toList ∧ (t.tag ∉ atoms → Enclosed t.text.toList) := by
  obtain ⟨hnames, hbelow⟩ := plain_children h
  rw [text, String.toList_ofList]
  refine ⟨((shown_of_names h).alone []).balanced, fun hcompound => ?_⟩
  exact (wraps_compound hcompound hnames (fun c hc => shown_of_names (hbelow c hc)) []).enclosed

/-- A constraint whose arguments are a variable and an open row, on a
record with a kind annotation in it. -/
def signature : Ty :=
  .constrained [⟨⟨some "Data", "Show"⟩, [.var "a",
      .rowCons "x" (.skolem "b" 7 0 none) (.rowCons "y" (.unknown 1) (.var "r"))]⟩]
    (.prettyObject (.rowCons "z"
      (.kinded .wildcard (.function .star (.row (.named ⟨none, "K"⟩)))) .rowEmpty))

theorem enclosed_text_signature :
    (∀ name ∈ signature.names, Plain name.toList) ∧ signature.tag ∉ atoms ∧
      signature.text =
        "(Data.Show a (x :: b#7, y :: ?1 | r) => \x7b(z :: (_ :: (* -> (# K))))\x7d)" ∧
      Balanced signature.text.toList ∧ Enclosed signature.text.toList := by
  have hnames : ∀ name ∈ signature.names, Plain name.toList := by decide
  have hcompound : signature.tag ∉ atoms := by decide
  obtain ⟨hbalanced, henclosed⟩ := enclosed_text hnames
  exact ⟨hnames, hcompound, by decide, hbalanced, henclosed hcompound⟩

end Ty

end RowTypes
