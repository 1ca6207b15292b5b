import Mathlib.Data.List.Basic
import RowTypes.Proofs.Ty.Rebuild

/-!
# Nameless forms

A type up to the names of its bound variables. `Ty.erase` gives each
variable that an enclosing quantifier binds the number of quantifiers in
between, and takes the name off every quantifier; all else stays, and a
display-only form is kept as it is, with whatever is inside.

Operations on nameless forms are instances of `Nameless.bindAt`, which
puts something in the place of every free name, depending on how many
quantifiers stand around it: substitution does not look at that number,
and `close`, which binds a name, gives just that number. So each law is
one about `bindAt`, the main one being how two of them compose
(`bindAt_bindAt`).
-/

namespace RowTypes

/-- A type without the names of its bound variables. -/
inductive Nameless where
  /-- A variable bound by the quantifier with the given number, counted
  outwards from zero. -/
  | bound (index : Nat)
  | free (name : Name)
  | forAll (scope : Option SkolemScope) (body : Nameless)
  /-- A display-only form. -/
  | display (t : Ty)
  /-- Any other node. -/
  | node (head : Ty.Head) (parts : List Nameless)

namespace Nameless

theorem induction_on_parts {P : Nameless → Prop} (bound : ∀ i, P (.bound i))
    (free : ∀ x, P (.free x)) (forAll : ∀ scope n, P n → P (.forAll scope n))
    (display : ∀ t, P (.display t))
    (node : ∀ h ps, (∀ p ∈ ps, P p) → P (.node h ps)) : ∀ n, P n
  | .bound i => bound i
  | .free x => free x
  | .forAll scope n =>
    forAll scope n (induction_on_parts bound free forAll display node n)
  | .display t => display t
  | .node h ps => node h ps fun p hp =>
    have := List.sizeOf_lt_of_mem hp
    induction_on_parts bound free forAll display node p

/-! ## Free names -/

mutual

/-- The free names, from left to right. -/
def freeNames : Nameless → List Name
  | .bound _ => []
  | .free x => [x]
  | .forAll _ body => body.freeNames
  | .display _ => []
  | .node _ ps => freeNamesAll ps

def freeNamesAll : List Nameless → List Name
  | [] => []
  | p :: ps => p.freeNames ++ freeNamesAll ps

end

theorem freeNamesAll_eq (ps : List Nameless) :
    freeNamesAll ps = ps.flatMap freeNames := by
  induction ps with
  | nil => rfl
  | cons p ps ih => simp [freeNamesAll, ih]

@[simp] theorem freeNames_node (h : Ty.Head) (ps : List Nameless) :
    (node h ps).freeNames = ps.flatMap freeNames := by
  rw [freeNames, freeNamesAll_eq]

/-! ## Putting something in the place of free names -/

mutual

/-- Replaces each free name by what `f` gives for it and the number of
quantifiers around it, `level` more than those of the form itself. -/
def bindAt (f : Nat → Name → Nameless) (level : Nat) : Nameless → Nameless
  | .bound i => .bound i
  | .free x => f level x
  | .forAll scope body => .forAll scope (bindAt f (level + 1) body)
  | .display t => .display t
  | .node h ps => .node h (bindAll f level ps)

def bindAll (f : Nat → Name → Nameless) (level : Nat) : List Nameless → List Nameless
  | [] => []
  | p :: ps => bindAt f level p :: bindAll f level ps

end

theorem bindAll_eq (f : Nat → Name → Nameless) (level : Nat) (ps : List Nameless) :
    bindAll f level ps = ps.map (bindAt f level) := by
  induction ps with
  | nil => rfl
  | cons p ps ih => simp [bindAll, ih]

@[simp] theorem bindAt_node (f : Nat → Name → Nameless) (level : Nat) (h : Ty.Head)
    (ps : List Nameless) :
    (node h ps).bindAt f level = .node h (ps.map (bindAt f level)) := by
  rw [bindAt, bindAll_eq]

theorem bindAt_congr {f g : Nat → Name → Nameless} {n : Nameless} {level : Nat}
    (h : ∀ i, ∀ x ∈ n.freeNames, f i x = g i x) :
    n.bindAt f level = n.bindAt g level := by
  induction n using induction_on_parts generalizing level with
  | bound i => rfl
  | free x => exact h level x (List.mem_singleton.mpr rfl)
  | forAll scope n ih => rw [bindAt, bindAt, ih h]
  | display t => rfl
  | node hd ps ih =>
      rw [bindAt_node, bindAt_node]
      refine congrArg (node hd) (List.map_congr_left fun p hp => ih p hp fun i x hx => ?_)
      exact h i x (by rw [freeNames_node]; exact List.mem_flatMap.mpr ⟨p, hp, hx⟩)

theorem bindAt_free (n : Nameless) (level : Nat) :
    n.bindAt (fun _ x => .free x) level = n := by
  induction n using induction_on_parts generalizing level with
  | bound i => rfl
  | free x => rfl
  | forAll scope n ih => rw [bindAt, ih]
  | display t => rfl
  | node h ps ih =>
      rw [bindAt_node]
      refine congrArg (node h) ?_
      rw [List.map_congr_left fun p hp => ih p hp level, List.map_id']

/-- What two replacements come to, the second one inside `more` further
quantifiers. -/
theorem bindAt_bindAt (f g : Nat → Name → Nameless) (n : Nameless) (level more : Nat) :
    (n.bindAt f level).bindAt g (level + more) =
      n.bindAt (fun i x => (f i x).bindAt g (i + more)) level := by
  induction n using induction_on_parts generalizing level with
  | bound i => rfl
  | free x => rfl
  | forAll scope n ih =>
      rw [bindAt, bindAt, bindAt, Nat.add_right_comm, ih]
  | display t => rfl
  | node h ps ih =>
      simp only [bindAt_node, List.map_map]
      exact congrArg (node h) (List.map_congr_left fun p hp => ih p hp level)

/-- What is put in the place of a name brings its own free names, here
the same ones at every level. -/
theorem freeNames_bindAt {f : Nat → Name → Nameless} {g : Name → List Name}
    (h : ∀ i x, (f i x).freeNames = g x) (n : Nameless) (level : Nat) :
    (n.bindAt f level).freeNames = n.freeNames.flatMap g := by
  induction n using induction_on_parts generalizing level with
  | bound i => rfl
  | free x => simp [bindAt, freeNames, h]
  | forAll scope n ih => exact ih (level + 1)
  | display t => rfl
  | node hd ps ih =>
      rw [bindAt_node, freeNames_node, freeNames_node, List.flatMap_map, List.flatMap_assoc]
      exact List.flatMap_congr fun p hp => ih p hp level

/-- Replaces the free names that have an image, all at once. -/
def subst (image : Name → Option Nameless) (n : Nameless) : Nameless :=
  n.bindAt (fun _ x => (image x).getD (.free x)) 0

/-- Binds a free name to a quantifier put around the form. -/
def close (v : Name) (level : Nat) (n : Nameless) : Nameless :=
  n.bindAt (fun i x => if x = v then .bound i else .free x) level

theorem close_of_not_mem {v : Name} {n : Nameless} (h : v ∉ n.freeNames) (level : Nat) :
    n.close v level = n := by
  rw [close, bindAt_congr (g := fun _ x => .free x), bindAt_free]
  intro i x hx
  rw [if_neg]
  rintro rfl
  exact h hx

end Nameless

/-! ## From types to nameless forms -/

namespace Ty

/-- Whether a node is a display-only form. -/
def Head.display : Head → Bool
  | .prettyFunction | .prettyObject | .prettyForAll _ => true
  | _ => false

/-- Whether a node is neither a variable nor a quantifier nor a
display-only form. -/
def Head.plain : Head → Bool
  | .var _ | .forAll _ _ => false
  | h => !h.display

/-- A variable below the quantifiers of `env`, the innermost of them
first. -/
def resolve (env : List Name) (v : Name) : Nameless :=
  match env.idxOf? v with
  | some i => .bound i
  | none => .free v

mutual

/-- The nameless form of a type below the quantifiers of `env`, the
innermost of them first. -/
def erase (env : List Name) : Ty → Nameless
  | .var v => resolve env v
  | .forAll v body scope => .forAll scope (erase (v :: env) body)
  | .unknown id => .node (.unknown id) []
  | .wildcard => .node .wildcard []
  | .constructor q => .node (.constructor q) []
  | .skolem v id scope span => .node (.skolem v id scope span) []
  | .rowEmpty => .node .rowEmpty []
  | .app f a => .node .app [erase env f, erase env a]
  | .rowCons l h t => .node (.rowCons l) [erase env h, erase env t]
  | .kinded t k => .node (.kinded k) [erase env t]
  | .constrained cs body =>
    .node (.constrained (cs.map classOf)) (eraseConstraints env cs ++ [erase env body])
  | .prettyFunction a r => .display (.prettyFunction a r)
  | .prettyObject row => .display (.prettyObject row)
  | .prettyForAll vs body => .display (.prettyForAll vs body)

def eraseConstraints (env : List Name) : List (Constraint Ty) → List Nameless
  | [] => []
  | ⟨_, args⟩ :: cs => eraseArgs env args ++ eraseConstraints env cs

def eraseArgs (env : List Name) : List Ty → List Nameless
  | [] => []
  | t :: ts => erase env t :: eraseArgs env ts

end

/-- The nameless form of a type. -/
def nameless (t : Ty) : Nameless := t.erase []

theorem eraseArgs_eq (env : List Name) (ts : List Ty) :
    eraseArgs env ts = ts.map (erase env) := by
  induction ts with
  | nil => rfl
  | cons t ts ih => simp [eraseArgs, ih]

theorem eraseConstraints_eq (env : List Name) (cs : List (Constraint Ty)) :
    eraseConstraints env cs = (cs.flatMap (·.args)).map (erase env) := by
  induction cs with
  | nil => rfl
  | cons c cs ih => cases c; simp [eraseConstraints, eraseArgs_eq, ih]

theorem erase_plain {t : Ty} (h : t.head.plain) (env : List Name) :
    t.erase env = .node t.head (t.children.map (erase env)) := by
  cases t <;> simp [head, Head.plain, Head.display] at h <;>
    simp [erase, head, children, eraseConstraints_eq]

theorem erase_display {t : Ty} (h : t.head.display) (env : List Name) :
    t.erase env = .display t := by
  cases t <;> simp [head, Head.display] at h <;> rfl

/-- Variables, quantifiers and display-only forms are cases of their own;
all other nodes are alike. -/
theorem cases_plain {P : Ty → Prop} (var : ∀ v, P (.var v))
    (forAll : ∀ v body scope, P (.forAll v body scope))
    (display : ∀ t, t.head.display → P t) (plain : ∀ t, t.head.plain → P t) (t : Ty) :
    P t := by
  cases t with
  | var v => exact var v
  | forAll v body scope => exact forAll v body scope
  | prettyFunction _ _ | prettyObject _ | prettyForAll _ _ => exact display _ rfl
  | _ => exact plain _ rfl

/-- The same cases in an induction. -/
theorem induction_on_plain {P : Ty → Prop} (var : ∀ v, P (.var v))
    (forAll : ∀ v body scope, P body → P (.forAll v body scope))
    (display : ∀ t, t.head.display → P t)
    (plain : ∀ t, t.head.plain → (∀ c ∈ t.children, P c) → P t) (t : Ty) : P t := by
  induction t using induction_on_children with
  | step t ih =>
      cases t using cases_plain with
      | var v => exact var v
      | forAll v body scope => exact forAll v body scope (ih body List.mem_cons_self)
      | display t h => exact display t h
      | plain t h => exact plain t h ih

theorem resolve_append (inner : List Name) (v x : Name) :
    resolve (inner ++ [v]) x = (resolve inner x).close v inner.length := by
  have happ : (inner ++ [v]).idxOf? x =
      (inner.idxOf? x).or (([v].idxOf? x).map (· + inner.length)) := List.findIdx?_append
  rw [resolve, resolve, happ, List.idxOf?_singleton]
  cases inner.idxOf? x with
  | some i => rfl
  | none =>
      by_cases hv : x = v
      · simp [hv, Nameless.close, Nameless.bindAt]
      · simp [hv, Ne.symm hv, Nameless.close, Nameless.bindAt]

/-- A quantifier outside all others binds its name. -/
theorem erase_append (v : Name) (t : Ty) (inner : List Name) :
    t.erase (inner ++ [v]) = (t.erase inner).close v inner.length := by
  induction t using induction_on_plain generalizing inner with
  | var x => exact resolve_append inner v x
  | forAll x body scope ih =>
      have hbody := ih (x :: inner)
      rw [erase, erase, Nameless.close, Nameless.bindAt]
      exact congrArg (Nameless.forAll scope) hbody
  | display t h => rw [erase_display h, erase_display h]; rfl
  | plain t h ih =>
      rw [erase_plain h, erase_plain h, Nameless.close, Nameless.bindAt_node, List.map_map]
      exact congrArg (Nameless.node t.head) (List.map_congr_left fun c hc => ih c hc inner)

theorem erase_singleton (v : Name) (t : Ty) : t.erase [v] = t.nameless.close v 0 :=
  erase_append v t []

end Ty

end RowTypes
