import RowTypes.Proofs.Subst.Equations

/-!
# Substitution by rules

Substitution with no type passed over. It is given by rules, for below a
renamed quantifier it goes on in a type that it has itself produced, and
where it drops a binding it looks at the same type again. What the rules
end with is what `substUnder` gives, whatever number of levels it has, if
that is at least the depth (`Substitutes.eq_substUnder`); so they end in
one way only.
-/

namespace RowTypes

namespace Ty

mutual

/-- Substituting in a type that stands under quantifiers binding the
names `bound` ends with a type. A quantifier of a name that is bound has
that binding taken away and is looked at again. Otherwise its name is
kept, or it clashes and is changed in the body before anything else is
substituted there. A leaf is rebuilt from no children. -/
inductive Substitutes : Bindings → (bound : List Name) → Ty → Ty → Prop
  | var {b bound v} : Substitutes b bound (.var v) ((b.get? v).getD (.var v))
  | narrow {b bound v body scope u} (hkey : v ∈ b.keys)
      (h : Substitutes (b.erase v) bound (.forAll v body scope) u) :
      Substitutes b bound (.forAll v body scope) u
  | keep {b bound v body scope body'} (hkey : v ∉ b.keys) (hclash : v ∉ b.freeVars)
      (h : Substitutes b (v :: bound) body body') :
      Substitutes b bound (.forAll v body scope) (.forAll v body' scope)
  | rename {b bound v body scope w renamed body'} (hkey : v ∉ b.keys) (hclash : v ∈ b.freeVars)
      (hw : w = freshBinder b bound v body)
      (hr : Substitutes (.single v (.var w)) bound body renamed)
      (h : Substitutes b (w :: bound) renamed body') :
      Substitutes b bound (.forAll v body scope) (.forAll w body' scope)
  | display {b bound t} (h : t.head.display) : Substitutes b bound t t
  | plain {b bound t us} (h : t.head.plain) (hc : SubstitutesAll b bound t.children us) :
      Substitutes b bound t (t.rebuild us)

/-- Substituting in one type after the other ends with these types. -/
inductive SubstitutesAll : Bindings → (bound : List Name) → List Ty → List Ty → Prop
  | nil {b bound} : SubstitutesAll b bound [] []
  | cons {b bound t u ts us} (h : Substitutes b bound t u) (hs : SubstitutesAll b bound ts us) :
      SubstitutesAll b bound (t :: ts) (u :: us)

end

theorem Substitutes.app {b : Bindings} {bound : List Name} {f a f' a' : Ty}
    (hf : Substitutes b bound f f') (ha : Substitutes b bound a a') :
    Substitutes b bound (.app f a) (.app f' a') := by
  have h := Substitutes.plain (t := .app f a) rfl (.cons hf (.cons ha .nil))
  exact h

/-- A list is done when each of its types is. -/
theorem exists_substitutesAll {b : Bindings} {bound : List Name} :
    ∀ {ts : List Ty}, (∀ t ∈ ts, ∃ u, Substitutes b bound t u) → ∃ us, SubstitutesAll b bound ts us
  | [], _ => ⟨[], .nil⟩
  | _ :: _, h =>
    let ⟨u, hu⟩ := h _ List.mem_cons_self
    let ⟨us, hus⟩ := exists_substitutesAll fun t ht => h t (List.mem_cons_of_mem _ ht)
    ⟨u :: us, .cons hu hus⟩

/-! ## The end -/

mutual

theorem Substitutes.eq_substUnder : ∀ {b : Bindings} {bound : List Name} {t u : Ty},
    Substitutes b bound t u → ∀ levels, t.depth ≤ levels → u = substUnder levels b bound t
  | _, _, t, _, _, 0, hd => absurd (depth_pos t) (by omega)
  | _, _, _, _, .var, n + 1, _ => (substUnder_var n _ _ _).symm
  | b, _, _, _, .narrow (v := v) _ h, n + 1, hd => by
      rw [h.eq_substUnder (n + 1) hd, substUnder_forAll, substUnder_forAll,
        Bindings.erase_of_not_mem (b.not_mem_keys_erase v)]
  | _, _, .forAll v body scope, _, .keep hkey hclash h, n + 1, hd => by
      have hbody := depth_body_lt v body scope
      rw [substUnder_forAll, Bindings.erase_of_not_mem hkey, if_neg hclash,
        h.eq_substUnder n (by omega)]
  | b, bound, .forAll v body scope, _, .rename hkey hclash rfl hr h, n + 1, hd => by
      have hbody := depth_body_lt v body scope
      have hrenamed := hr.eq_substUnder n (by omega)
      have hdepth := depth_substUnder
        (Bindings.renaming_single v (freshBinder b bound v body)) n bound body
      rw [← hrenamed] at hdepth
      rw [substUnder_forAll, Bindings.erase_of_not_mem hkey, if_pos hclash,
        h.eq_substUnder n (by omega), hrenamed]
  | _, _, _, _, .display h, _ + 1, _ => (substUnder_display h _ _ _).symm
  | _, _, _, _, .plain h hc, n + 1, hd => by
      rw [substUnder_plain h, hc.eq_map n fun c hmem => ?_]
      have := depth_child_lt hmem
      omega

theorem SubstitutesAll.eq_map : ∀ {b : Bindings} {bound : List Name} {ts us : List Ty},
    SubstitutesAll b bound ts us → ∀ levels, (∀ t ∈ ts, t.depth ≤ levels) →
      us = ts.map (substUnder levels b bound)
  | _, _, _, _, .nil, _, _ => rfl
  | _, _, _, _, .cons h hs, n, hd => by
      rw [List.map_cons, h.eq_substUnder n (hd _ List.mem_cons_self),
        hs.eq_map n fun t ht => hd t (List.mem_cons_of_mem _ ht)]

end

/-- Renaming by rules changes names and nothing else, too. -/
theorem Substitutes.unnamed {b : Bindings} {bound : List Name} {t u : Ty}
    (h : Substitutes b bound t u) (hb : b.Renaming) : u.unnamed = t.unnamed := by
  rw [h.eq_substUnder t.depth (Nat.le_refl _), unnamed_substUnder hb]

end Ty

end RowTypes
