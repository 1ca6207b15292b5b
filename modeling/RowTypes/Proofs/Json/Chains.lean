import Mathlib.Data.List.Chain
import RowTypes.Proofs.Json.Bytes
import RowTypes.Proofs.Json.Nesting

/-!
# Chains of arrays and objects

What the guards against nesting measure. Arrays and objects that lie each
inside the one before it are a `Chain` of a value, and the depth of the
value is the length of its longest chain (`Chain.length_le`,
`exists_chain`). Both guards find out whether a chain is longer than the
limit: the scan from the text in either layout, over characters or over
bytes, and the walk from the value (`guards_exact`).
-/

namespace RowTypes

namespace Json

/-- A value lies directly in an array or object. -/
def Holds (outer inner : Json) : Prop := ∃ js, outer.parts? = some js ∧ inner ∈ js

/-- Arrays and objects, the first of them the value itself or anywhere
inside it, and each of the others somewhere inside the one before it. -/
structure Chain (j : Json) (chain : List Json) : Prop where
  within : ∀ c ∈ chain, Relation.ReflTransGen Holds j c
  bracketed : ∀ c ∈ chain, c.parts?.isSome
  nested : chain.IsChain (Relation.TransGen Holds)

/-- Whether some chain is longer than a limit. -/
def NestsBeyond (limit : Nat) (j : Json) : Prop := ∃ chain, Chain j chain ∧ limit < chain.length

/-! ## No chain is longer than the depth -/

theorem depth_pos_of_parts {j : Json} (h : j.parts?.isSome) : 0 < j.depth := by
  obtain ⟨js, hjs⟩ := Option.isSome_iff_exists.mp h
  rw [depth_of_parts hjs]
  exact Nat.succ_pos _

theorem Holds.depth_lt {i j : Json} (h : Holds j i) : i.depth < j.depth := by
  obtain ⟨js, hjs, hi⟩ := h
  rw [depth_of_parts hjs]
  exact Nat.lt_succ_of_le (depth_le_of_mem hi)

theorem depth_lt_of_transGen {i j : Json} (h : Relation.TransGen Holds j i) :
    i.depth < j.depth := by
  induction h with
  | single h => exact h.depth_lt
  | tail _ h ih => exact Nat.lt_trans h.depth_lt ih

theorem depth_le_of_reflTransGen {i j : Json} (h : Relation.ReflTransGen Holds j i) :
    i.depth ≤ j.depth := by
  rcases Relation.reflTransGen_iff_eq_or_transGen.mp h with rfl | h
  · exact Nat.le_refl _
  · exact Nat.le_of_lt (depth_lt_of_transGen h)

/-- Each value of a chain is less deep than the one before it, and the
last still has a level of its own. -/
theorem length_le_depth_of_nested {c : Json} {chain : List Json}
    (hparts : ∀ i ∈ c :: chain, i.parts?.isSome)
    (hnested : (c :: chain).IsChain (Relation.TransGen Holds)) :
    (c :: chain).length ≤ c.depth := by
  induction chain generalizing c with
  | nil => exact depth_pos_of_parts (hparts c List.mem_cons_self)
  | cons i chain ih =>
      obtain ⟨hinside, hrest⟩ := List.isChain_cons_cons.mp hnested
      have hlength := ih (fun k hk => hparts k (List.mem_cons_of_mem c hk)) hrest
      have hdepth := depth_lt_of_transGen hinside
      rw [List.length_cons]
      omega

theorem Chain.length_le {j : Json} {chain : List Json} (h : Chain j chain) :
    chain.length ≤ j.depth := by
  cases chain with
  | nil => exact Nat.zero_le _
  | cons c chain =>
      exact Nat.le_trans (length_le_depth_of_nested h.bracketed h.nested)
        (depth_le_of_reflTransGen (h.within c List.mem_cons_self))

/-! ## Some chain is as long as the depth -/

theorem exists_deepest {js : List Json} (h : 0 < depthItems js) :
    ∃ j ∈ js, j.depth = depthItems js := by
  induction js with
  | nil => cases h
  | cons j js ih =>
      rw [depthItems] at h ⊢
      rcases Nat.lt_or_ge j.depth (depthItems js) with hlt | hge
      · obtain ⟨i, hi, hdepth⟩ := ih (by omega)
        exact ⟨i, List.mem_cons_of_mem j hi, by omega⟩
      · exact ⟨j, List.mem_cons_self, by omega⟩

/-- A chain of a part goes on from the value that the part is in. -/
theorem Chain.cons {i j : Json} {chain : List Json} (hij : Holds j i) (h : Chain i chain) :
    Chain j (j :: chain) where
  within := List.forall_mem_cons.mpr ⟨.refl, fun c hc => .head hij (h.within c hc)⟩
  bracketed := by
    obtain ⟨js, hjs, -⟩ := hij
    exact List.forall_mem_cons.mpr ⟨Option.isSome_iff_exists.mpr ⟨js, hjs⟩, h.bracketed⟩
  nested := List.isChain_cons.mpr
    ⟨fun c hc => .head' hij (h.within c (List.mem_of_mem_head? hc)), h.nested⟩

theorem exists_chain (j : Json) : ∃ chain, Chain j chain ∧ chain.length = j.depth := by
  cases hparts : j.parts? with
  | none => exact ⟨[], ⟨by simp, by simp, .nil⟩, (depth_scalar hparts).symm⟩
  | some js =>
      have hdepth := depth_of_parts hparts
      rcases Nat.eq_zero_or_pos (depthItems js) with hflat | hdeep
      · have hself : Chain j [j] :=
          ⟨by simp [Relation.ReflTransGen.refl], by simp [hparts], .singleton j⟩
        exact ⟨[j], hself, by rw [List.length_singleton, hdepth, hflat]⟩
      · obtain ⟨i, hi, hmax⟩ := exists_deepest hdeep
        have hij : Holds j i := ⟨js, hparts, hi⟩
        have hlt := hij.depth_lt
        obtain ⟨chain, hchain, hlength⟩ := exists_chain i
        exact ⟨j :: chain, hchain.cons hij, by rw [List.length_cons, hlength, hmax, hdepth]⟩
termination_by j.depth

theorem nestsBeyond_iff {limit : Nat} {j : Json} : NestsBeyond limit j ↔ limit < j.depth := by
  constructor
  · rintro ⟨chain, hchain, hlimit⟩
    exact Nat.lt_of_lt_of_le hlimit hchain.length_le
  · intro hlimit
    obtain ⟨chain, hchain, hlength⟩ := exists_chain j
    exact ⟨chain, hchain, by rwa [hlength]⟩

/-! ## The guards -/

theorem textExceeds_compact (limit : Nat) (j : Json) :
    textExceeds limit j.compact.toList = decide (limit < j.depth) := by
  rw [compact, String.toList_ofList, render_eq 0, textExceeds_renderIn]

theorem textExceeds_pretty (limit : Nat) (j : Json) :
    textExceeds limit j.pretty.toList = decide (limit < j.depth) := by
  rw [pretty, String.toList_ofList, renderPretty_eq, textExceeds_renderIn]

/-- The guards are exact on JSON. Whatever strings it has, a value is
refused by the scan of its compact text, by the scan of its pretty text,
be it of the characters or of the bytes, and by the walk through the value
exactly if one of its chains of arrays and objects is longer than the
limit. -/
theorem guards_exact (limit : Nat) (j : Json) :
    (textExceeds limit j.compact.toList ↔ NestsBeyond limit j) ∧
      (textExceeds limit j.pretty.toList ↔ NestsBeyond limit j) ∧
      (bytesExceed limit j.compact.toUTF8.data.toList ↔ NestsBeyond limit j) ∧
      (bytesExceed limit j.pretty.toUTF8.data.toList ↔ NestsBeyond limit j) ∧
      (j.exceeds limit ↔ NestsBeyond limit j) := by
  have hdepth : decide (limit < j.depth) = true ↔ NestsBeyond limit j := by
    rw [decide_eq_true_eq, nestsBeyond_iff]
  rw [bytesExceed_utf8, bytesExceed_utf8, textExceeds_compact, textExceeds_pretty, exceeds_eq]
  exact ⟨hdepth, hdepth, hdepth, hdepth, hdepth⟩

/-- Brackets in a string are no chain. -/
example : textExceeds 2 (Json.obj [("a[\"\x7b", .arr [.str "[[\\\"[", .null])]).compact.toList =
    false := by decide

end Json

end RowTypes
