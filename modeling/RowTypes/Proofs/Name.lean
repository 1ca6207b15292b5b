import RowTypes.Name

/-!
# Dotted paths

A path is split at its last dot, so that no name has a dot and all other
dots, wherever they stand, belong to the module
(`splitLastDot_eq_some_iff`). Writing a name that was read from a path
gives back the path; a name that is read again after it was written is
the same name exactly if it has no dot of its own
(`Qualified.path_conversions`).
-/

namespace RowTypes

/-! ## The last dot -/

theorem splitLastDot_eq_none_iff {cs : List Char} : splitLastDot cs = none ↔ '.' ∉ cs := by
  induction cs with
  | nil => simp [splitLastDot]
  | cons c cs ih =>
      rw [splitLastDot, List.mem_cons, not_or, ← ih]
      cases hcs : splitLastDot cs with
      | some parts => simp
      | none => simp [eq_comm]

theorem splitLastDot_append (before : List Char) {after : List Char} (h : '.' ∉ after) :
    splitLastDot (before ++ '.' :: after) = some (before, after) := by
  induction before with
  | nil => rw [List.nil_append, splitLastDot, splitLastDot_eq_none_iff.mpr h]; rfl
  | cons c before ih => rw [List.cons_append, splitLastDot, ih]

theorem of_splitLastDot {cs before after : List Char}
    (h : splitLastDot cs = some (before, after)) : cs = before ++ '.' :: after ∧ '.' ∉ after := by
  induction cs generalizing before with
  | nil => cases h
  | cons c cs ih =>
      rw [splitLastDot] at h
      cases hcs : splitLastDot cs with
      | some parts =>
          rw [hcs] at h
          cases h
          obtain ⟨hsplit, hafter⟩ := ih hcs
          exact ⟨congrArg (c :: ·) hsplit, hafter⟩
      | none =>
          simp only [hcs] at h
          split at h
          · next hdot =>
            subst hdot
            cases h
            exact ⟨rfl, splitLastDot_eq_none_iff.mp hcs⟩
          · cases h

/-- A text is split at a dot after which there is none. -/
theorem splitLastDot_eq_some_iff {cs before after : List Char} :
    splitLastDot cs = some (before, after) ↔ cs = before ++ '.' :: after ∧ '.' ∉ after := by
  refine ⟨of_splitLastDot, ?_⟩
  rintro ⟨rfl, hafter⟩
  exact splitLastDot_append before hafter

/-! ## Paths and names -/

namespace Qualified

theorem toList_text_some (m name : String) :
    (Qualified.mk (some m) name).text.toList = m.toList ++ '.' :: name.toList := by
  rw [text, render, String.toList_ofList, List.append_nil]

theorem text_none (name : String) : (Qualified.mk none name).text = name := by
  rw [text, render, List.append_nil, String.ofList_toList]

theorem ofPath_of_dot {path : String} {before after : List Char}
    (h : path.toList = before ++ '.' :: after) (hafter : '.' ∉ after) :
    ofPath path = ⟨some (String.ofList before), String.ofList after⟩ := by
  rw [ofPath, splitLastDot_eq_some_iff.mpr ⟨h, hafter⟩]

theorem ofPath_of_no_dot {path : String} (h : '.' ∉ path.toList) : ofPath path = ⟨none, path⟩ := by
  rw [ofPath, splitLastDot_eq_none_iff.mpr h]

/-- A path has no dot, or it has a last one. -/
theorem cases_path (path : String) :
    '.' ∉ path.toList ∨ ∃ before after, path.toList = before ++ '.' :: after ∧ '.' ∉ after := by
  cases hsplit : splitLastDot path.toList with
  | none => exact .inl (splitLastDot_eq_none_iff.mp hsplit)
  | some parts => exact .inr ⟨parts.1, parts.2, splitLastDot_eq_some_iff.mp hsplit⟩

theorem not_mem_name_ofPath (path : String) : '.' ∉ (ofPath path).name.toList := by
  rcases cases_path path with h | ⟨before, after, h, hafter⟩
  · rwa [ofPath_of_no_dot h]
  · rwa [ofPath_of_dot h hafter, String.toList_ofList]

theorem text_ofPath (path : String) : (ofPath path).text = path := by
  rcases cases_path path with h | ⟨before, after, h, hafter⟩
  · rw [ofPath_of_no_dot h, text_none]
  · rw [ofPath_of_dot h hafter, ← String.toList_inj, toList_text_some, String.toList_ofList,
      String.toList_ofList, h]

theorem ofPath_text {q : Qualified} (h : '.' ∉ q.name.toList) : ofPath q.text = q := by
  obtain ⟨_ | m, name⟩ := q
  · rw [text_none, ofPath_of_no_dot h]
  · rw [ofPath_of_dot (toList_text_some m name) h, String.ofList_toList, String.ofList_toList]

/-- Every path is the text of what is read from it, so that different
paths are read as different names. A name is read back from its text
exactly if no dot is part of it, whatever its module is, and those names
are all that is ever read. -/
theorem path_conversions (path : String) (q : Qualified) :
    (ofPath path).text = path ∧ (ofPath q.text = q ↔ '.' ∉ q.name.toList) ∧
      ((∃ p, ofPath p = q) ↔ '.' ∉ q.name.toList) := by
  refine ⟨text_ofPath path, ⟨fun h => ?_, ofPath_text⟩, ?_, fun h => ⟨q.text, ofPath_text h⟩⟩
  · rw [← h]
    exact not_mem_name_ofPath q.text
  · rintro ⟨p, rfl⟩
    exact not_mem_name_ofPath p

/-- Modules may be empty or have dots, and names may be empty. -/
example : ofPath "..a." = ⟨some "..a", ""⟩ ∧ ofPath "." = ⟨some "", ""⟩ ∧
    ofPath "" = ⟨none, ""⟩ := by decide

end Qualified

end RowTypes
