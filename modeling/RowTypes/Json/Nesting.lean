import RowTypes.Json.Basic

/-!
# Limits on nesting

Two guards against deep nesting. `textExceeds` scans a text, which need
not be JSON, without reading it: brackets inside strings do not count,
and a closing bracket with none open is passed over. `exceeds` goes
through a value with a list of what is left to look at.
-/

namespace RowTypes

namespace Json

/-! ## Of a text -/

/-- Where a scan of a text stands. -/
inductive ScanState where
  | outside
  | inString
  /-- In a string, after a backslash. -/
  | escaped
deriving DecidableEq, Repr

/-- Scans on with `depth` brackets open; `true` as soon as there are more
of them than `limit`. -/
def scanExceeds (limit : Nat) : ScanState → (depth : Nat) → List Char → Bool
  | _, _, [] => false
  | .escaped, depth, _ :: cs => scanExceeds limit .inString depth cs
  | .inString, depth, c :: cs =>
    if c = '\\' then scanExceeds limit .escaped depth cs
    else if c = '"' then scanExceeds limit .outside depth cs
    else scanExceeds limit .inString depth cs
  | .outside, depth, c :: cs =>
    if c = '"' then scanExceeds limit .inString depth cs
    else if c = '[' ∨ c = '\x7b' then
      if limit < depth + 1 then true else scanExceeds limit .outside (depth + 1) cs
    else if c = ']' ∨ c = '\x7d' then scanExceeds limit .outside (depth - 1) cs
    else scanExceeds limit .outside depth cs

/-- Whether arrays and objects of a text nest deeper than `limit`. -/
def textExceeds (limit : Nat) (cs : List Char) : Bool :=
  scanExceeds limit .outside 0 cs

/-! ## Of a value -/

/-- The values directly inside an array or object; `none` for any other
value. -/
def parts? : Json → Option (List Json)
  | .arr items => some items
  | .obj fields => some (fields.map Prod.snd)
  | _ => none

/-- The size of what is left to look at. -/
noncomputable def workSize : List (Json × Nat) → Nat
  | [] => 0
  | (j, _) :: work => sizeOf j + workSize work

theorem workSize_append (v w : List (Json × Nat)) :
    workSize (v ++ w) = workSize v + workSize w := by
  induction v with
  | nil => simp [workSize]
  | cons x v ih => simp [workSize, ih]; omega

theorem workSize_map_lt (js : List Json) (depth : Nat) :
    workSize (js.map (·, depth)) < sizeOf js := by
  induction js with
  | nil => simp [workSize]
  | cons j js ih => simp [workSize]; omega

theorem sizeOf_values_le (fields : List (String × Json)) :
    sizeOf (fields.map Prod.snd) ≤ sizeOf fields := by
  induction fields with
  | nil => simp
  | cons f fs ih => obtain ⟨k, j⟩ := f; simp; omega

theorem sizeOf_parts_lt {j : Json} {js : List Json} (h : j.parts? = some js) :
    sizeOf js < sizeOf j := by
  cases j <;> simp [parts?] at h <;> subst h
  · simp
  · rename_i fields
    have := sizeOf_values_le fields
    simp only [obj.sizeOf_spec]
    omega

theorem sizeOf_pos (j : Json) : 0 < sizeOf j := by
  cases j <;> simp only [null.sizeOf_spec, bool.sizeOf_spec, num.sizeOf_spec,
    str.sizeOf_spec, arr.sizeOf_spec, obj.sizeOf_spec, unreadable.sizeOf_spec] <;>
    omega

/-- Looks at the values of a list, each with the number of arrays and
objects around it, and at what is inside them. -/
def workExceeds (limit : Nat) (work : List (Json × Nat)) : Bool :=
  match work with
  | [] => false
  | (j, depth) :: work =>
    match _h : j.parts? with
    | some js =>
      if limit < depth + 1 then true
      else workExceeds limit (js.map (·, depth + 1) ++ work)
    | none => workExceeds limit work
termination_by workSize work
decreasing_by
  · have h1 := workSize_map_lt js (depth + 1)
    have h2 := sizeOf_parts_lt _h
    simp only [workSize_append, workSize]
    omega
  · have := sizeOf_pos j
    simp only [workSize]
    omega

/-- Whether arrays and objects of a value nest deeper than `limit`. -/
def exceeds (limit : Nat) (j : Json) : Bool := workExceeds limit [(j, 0)]

end Json

end RowTypes
