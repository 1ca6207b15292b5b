import RowTypes.Json.Basic

/-!
# JSON text

Two layouts of a JSON value: `compact` without blanks, and `pretty` with
one item or field a line, two blanks for each level. In a string only
the quote, the backslash and the control characters are escaped. An
unreadable part is written as half of a surrogate pair, which no reader
takes for a value.
-/

namespace RowTypes

namespace Json

/-! ## Strings -/

/-- The hexadecimal digit of a number below sixteen. -/
def hexDigit (n : Nat) : Char := Nat.digitChar n

/-- A character inside a string, in front of `rest`. -/
def renderChar (c : Char) (rest : List Char) : List Char :=
  if c = '"' then '\\' :: '"' :: rest
  else if c = '\\' then '\\' :: '\\' :: rest
  else if c = '\x08' then '\\' :: 'b' :: rest
  else if c = '\x0c' then '\\' :: 'f' :: rest
  else if c = '\n' then '\\' :: 'n' :: rest
  else if c = '\r' then '\\' :: 'r' :: rest
  else if c = '\t' then '\\' :: 't' :: rest
  else if c.toNat < 32 then
    '\\' :: 'u' :: '0' :: '0' :: hexDigit (c.toNat / 16) :: hexDigit (c.toNat % 16) :: rest
  else c :: rest

/-- A quoted string in front of `rest`. -/
def renderString (s : String) (rest : List Char) : List Char :=
  '"' :: s.toList.foldr renderChar ('"' :: rest)

/-- Half of a surrogate pair, in quotes. -/
def loneSurrogate (rest : List Char) : List Char :=
  '"' :: '\\' :: 'u' :: 'd' :: '8' :: '0' :: '0' :: '"' :: rest

/-! ## Compact layout -/

mutual

/-- The compact text of a value in front of `rest`. -/
def render : Json → List Char → List Char
  | .null, rest => 'n' :: 'u' :: 'l' :: 'l' :: rest
  | .bool true, rest => 't' :: 'r' :: 'u' :: 'e' :: rest
  | .bool false, rest => 'f' :: 'a' :: 'l' :: 's' :: 'e' :: rest
  | .num n, rest => n.render rest
  | .str s, rest => renderString s rest
  | .arr [], rest => '[' :: ']' :: rest
  | .arr (j :: js), rest => '[' :: render j (renderItems js (']' :: rest))
  | .obj [], rest => '\x7b' :: '\x7d' :: rest
  | .obj ((k, j) :: fs), rest =>
    '\x7b' :: renderString k (':' :: render j (renderFields fs ('\x7d' :: rest)))
  | .unreadable, rest => loneSurrogate rest

/-- Further items, each after a comma. -/
def renderItems : List Json → List Char → List Char
  | [], rest => rest
  | j :: js, rest => ',' :: render j (renderItems js rest)

/-- Further fields, each after a comma. -/
def renderFields : List (String × Json) → List Char → List Char
  | [], rest => rest
  | (k, j) :: fs, rest =>
    ',' :: renderString k (':' :: render j (renderFields fs rest))

end

/-- The compact text of a value. -/
def compact (j : Json) : String := String.ofList (j.render [])

/-! ## Pretty layout -/

/-- A new line, indented by two blanks for each level. -/
def newLine (level : Nat) (rest : List Char) : List Char :=
  '\n' :: (List.replicate (2 * level) ' ' ++ rest)

mutual

/-- The pretty text of a value at a level of nesting, in front of
`rest`. -/
def renderPretty (level : Nat) : Json → List Char → List Char
  | .null, rest => 'n' :: 'u' :: 'l' :: 'l' :: rest
  | .bool true, rest => 't' :: 'r' :: 'u' :: 'e' :: rest
  | .bool false, rest => 'f' :: 'a' :: 'l' :: 's' :: 'e' :: rest
  | .num n, rest => n.render rest
  | .str s, rest => renderString s rest
  | .arr [], rest => '[' :: ']' :: rest
  | .arr (j :: js), rest =>
    '[' :: newLine (level + 1) (renderPretty (level + 1) j
      (renderPrettyItems (level + 1) js (newLine level (']' :: rest))))
  | .obj [], rest => '\x7b' :: '\x7d' :: rest
  | .obj ((k, j) :: fs), rest =>
    '\x7b' :: newLine (level + 1) (renderString k (':' :: ' ' ::
      renderPretty (level + 1) j
        (renderPrettyFields (level + 1) fs (newLine level ('\x7d' :: rest)))))
  | .unreadable, rest => loneSurrogate rest

/-- Further items, each after a comma on a line of its own. -/
def renderPrettyItems (level : Nat) : List Json → List Char → List Char
  | [], rest => rest
  | j :: js, rest =>
    ',' :: newLine level (renderPretty level j (renderPrettyItems level js rest))

/-- Further fields, each after a comma on a line of its own. -/
def renderPrettyFields (level : Nat) :
    List (String × Json) → List Char → List Char
  | [], rest => rest
  | (k, j) :: fs, rest =>
    ',' :: newLine level (renderString k (':' :: ' ' ::
      renderPretty level j (renderPrettyFields level fs rest)))

end

/-- The pretty text of a value. -/
def pretty (j : Json) : String := String.ofList (j.renderPretty 0 [])

end Json

end RowTypes
