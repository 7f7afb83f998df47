import AtomicStyles.Text.Invisible
import AtomicStyles.Theme.Property

/-!
# Summaries of property definitions

A one-line text of a definition for people who look into a theme: the kind of
its value set with the values in order, and whether it makes its own
declarations. Resolvers are functions and have no text.
-/

namespace AtomicStyles.Summary

/-- A character inside quotes: as itself when it is visible, and by an escape
otherwise. -/
def quotedChar (c : Char) : List Char :=
  if c == '"' then ['\\', '"']
  else if c == '\\' then ['\\', '\\']
  else if c == '\n' then ['\\', 'n']
  else if c == '\r' then ['\\', 'r']
  else if c == '\t' then ['\\', 't']
  else if c.toNat = 0 then ['\\', '0']
  else if Text.isInvisible c then
    '\\' :: 'u' :: '\x7b' :: Nat.toDigits 16 c.toNat ++ ['\x7d']
  else [c]

/-- A text in quotes. -/
def quoted (s : String) : String :=
  "\"" ++ String.ofList (s.toList.flatMap quotedChar) ++ "\""

/-- Value names with their CSS texts. -/
def entries (values : Entries String) : String :=
  "\x7b" ++ ", ".intercalate (values.map fun e => quoted e.1 ++ ": " ++ quoted e.2) ++ "\x7d"

/-- A value set. -/
def valueSet : ValueSet → String
  | .enumerated values => "Enumerated(" ++ entries values ++ ")"
  | .color values => "Color(" ++ entries values ++ ")"
  | .arbitrary _ => "Arbitrary(..)"

/-- A property definition. -/
def definition (d : PropertyDefinition) : String :=
  "PropertyDefinition \x7b values: " ++ valueSet d.values ++ ", mapped: "
    ++ (if d.mapper.isSome then "true" else "false") ++ " \x7d"

end AtomicStyles.Summary
