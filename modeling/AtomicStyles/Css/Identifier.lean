/-!
# Writing identifiers

A class token may start with a digit or hold characters that mean something in
CSS, so a selector writes it with escapes. A character is written as itself where
an identifier may hold it, after a backslash when it is other printable ASCII,
and by its hexadecimal code otherwise.
-/

namespace AtomicStyles.Css

/-- The escape of a character by its code. The space ends the code. -/
def codeEscape (c : Char) : List Char :=
  '\\' :: Nat.toDigits 16 c.toNat ++ [' ']

/-- A character inside an identifier. -/
def nameChar (c : Char) : List Char :=
  if c.isAlphanum || c == '_' || c == '-' || 0x80 ≤ c.toNat then [c]
  else if c.toNat = 0 then ['\uFFFD']
  else if c.toNat < 0x20 || c.toNat = 0x7F then codeEscape c
  else ['\\', c]

/-- Characters that continue an identifier. -/
def nameChars (cs : List Char) : List Char :=
  cs.flatMap nameChar

/-- Characters of which the first may not be a digit. -/
def nameStart : List Char → List Char
  | c :: cs => if c.isDigit then codeEscape c ++ nameChars cs else nameChars (c :: cs)
  | [] => []

/-- The text of an identifier. No characters make no identifier and are written
as nothing. -/
def identifier : List Char → List Char
  | [] => []
  | ['-'] => ['\\', '-']
  | '-' :: '-' :: cs => '-' :: '-' :: nameChars cs
  | '-' :: cs => '-' :: nameStart cs
  | cs => nameStart cs

end AtomicStyles.Css
