import AtomicStyles.Data

/-!
# Writing JSON text

The compact form: no white space, and strings with the shortest escapes that JSON
has. Only quotes, backslashes and control characters are escaped.
-/

namespace AtomicStyles.Json

/-- A hexadecimal digit, in small letters. -/
def hexDigit (n : Nat) : Char :=
  if n < 10 then Char.ofNat ('0'.toNat + n) else Char.ofNat ('a'.toNat + (n - 10))

/-- A character inside a string. -/
def quotedChar (c : Char) : List Char :=
  if c == '"' then ['\\', '"']
  else if c == '\\' then ['\\', '\\']
  else if c == '\x08' then ['\\', 'b']
  else if c == '\x0c' then ['\\', 'f']
  else if c == '\n' then ['\\', 'n']
  else if c == '\r' then ['\\', 'r']
  else if c == '\t' then ['\\', 't']
  else if c.toNat < 0x20 then
    ['\\', 'u', '0', '0', hexDigit (c.toNat / 16), hexDigit (c.toNat % 16)]
  else [c]

/-- A string in quotes. -/
def quoted (s : String) : List Char :=
  '"' :: s.toList.flatMap quotedChar ++ ['"']

/-- A scalar. A number that is not finite is written as null. -/
def scalar : Data → List Char
  | .bool true => ['t', 'r', 'u', 'e']
  | .bool false => ['f', 'a', 'l', 's', 'e']
  | .natural n => Nat.toDigits 10 n
  | .negated n => (toString (-(n : Int))).toList
  | .real x =>
      match x.json? with
      | some s => s.toList
      | none => ['n', 'u', 'l', 'l']
  | .text s => quoted s
  | _ => ['n', 'u', 'l', 'l']

/-- The key of a member. A key that is no text stands in quotes as the scalar that
it is. -/
def memberKey : Data → List Char
  | .text s => quoted s
  | d => quoted (String.ofList (scalar d))

mutual

/-- The text of data, character by character. -/
def chars : Data → List Char
  | .list items => '[' :: itemChars items
  | .table entries => '\x7b' :: entryChars entries
  | d => scalar d

/-- The items of an array and its closing bracket. -/
def itemChars : List Data → List Char
  | [] => [']']
  | [d] => chars d ++ [']']
  | d :: ds => chars d ++ ',' :: itemChars ds

/-- The members of an object and its closing brace. -/
def entryChars : List (Data × Data) → List Char
  | [] => ['\x7d']
  | [(k, v)] => memberKey k ++ ':' :: chars v ++ ['\x7d']
  | (k, v) :: es => memberKey k ++ ':' :: chars v ++ ',' :: entryChars es

end

/-- The text of data. -/
def text (d : Data) : String :=
  String.ofList (chars d)

end AtomicStyles.Json
