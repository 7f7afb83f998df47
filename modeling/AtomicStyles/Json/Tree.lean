import AtomicStyles.Json.Numeral

/-!
# JSON text

Reads JSON text into a tree that still holds what was written: strings with their
escapes told apart, numerals by their parts, members of objects with their
repeats. A text may be well-formed and yet say something that no data can hold,
half of a surrogate pair or a number out of range. That is found when the tree is
turned into data.
-/

namespace AtomicStyles.Json

/-- A piece of a string. -/
inductive Piece where
  /-- A character, written as itself or by a short escape. -/
  | char (c : Char)
  /-- A UTF-16 unit, written by its code. -/
  | unit (code : Nat)

/-- A JSON text as it is written. -/
inductive Tree where
  | null
  | bool (value : Bool)
  | numeral (n : Numeral)
  | text (pieces : List Piece)
  | array (items : List Tree)
  | object (members : List (List Piece × Tree))

namespace Tree

/-- The white space of JSON. -/
def isSpace (c : Char) : Bool :=
  c == ' ' || c == '\t' || c == '\n' || c == '\r'

def skipSpace (cs : List Char) : List Char := cs.dropWhile isSpace

/-- The character of a short escape. -/
def shortEscape? : Char → Option Char
  | '"' => some '"'
  | '\\' => some '\\'
  | '/' => some '/'
  | 'b' => some '\x08'
  | 'f' => some '\x0c'
  | 'n' => some '\n'
  | 'r' => some '\r'
  | 't' => some '\t'
  | _ => none

/-- Reads a string after its opening quote. -/
def readPieces? : List Char → Option (List Piece × List Char)
  | [] => none
  | '"' :: cs => some ([], cs)
  | '\\' :: 'u' :: a :: b :: c :: d :: cs =>
      if [a, b, c, d].all fun x => (Reading.hexDigit? x).isSome then
        (readPieces? cs).map fun hit => (.unit (Reading.value 16 [a, b, c, d]) :: hit.1, hit.2)
      else none
  | '\\' :: e :: cs =>
      match shortEscape? e with
      | some c => (readPieces? cs).map fun hit => (.char c :: hit.1, hit.2)
      | none => none
  | c :: cs =>
      if c = '\\' ∨ c.toNat < 0x20 then none
      else (readPieces? cs).map fun hit => (.char c :: hit.1, hit.2)

/-- Reads the fraction of a numeral, when a point comes first. -/
def readFraction? : List Char → Option (List Char × List Char)
  | '.' :: cs =>
      let digits := cs.takeWhile Reading.isDigit
      if digits.isEmpty then none else some (digits, cs.dropWhile Reading.isDigit)
  | cs => some ([], cs)

/-- Reads the exponent of a numeral, when a letter for one comes first. -/
def readPower? : List Char → Option (Option (Bool × List Char) × List Char)
  | [] => some (none, [])
  | c :: cs =>
      if c = 'e' ∨ c = 'E' then
        let (negative, cs) := Reading.sign cs
        let digits := cs.takeWhile Reading.isDigit
        if digits.isEmpty then none
        else some (some (negative, digits), cs.dropWhile Reading.isDigit)
      else some (none, c :: cs)

/-- Reads a numeral after its minus sign. The integer part has no leading
zero. -/
def readNumeral? (negative : Bool) (cs : List Char) : Option (Tree × List Char) := do
  let whole := cs.takeWhile Reading.isDigit
  guard (!whole.isEmpty && (whole.length = 1 || whole.head? != some '0'))
  let (fraction, cs) ← readFraction? (cs.dropWhile Reading.isDigit)
  let (power, cs) ← readPower? cs
  return (.numeral ⟨negative, whole, fraction, power⟩, cs)

/-- Reads a value that is neither an array nor an object. -/
def readScalar? : List Char → Option (Tree × List Char)
  | '"' :: cs => (readPieces? cs).map fun hit => (.text hit.1, hit.2)
  | '-' :: cs => readNumeral? true cs
  | 'n' :: 'u' :: 'l' :: 'l' :: cs => some (.null, cs)
  | 't' :: 'r' :: 'u' :: 'e' :: cs => some (.bool true, cs)
  | 'f' :: 'a' :: 'l' :: 's' :: 'e' :: cs => some (.bool false, cs)
  | cs => readNumeral? false cs

mutual

/-- Reads one value. The first argument bounds the number of steps; one for each
character is enough. -/
def read? : Nat → List Char → Option (Tree × List Char)
  | 0, _ => none
  | fuel + 1, cs =>
      match skipSpace cs with
      | '[' :: rest =>
          match skipSpace rest with
          | ']' :: rest => some (.array [], rest)
          | rest => (readItems? fuel rest).map fun hit => (.array hit.1, hit.2)
      | '\x7b' :: rest =>
          match skipSpace rest with
          | '\x7d' :: rest => some (.object [], rest)
          | rest => (readMembers? fuel rest).map fun hit => (.object hit.1, hit.2)
      | rest => readScalar? rest

/-- Reads one or more items and the closing bracket. -/
def readItems? : Nat → List Char → Option (List Tree × List Char)
  | 0, _ => none
  | fuel + 1, cs => do
      let (item, rest) ← read? fuel cs
      match skipSpace rest with
      | ',' :: rest =>
          let (items, rest) ← readItems? fuel rest
          return (item :: items, rest)
      | ']' :: rest => return ([item], rest)
      | _ => none

/-- Reads one or more members and the closing brace. -/
def readMembers? : Nat → List Char → Option (List (List Piece × Tree) × List Char)
  | 0, _ => none
  | fuel + 1, cs =>
      match skipSpace cs with
      | '"' :: rest => do
          let (key, rest) ← readPieces? rest
          match skipSpace rest with
          | ':' :: rest =>
              let (value, rest) ← read? fuel rest
              match skipSpace rest with
              | ',' :: rest =>
                  let (members, rest) ← readMembers? fuel rest
                  return ((key, value) :: members, rest)
              | '\x7d' :: rest => return ([(key, value)], rest)
              | _ => none
          | _ => none
      | _ => none

end

/-- The tree of a text that holds one value and nothing else. -/
def ofText? (text : String) : Option Tree :=
  let cs := text.toList
  match read? (cs.length + 1) cs with
  | some (tree, rest) => if (skipSpace rest).isEmpty then some tree else none
  | none => none

end Tree

/-- The text that pieces make up. Units must be characters or whole surrogate
pairs. -/
def textOf? : List Piece → Option (List Char)
  | [] => some []
  | .char c :: ps => (textOf? ps).map (c :: ·)
  | .unit high :: .unit low :: ps =>
      if 0xD800 ≤ high ∧ high < 0xDC00 then
        if 0xDC00 ≤ low ∧ low < 0xE000 then
          (textOf? ps).map
            (Char.ofNat (0x10000 + (high - 0xD800) * 0x400 + (low - 0xDC00)) :: ·)
        else none
      else if 0xDC00 ≤ high ∧ high < 0xE000 then none
      else (textOf? (.unit low :: ps)).map (Char.ofNat high :: ·)
  | .unit code :: ps =>
      if 0xD800 ≤ code ∧ code < 0xE000 then none
      else (textOf? ps).map (Char.ofNat code :: ·)

end AtomicStyles.Json
