import AtomicStyles.Number.Reading
import AtomicStyles.Yaml.Character

/-!
# Tokens of YAML

A YAML text falls into tokens. Some of them are not written: indentation starts
and ends collections, and a colon after something makes it a key. This module has
the tokens and reads those whose extent does not depend on what stands around
them: names, tags and directives.
-/

namespace AtomicStyles.Yaml

/-- A token. -/
inductive Token where
  | version (major minor : Nat)
  /-- A handle for tags, with the text that it stands for. -/
  | handle (name meaning : String)
  | documentStart
  | documentEnd
  | sequenceStart
  | mappingStart
  | blockEnd
  | flowSequenceStart
  | flowSequenceEnd
  | flowMappingStart
  | flowMappingEnd
  /-- The hyphen before an item of a block sequence. -/
  | item
  | comma
  | key
  | value
  | alias (name : String)
  | anchor (name : String)
  | tag (handle ending : String)
  | scalar (text : String) (plain : Bool)

/-! ## Names -/

/-- The indicators that may follow the name of an anchor. -/
def endsName (c : Char) : Bool :=
  c == '?' || c == ':' || c == ',' || c == ']' || c == '\x7d' || c == '%' || c == '@'
    || c == '\x60'

/-- Reads the name of an anchor. -/
def readName? (cs : List Char) : Option (String × List Char) :=
  let name := cs.takeWhile isWordChar
  let rest := cs.dropWhile isWordChar
  if !name.isEmpty && (atGap rest || (rest.head?.map endsName).getD false) then
    some (String.ofList name, rest)
  else none

/-! ## Tags

The text of a tag is a sequence of octets, each of which is given as the character
with that code. What counts of it is what comes before the first octet that is
zero. -/

/-- The characters of a tag, with three more between angle brackets. -/
def isTagChar (bracketed : Bool) (c : Char) : Bool :=
  isWordChar c || ";/?:@&=+$.!~*'()%".toList.contains c
    || (bracketed && (c == ',' || c == '[' || c == ']'))

/-- The number of octets that continue a character of UTF-8 after the given
one. -/
def continuations? (octet : Nat) : Option Nat :=
  if octet < 0x80 then some 0
  else if octet < 0xC0 then none
  else if octet < 0xE0 then some 1
  else if octet < 0xF0 then some 2
  else if octet < 0xF8 then some 3
  else none

/-- What is pending after an octet, when `pending` octets had to continue a
character before it. -/
def pendingAfter? (pending octet : Nat) : Option Nat :=
  match pending with
  | 0 => continuations? octet
  | n + 1 => if 0x80 ≤ octet && octet < 0xC0 then some n else none

/-- Reads characters of a tag. A percent sign escapes an octet by two hexadecimal
digits, and the escapes must make up characters of UTF-8. -/
def readTagText? (bracketed : Bool) : Nat → List Char → Option (List Char × List Char)
  | pending, '%' :: a :: b :: cs =>
      if (Reading.hexDigit? a).isSome && (Reading.hexDigit? b).isSome then
        let octet := Reading.value 16 [a, b]
        match pendingAfter? pending octet with
        | some pending =>
            (readTagText? bracketed pending cs).map fun hit => (Char.ofNat octet :: hit.1, hit.2)
        | none => none
      else none
  | 0, c :: cs =>
      if c = '%' then none
      else if isTagChar bracketed c then
        (readTagText? bracketed 0 cs).map fun hit => (c :: hit.1, hit.2)
      else some ([], c :: cs)
  | _ + 1, _ :: _ => none
  | 0, [] => some ([], [])
  | _ + 1, [] => none

/-- What counts of the text of a tag. -/
def tagText (octets : List Char) : String :=
  String.ofList (octets.takeWhile (· != '\x00'))

/-- Reads the handle of a tag: an exclamation mark, and a word with another one
behind it if there is one. -/
def readHandle? : List Char → Option (List Char × List Char)
  | '!' :: cs =>
      let word := cs.takeWhile isWordChar
      match cs.dropWhile isWordChar with
      | '!' :: rest => some ('!' :: word ++ ['!'], rest)
      | rest => some ('!' :: word, rest)
  | _ => none

/-- Whether a handle ends in a second exclamation mark. -/
def isNamed (handle : List Char) : Bool :=
  2 ≤ handle.length && handle.getLast? == some '!'

/-- Reads a tag: in angle brackets, behind a handle, or behind an exclamation mark
alone. -/
def readTag? : List Char → Option (Token × List Char)
  | '!' :: '<' :: cs => do
      let (text, rest) ← readTagText? true 0 cs
      guard (!text.isEmpty)
      match rest with
      | '>' :: rest => return (.tag "" (tagText text), rest)
      | _ => none
  | cs => do
      let (handle, rest) ← readHandle? cs
      let (text, rest) ← readTagText? false 0 rest
      if isNamed handle then
        guard (!text.isEmpty)
        return (.tag (String.ofList handle) (tagText text), rest)
      else
        let text := tagText (handle.tail ++ text)
        return (if text.isEmpty then .tag "" "!" else .tag "!" text, rest)

/-! ## Directives -/

/-- Reads a number of at most nine digits. -/
def readVersionNumber? (cs : List Char) : Option (Nat × List Char) :=
  let digits := cs.takeWhile Reading.isDigit
  if digits.isEmpty || 9 < digits.length then none
  else some (Reading.value 10 digits, cs.dropWhile Reading.isDigit)

/-- Reads a version. -/
def readVersion? (cs : List Char) : Option (Token × List Char) := do
  let (major, rest) ← readVersionNumber? cs
  match rest with
  | '.' :: rest => do
      let (minor, rest) ← readVersionNumber? rest
      return (.version major minor, rest)
  | _ => none

/-- Reads a handle and what it stands for. -/
def readMeaning? (cs : List Char) : Option (Token × List Char) := do
  let (handle, rest) ← readHandle? cs
  guard (handle = ['!'] || isNamed handle)
  guard ((rest.head?.map isBlank).getD false)
  let (text, rest) ← readTagText? true 0 (rest.dropWhile isBlank)
  guard (!text.isEmpty && atGap rest)
  return (.handle (String.ofList handle) (tagText text), rest)

/-- Reads a directive after its percent sign. -/
def readDirective? (cs : List Char) : Option (Token × List Char) :=
  let rest := cs.dropWhile isWordChar
  if atGap rest then
    match String.ofList (cs.takeWhile isWordChar) with
    | "YAML" => readVersion? (rest.dropWhile isBlank)
    | "TAG" => readMeaning? (rest.dropWhile isBlank)
    | _ => none
  else none

end AtomicStyles.Yaml
