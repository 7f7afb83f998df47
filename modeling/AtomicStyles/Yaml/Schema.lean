import AtomicStyles.Data
import AtomicStyles.Number.Reading

/-!
# What scalars stand for

A plain scalar without a tag stands for a null, a boolean, an integer, another
number or its text, in this order. A tag can ask for one of the first four, or for
the text. Integers that no machine integer of 64 bits holds are refused up to the
range of 128 bits, and are other numbers beyond it.
-/

namespace AtomicStyles.Yaml

/-- The spellings of null, except no text at all. -/
def isNullWord (text : String) : Bool :=
  text == "~" || text == "null" || text == "Null" || text == "NULL"

/-- The boolean that a text spells. -/
def bool? : String → Option Bool
  | "true" => some true
  | "True" => some true
  | "TRUE" => some true
  | "false" => some false
  | "False" => some false
  | "FALSE" => some false
  | _ => none

/-- The number that digits of a base spell. -/
def digits? (base : Nat) (cs : List Char) : Option Nat :=
  if !cs.isEmpty && cs.all fun c => (Reading.hexDigit? c).any fun n => n < base then
    some (Reading.value base cs)
  else none

/-- Whether decimal digits have a zero too many in front. -/
def hasLeadingZero : List Char → Bool
  | '0' :: c :: cs => (c :: cs).all Reading.isDigit
  | _ => false

/-- The number that a text without a sign spells. -/
def natural? : List Char → Option Nat
  | '0' :: 'x' :: cs => digits? 16 cs
  | '0' :: 'o' :: cs => digits? 8 cs
  | '0' :: 'b' :: cs => digits? 2 cs
  | cs => if hasLeadingZero cs then none else digits? 10 cs

/-- The integer that a text spells: whether it has a minus sign, and its
magnitude. -/
def integer? : List Char → Option (Bool × Nat)
  | '-' :: cs => (natural? cs).map fun n => (true, n)
  | '+' :: cs => (natural? cs).map fun n => (false, n)
  | cs => (natural? cs).map fun n => (false, n)

/-- Whether an integer fits into `bits` bits, which have a sign if it has one. -/
def fits (bits : Nat) (negative : Bool) (magnitude : Nat) : Bool :=
  if negative then magnitude ≤ Nat.pow 2 (bits - 1) else magnitude < Nat.pow 2 bits

/-- An integer of 64 bits as data. -/
def integerData? (negative : Bool) (magnitude : Nat) : Option Data :=
  if fits 64 negative magnitude then
    some (if negative then .negated magnitude else .natural magnitude)
  else none

/-- The finite number that a text spells. -/
def decimal? (cs : List Char) : Option Binary64 :=
  (Reading.number? cs).filter Binary64.isFinite

/-- The number that a text spells as a decimal, an infinity or no number. -/
def real? (text : String) : Option Binary64 :=
  if text == "-.inf" || text == "-.Inf" || text == "-.INF" then some (.infinite true)
  else if text == ".nan" || text == ".NaN" || text == ".NAN" then some .nan
  else
    let unsigned := if text.startsWith "+" then text.toList.tail else text.toList
    if unsigned = ".inf".toList || unsigned = ".Inf".toList || unsigned = ".INF".toList then
      some (.infinite false)
    else
      match text.toList with
      | '+' :: '+' :: _ => none
      | '+' :: '-' :: _ => none
      | '+' :: cs => decimal? cs
      | cs => decimal? cs

/-- What a plain scalar stands for. -/
def plain? (text : String) : Option Data :=
  let number : Data :=
    if hasLeadingZero (Reading.sign text.toList).2 then .text text
    else
      match real? text with
      | some x => .real x
      | none => .text text
  if text.isEmpty || isNullWord text then some .null
  else
    match bool? text with
    | some b => some (.bool b)
    | none =>
        match integer? text.toList with
        | some (negative, n) =>
            if fits 128 negative n then integerData? negative n else some number
        | none => some number

/-- What a scalar with a tag of the format stands for. Tags that are not known ask
for the text. -/
def tagged? (tag text : String) : Option Data :=
  match tag with
  | "tag:yaml.org,2002:bool" => (bool? text).map .bool
  | "tag:yaml.org,2002:int" => (integer? text.toList).bind fun n => integerData? n.1 n.2
  | "tag:yaml.org,2002:float" => (real? text).map .real
  | "tag:yaml.org,2002:null" => if isNullWord text then some .null else none
  | _ => some (.text text)

/-- Whether a tag is one that a text makes up for itself. Such tags begin with an
exclamation mark. -/
def isLocal (tag : String) : Bool :=
  tag.startsWith "!"

/-- Whether the octets of a tag are UTF-8. -/
def isReadable (tag : String) : Bool :=
  (String.fromUTF8? (tag.toList.map fun c => c.toUInt8).toByteArray).isSome

/-- Whether a tag forbids that something is taken as data: a local one does, unless
it cannot be read. -/
def isForeign (tag : String) : Bool :=
  isLocal tag && isReadable tag

/-- What a scalar stands for. -/
def scalar? (tag : Option String) (text : String) (plain : Bool) : Option Data :=
  let untagged := if plain then plain? text else some (.text text)
  match tag with
  | none => untagged
  | some tag =>
      if isForeign tag then none
      else if isLocal tag then untagged
      else tagged? tag text

end AtomicStyles.Yaml
