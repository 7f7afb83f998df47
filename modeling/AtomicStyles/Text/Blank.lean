/-!
# Blank text

Three notions of white space meet in this library, and each has its own job.
Values and preludes are trimmed by the Unicode property White_Space, class
lists are split at the five ASCII separators of HTML, and the readers of the
data formats have separators of their own beside their grammars.
-/

namespace AtomicStyles.Text

/-- The characters with the Unicode property White_Space. -/
def isBlank (c : Char) : Bool :=
  let n := c.toNat
  (0x9 ≤ n && n ≤ 0xD) || n == 0x20 || n == 0x85 || n == 0xA0 || n == 0x1680
    || (0x2000 ≤ n && n ≤ 0x200A) || n == 0x2028 || n == 0x2029 || n == 0x202F
    || n == 0x205F || n == 0x3000

/-- Drops blank characters at both ends. -/
def trim (cs : List Char) : List Char :=
  ((cs.dropWhile isBlank).reverse.dropWhile isBlank).reverse

/-- The text without blank characters at either end. -/
def trimmed (s : String) : String :=
  String.ofList (trim s.toList)

/-- Whether nothing but blank characters occurs. -/
def isBlankText (s : String) : Bool :=
  s.toList.all isBlank

/-- The separators of a class list: space, tab, line feed, form feed and
carriage return. -/
def isSeparator (c : Char) : Bool :=
  c == ' ' || c == '\t' || c == '\n' || c == '\x0c' || c == '\r'

/-- The stretches between separators, empty ones included, so there is one more
of them than there are separators. -/
def stretches : List Char → List (List Char)
  | [] => [[]]
  | c :: cs =>
      if isSeparator c then [] :: stretches cs
      else
        match stretches cs with
        | [] => [[c]]
        | w :: ws => (c :: w) :: ws

/-- The words of a class list, in order. -/
def words (s : String) : List String :=
  ((stretches s.toList).filter (fun w => !w.isEmpty)).map String.ofList

end AtomicStyles.Text
