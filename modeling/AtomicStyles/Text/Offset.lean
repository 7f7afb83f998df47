/-!
# Byte offsets into text

Positions in a class token are counted in bytes of its UTF-8 form. A position
is only meaningful between two characters, so dropping a number of bytes fails
when the count ends inside a character or runs past the end.
-/

namespace AtomicStyles.Text

/-- What is left after the first `n` bytes, when they are whole characters. -/
def dropBytes : List Char → Nat → Option (List Char)
  | [], n => if n = 0 then some [] else none
  | c :: cs, n =>
      if n = 0 then some (c :: cs)
      else if c.utf8Size ≤ n then dropBytes cs (n - c.utf8Size)
      else none

end AtomicStyles.Text
