/-!
# Characters of YAML

Character classes of the format, and positions in a text. The structure of a YAML
text depends on columns, which count characters, and on how far apart two places
of a line are, which is counted in bytes of UTF-8.
-/

namespace AtomicStyles.Yaml

/-- The characters that a text may hold. -/
def isAllowed (c : Char) : Bool :=
  let n := c.toNat
  n == 0x9 || n == 0xA || n == 0xD || (0x20 ≤ n && n ≤ 0x7E) || n == 0x85
    || (0xA0 ≤ n && n ≤ 0xD7FF) || (0xE000 ≤ n && n ≤ 0xFFFD) || 0x10000 ≤ n

/-- Line breaks. -/
def isBreak (c : Char) : Bool :=
  c == '\n' || c == '\r' || c == '\u0085' || c == '\u2028' || c == '\u2029'

/-- Space and tab. -/
def isBlank (c : Char) : Bool := c == ' ' || c == '\t'

/-- Characters of anchors, handles and directive names. -/
def isWordChar (c : Char) : Bool := c.isAlphanum || c == '_' || c == '-'

/-- Whether a blank, a line break or the end of the text comes first. -/
def atGap : List Char → Bool
  | [] => true
  | c :: _ => isBlank c || isBreak c

/-- Whether a marker between documents, three hyphens or three points, comes
first. -/
def atDocumentMark : List Char → Bool
  | '-' :: '-' :: '-' :: cs => atGap cs
  | '.' :: '.' :: '.' :: cs => atGap cs
  | _ => false

/-- What a line break stands for in a scalar. All but two of them become a line
feed. -/
def breakChar (c : Char) : Char :=
  if c == '\u2028' || c == '\u2029' then c else '\n'

/-- A place in a text. -/
structure Position where
  line : Nat := 0
  /-- The number of characters before it in its line. -/
  column : Nat := 0
  /-- The number of bytes before it in its line. -/
  offset : Nat := 0

namespace Position

/-- The place after one character in the same line. -/
def next (p : Position) (c : Char) : Position :=
  { p with column := p.column + 1, offset := p.offset + c.utf8Size }

/-- The place after some characters in the same line. -/
def skip (p : Position) (cs : List Char) : Position :=
  cs.foldl next p

/-- The start of the next line. -/
def newLine (p : Position) : Position :=
  { line := p.line + 1 }

end Position

/-- The line break at the start of a text: what it stands for, the number of its
characters, and what follows. A carriage return with a line feed is one. -/
def readBreak? : List Char → Option (Char × Nat × List Char)
  | '\r' :: '\n' :: cs => some ('\n', 2, cs)
  | c :: cs => if isBreak c then some (breakChar c, 1, cs) else none
  | [] => none

/-- Goes on to the next line, when nothing but blanks and a comment is left of this
one. -/
def nextLine? (cs : List Char) (p : Position) : Option (List Char × Position) :=
  let head := cs.dropWhile isBlank
  let tail := if head.head? = some '#' then head.dropWhile (fun c => !isBreak c) else head
  let p := p.skip (cs.take (cs.length - tail.length))
  match readBreak? tail with
  | some (_, _, rest) => some (rest, p.newLine)
  | none => if tail.isEmpty then some ([], p) else none

end AtomicStyles.Yaml
