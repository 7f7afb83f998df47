import AtomicStyles.Number.Reading
import AtomicStyles.Yaml.Character

/-!
# The text of scalars

A scalar is written plain, in quotes, or as an indented block. Plain and quoted
scalars may run over several lines, and the gaps between their words are folded:
one line break becomes a space, and of several the first is dropped. A block
keeps its lines, or folds them unless they are indented further.
-/

namespace AtomicStyles.Yaml

/-- Blanks and line breaks between the words of a scalar. -/
structure Gap where
  /-- The blanks, while there is no line break. -/
  blanks : List Char := []
  /-- Whether there is a line break, or an escaped one. -/
  broken : Bool := false
  /-- The first line break. -/
  first : List Char := []
  /-- The other line breaks. -/
  more : List Char := []

namespace Gap

/-- The gap with a blank after it. -/
def addBlank (g : Gap) (c : Char) : Gap :=
  if g.broken then g else { g with blanks := g.blanks ++ [c] }

/-- The gap with a line break after it. -/
def addBreak (g : Gap) (c : Char) : Gap :=
  if g.broken then { g with more := g.more ++ [c] }
  else { broken := true, first := [c] }

/-- What the gap becomes. -/
def folded (g : Gap) : List Char :=
  if !g.broken then g.blanks
  else if g.first = ['\n'] then (if g.more.isEmpty then [' '] else g.more)
  else g.first ++ g.more

end Gap

/-- A scalar that has been read: its text, what follows it, and whether it ended
after a line break. -/
structure ReadScalar where
  text : List Char
  rest : List Char
  position : Position
  broken : Bool := false

/-- The folded text of a gap that may be there, before text in reverse. -/
def afterGap (gap : Option Gap) (reversed : List Char) : List Char :=
  match gap with
  | some g => g.folded.reverse ++ reversed
  | none => reversed

/-- Whether a plain scalar ends here: at a colon before a gap, and between
brackets at a comma or bracket. -/
def endsPlain (inFlow : Bool) (c : Char) (cs : List Char) : Bool :=
  (c == ':' && atGap cs)
    || (inFlow && (c == ',' || c == '[' || c == ']' || c == '\x7b' || c == '\x7d'))

/-- Whether a colon stands where none may: between brackets, before an
indicator. -/
def misplacedColon (inFlow : Bool) (c : Char) (cs : List Char) : Bool :=
  inFlow && c == ':' &&
    match cs with
    | d :: _ =>
        d == ',' || d == '?' || d == '[' || d == ']' || d == '\x7b' || d == '\x7d'
    | [] => false

/-- Whether a plain scalar ends before a word that follows a gap. -/
def stopsAfterGap (inFlow : Bool) (indent : Nat) (cs : List Char) (p : Position) : Bool :=
  (!inFlow && p.column < indent) || (p.column == 0 && atDocumentMark cs)
    || cs.head? == some '#'

/-- Reads a plain scalar. Lines that go on must be indented by `indent`, unless
they stand between brackets. The text so far is given in reverse, with the gap
after it. -/
def readPlain? (inFlow : Bool) (indent : Nat) :
    List Char → Position → List Char → Option Gap → Option ReadScalar
  | [], p, text, gap => some ⟨text.reverse, [], p, (gap.map (·.broken)).getD false⟩
  | '\r' :: '\n' :: cs, p, text, gap =>
      readPlain? inFlow indent cs p.newLine text (some ((gap.getD {}).addBreak '\n'))
  | c :: cs, p, text, gap =>
      if isBlank c then
        let g := gap.getD {}
        if g.broken && p.column < indent && c == '\t' then none
        else readPlain? inFlow indent cs (p.next c) text (some (g.addBlank c))
      else if isBreak c then
        readPlain? inFlow indent cs p.newLine text
          (some ((gap.getD {}).addBreak (breakChar c)))
      else
        let stop := some ⟨text.reverse, c :: cs, p, (gap.map (·.broken)).getD false⟩
        if gap.isSome && stopsAfterGap inFlow indent (c :: cs) p then stop
        else if misplacedColon inFlow c cs then none
        else if endsPlain inFlow c cs then stop
        else readPlain? inFlow indent cs (p.next c) (c :: afterGap gap text) none

/-- The character that a short escape stands for. -/
def shortEscape? : Char → Option Char
  | '0' => some '\x00'
  | 'a' => some '\x07'
  | 'b' => some '\x08'
  | 't' => some '\t'
  | '\t' => some '\t'
  | 'n' => some '\n'
  | 'v' => some '\x0b'
  | 'f' => some '\x0c'
  | 'r' => some '\r'
  | 'e' => some '\x1b'
  | ' ' => some ' '
  | '"' => some '"'
  | '/' => some '/'
  | '\\' => some '\\'
  | 'N' => some '\u0085'
  | '_' => some '\u00a0'
  | 'L' => some '\u2028'
  | 'P' => some '\u2029'
  | _ => none

/-- The number of digits of a code escape. -/
def codeLength? : Char → Option Nat
  | 'x' => some 2
  | 'u' => some 4
  | 'U' => some 8
  | _ => none

/-- The character with the given code, unless the code is half of a surrogate
pair or too great. -/
def charOfCode? (n : Nat) : Option Char :=
  if n.isValidChar then some (Char.ofNat n) else none

/-- Reads what follows a backslash: what it stands for, and the number of
characters that it takes. An escaped line break stands for no character. -/
def readEscape? (cs : List Char) : Option (Option Char × Nat) :=
  match readBreak? cs with
  | some (_, n, _) => some (none, n)
  | none =>
      match cs with
      | [] => none
      | e :: cs =>
          match codeLength? e with
          | some n => do
              let digits := cs.take n
              guard (digits.length = n && digits.all fun d => (Reading.hexDigit? d).isSome)
              let c ← charOfCode? (Reading.value 16 digits)
              return (some c, n + 1)
          | none => (shortEscape? e).map fun c => (some c, 1)

/-- Reads a quoted scalar after its opening quote. Double quotes have escapes, and
between single quotes a quote is written twice. -/
def readQuoted? (double : Bool) (cs : List Char) (p : Position) (text : List Char)
    (gap : Option Gap) : Option ReadScalar :=
  match cs with
  | [] => none
  | '\r' :: '\n' :: cs =>
      readQuoted? double cs p.newLine text (some ((gap.getD {}).addBreak '\n'))
  | c :: cs =>
      if isBlank c then
        readQuoted? double cs (p.next c) text (some ((gap.getD {}).addBlank c))
      else if isBreak c then
        readQuoted? double cs p.newLine text (some ((gap.getD {}).addBreak (breakChar c)))
      else if gap.isSome && p.column == 0 && atDocumentMark (c :: cs) then none
      else
        let text := afterGap gap text
        if double then
          if c = '"' then some ⟨text.reverse, cs, p.next c, false⟩
          else if c = '\\' then
            match readEscape? cs with
            | some (some e, n) =>
                readQuoted? double (cs.drop n) (p.skip (c :: cs.take n)) (e :: text) none
            | some (none, n) =>
                readQuoted? double (cs.drop n) p.newLine text (some { broken := true })
            | none => none
          else readQuoted? double cs (p.next c) (c :: text) none
        else if c = '\'' then
          match cs with
          | '\'' :: more => readQuoted? double more ((p.next c).next c) ('\'' :: text) none
          | _ => some ⟨text.reverse, cs, p.next c, false⟩
        else readQuoted? double cs (p.next c) (c :: text) none
termination_by cs.length
decreasing_by all_goals simp only [List.length_cons, List.length_drop]; omega

/-! ## Blocks -/

/-- What becomes of the line breaks at the end of a block. -/
inductive Chomping where
  | clip
  | strip
  | keep
  deriving DecidableEq

/-- The empty lines before a line of a block: their breaks, the greatest column
reached, and what follows. -/
structure BlockBreaks where
  breaks : List Char
  width : Nat
  rest : List Char
  position : Position

/-- Reads empty lines and the indentation after them. The indentation zero is one
not known yet. A tab may not stand in the indentation. -/
def readBreaks? (indent : Nat) :
    List Char → Position → List Char → Nat → Option BlockBreaks
  | [], p, breaks, width => some ⟨breaks, max width p.column, [], p⟩
  | '\r' :: '\n' :: cs, p, breaks, width =>
      readBreaks? indent cs p.newLine (breaks ++ ['\n']) (max width p.column)
  | c :: cs, p, breaks, width =>
      let within := indent == 0 || p.column < indent
      if c == ' ' && within then readBreaks? indent cs (p.next c) breaks width
      else if c == '\t' && within then none
      else if isBreak c then
        readBreaks? indent cs p.newLine (breaks ++ [breakChar c]) (max width p.column)
      else some ⟨breaks, max width p.column, c :: cs, p⟩

/-- A block as far as it has been read. -/
structure Block where
  /-- The text up to the end of the last line. -/
  text : List Char := []
  /-- The break of the last line. -/
  last : List Char := []
  /-- The breaks of empty lines after it. -/
  breaks : List Char
  /-- Whether the last line starts with a blank. -/
  indented : Bool := false
  rest : List Char
  position : Position

/-- What joins the text read so far to a line that starts with `c`. -/
def Block.joint (b : Block) (folding : Bool) (c : Char) : List Char :=
  if folding && b.last = ['\n'] && !b.indented && !isBlank c then
    (if b.breaks.isEmpty then [' '] else []) ++ b.breaks
  else b.last ++ b.breaks

/-- Reads the lines of a block. Every line takes at least one character; the test
makes that plain to see. -/
def readLines? (folding : Bool) (indent : Nat) (b : Block) : Option Block :=
  match b.rest with
  | [] => some b
  | c :: _ =>
      if b.position.column ≠ indent then some b
      else
        let line := b.rest.takeWhile fun d => !isBreak d
        let after := b.rest.drop line.length
        let p := b.position.skip line
        let (last, after, p) :=
          match readBreak? after with
          | some (e, _, more) => ([e], more, p.newLine)
          | none => ([], after, p)
        match readBreaks? indent after p [] 0 with
        | none => none
        | some next =>
            if _h : next.rest.length < b.rest.length then
              readLines? folding indent
                { text := b.text ++ b.joint folding c ++ line, last, breaks := next.breaks
                  indented := isBlank c, rest := next.rest, position := next.position }
            else none
termination_by b.rest.length
decreasing_by exact _h

/-- The digit of an indentation indicator, which is not zero. -/
def indicatorDigit? (c : Char) : Option Nat :=
  if c = '0' then none else Reading.digit? c

/-- The chomping of an indicator. -/
def chomping? : Char → Option Chomping
  | '+' => some .keep
  | '-' => some .strip
  | _ => none

/-- Reads the indicators after the start of a block, in either order. The digit
zero is none. -/
def readIndicators? : List Char → Option (Chomping × Nat × List Char)
  | [] => some (.clip, 0, [])
  | c :: cs =>
      match chomping? c with
      | some chomping =>
          match cs with
          | d :: more =>
              if d.isDigit then (indicatorDigit? d).map fun n => (chomping, n, more)
              else some (chomping, 0, cs)
          | [] => some (chomping, 0, [])
      | none =>
          if c.isDigit then do
            let n ← indicatorDigit? c
            match cs with
            | d :: more =>
                match chomping? d with
                | some chomping => return (chomping, n, more)
                | none => return (.clip, n, cs)
            | [] => return (.clip, n, [])
          else some (.clip, 0, c :: cs)

/-- Reads a block after the character that starts it. The enclosing indentation
is that of the collection around it, or `-1`. -/
def readBlock? (folding : Bool) (enclosing : Int) (cs : List Char) (p : Position) :
    Option ReadScalar := do
  let (chomping, digit, afterHead) ← readIndicators? cs
  let (start, p) ← nextLine? afterHead (p.skip (cs.take (cs.length - afterHead.length)))
  let known : Nat := if digit = 0 then 0 else ((max enclosing 0) + digit).toNat
  let before ← readBreaks? known start p [] 0
  let indent := if known = 0 then max (max before.width (enclosing + 1).toNat) 1 else known
  let b ← readLines? folding indent
    { breaks := before.breaks, rest := before.rest, position := before.position }
  let ending :=
    match chomping with
    | .strip => []
    | .clip => b.last
    | .keep => b.last ++ b.breaks
  return ⟨b.text ++ ending, b.rest, b.position, false⟩

end AtomicStyles.Yaml
