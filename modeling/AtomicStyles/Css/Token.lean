/-!
# CSS tokens

Splits text into the tokens of CSS Syntax Level 3. Of a token only its role in
the block structure of a value is kept: what opens and closes a block, what ends
a declaration, and what is malformed. Comments and white space are tokens like
any other.

Scanning functions take the characters that are left and give the characters
that are left after them, so every one of them answers with an end of its input.
-/

namespace AtomicStyles.Css

/-- The three kinds of blocks. A function is a block of parentheses. -/
inductive Bracket where
  | round
  | square
  | curly
  deriving DecidableEq

/-- A token, by its role in a value. -/
inductive Token where
  | opening (bracket : Bracket)
  | closing (bracket : Bracket)
  | semicolon
  | exclamation
  /-- A string that runs into the end of its line. -/
  | badString
  /-- A `url(` whose text is no address. -/
  | badUrl
  /-- Anything else. -/
  | other
  deriving DecidableEq

namespace Scan

def isNewline (c : Char) : Bool := c == '\n' || c == '\r' || c == '\x0c'

def isSpace (c : Char) : Bool := isNewline c || c == ' ' || c == '\t'

def isHexDigit (c : Char) : Bool :=
  c.isDigit || ('a' ≤ c && c ≤ 'f') || ('A' ≤ c && c ≤ 'F')

/-- A character that may start a name by itself. -/
def isNameStart (c : Char) : Bool :=
  c.isAlpha || c == '_' || c.toNat = 0 || 0x80 ≤ c.toNat

/-- A character that may stand in a name by itself. -/
def isNameChar (c : Char) : Bool :=
  isNameStart c || c.isDigit || c == '-'

/-- Characters that no unquoted address holds. -/
def isNonPrintable (c : Char) : Bool :=
  let n := c.toNat
  (1 ≤ n && n ≤ 8) || n == 0xB || (0xE ≤ n && n ≤ 0x1F) || n == 0x7F

/-- Whether a newline comes first. -/
def atNewline : List Char → Bool
  | c :: _ => isNewline c
  | [] => false

/-- Whether a digit comes first. -/
def atDigit : List Char → Bool
  | c :: _ => c.isDigit
  | [] => false

/-- Whether a name starts here. -/
def atName : List Char → Bool
  | '-' :: c :: _ => isNameStart c || c == '-' || c == '\\'
  | '\\' :: cs => !atNewline cs
  | c :: _ => isNameStart c
  | [] => false

/-- Drops one newline; a carriage return with a line feed is one. -/
def dropNewline : List Char → List Char
  | '\r' :: '\n' :: cs => cs
  | c :: cs => if isNewline c then cs else c :: cs
  | [] => []

/-- Drops one space, tab or newline. -/
def dropSpace : List Char → List Char
  | ' ' :: cs => cs
  | '\t' :: cs => cs
  | cs => dropNewline cs

/-- The character for a code; codes that stand for none give the replacement
character. -/
def codePoint (n : Nat) : Char :=
  if n = 0 then '\uFFFD'
  else if h : n.isValidChar then Char.ofNatAux n h
  else '\uFFFD'

/-- The number that hexadecimal digits stand for. -/
def hexValue (cs : List Char) : Nat :=
  cs.foldl (fun n c =>
    let d := if c.isDigit then c.toNat - '0'.toNat else c.toLower.toNat - 'a'.toNat + 10
    16 * n + d) 0

/-- Reads what follows a backslash: up to six hexadecimal digits and one space,
or any one character. At the end of the text it is the replacement character. -/
def escaped : List Char → Char × List Char
  | [] => ('\uFFFD', [])
  | c :: cs =>
      let digits := ((c :: cs).take 6).takeWhile isHexDigit
      if digits.isEmpty then (if c.toNat = 0 then '\uFFFD' else c, cs)
      else (codePoint (hexValue digits), dropSpace (cs.drop (digits.length - 1)))

theorem length_dropNewline_le (cs : List Char) : (dropNewline cs).length ≤ cs.length := by
  unfold dropNewline
  split
  · simp only [List.length_cons]; omega
  · split <;> simp
  · exact Nat.le_refl _

theorem length_dropSpace_le (cs : List Char) : (dropSpace cs).length ≤ cs.length := by
  unfold dropSpace
  split
  · simp
  · simp
  · exact length_dropNewline_le _

theorem length_escaped_le (cs : List Char) : (escaped cs).2.length ≤ cs.length := by
  unfold escaped
  split
  · exact Nat.le_refl _
  · rename_i c cs
    simp only
    split
    · simp
    · refine Nat.le_trans (length_dropSpace_le _) ?_
      rw [List.length_drop, List.length_cons]
      omega

/-- Reads a name, escapes resolved. -/
def name : List Char → List Char × List Char
  | [] => ([], [])
  | '\\' :: cs =>
      if atNewline cs then ([], '\\' :: cs)
      else
        have := length_escaped_le cs
        let more := name (escaped cs).2
        ((escaped cs).1 :: more.1, more.2)
  | c :: cs =>
      if isNameChar c then
        let more := name cs
        (c :: more.1, more.2)
      else ([], c :: cs)
termination_by cs => cs.length
decreasing_by
  · simp only [List.length_cons]; omega
  · simp

/-- Reads a string up to its closing quote, to the end of the text, or up to the
newline that spoils it. -/
def string (quote : Char) : List Char → Token × List Char
  | [] => (.other, [])
  | '\\' :: cs =>
      if atNewline cs then
        have := length_dropNewline_le cs
        string quote (dropNewline cs)
      else
        have := length_escaped_le cs
        string quote (escaped cs).2
  | c :: cs =>
      if c = quote then (.other, cs)
      else if isNewline c then (.badString, c :: cs)
      else string quote cs
termination_by cs => cs.length
decreasing_by all_goals simp only [List.length_cons]; omega

/-- Drops a comment after its opening, to its end or the end of the text. -/
def comment : List Char → List Char
  | '*' :: '/' :: cs => cs
  | _ :: cs => comment cs
  | [] => []

/-- Drops the rest of a malformed address, up to and with the next parenthesis
that is not escaped. -/
def restOfBadUrl : List Char → List Char
  | [] => []
  | ')' :: cs => cs
  | '\\' :: ')' :: cs => restOfBadUrl cs
  | '\\' :: '\\' :: cs => restOfBadUrl cs
  | _ :: cs => restOfBadUrl cs

/-- Reads the space after an unquoted address, which only a parenthesis or the
end of the text may follow. -/
def urlEnd : List Char → Token × List Char
  | [] => (.other, [])
  | c :: cs =>
      if c = ')' then (.other, cs)
      else if isSpace c then urlEnd cs
      else (.badUrl, restOfBadUrl cs)

/-- Reads an unquoted address. -/
def unquotedUrl : List Char → Token × List Char
  | [] => (.other, [])
  | '\\' :: cs =>
      if atNewline cs then (.badUrl, restOfBadUrl cs)
      else
        have := length_escaped_le cs
        unquotedUrl (escaped cs).2
  | c :: cs =>
      if c = ')' then (.other, cs)
      else if isSpace c then urlEnd (c :: cs)
      else if isNonPrintable c || c == '"' || c == '\'' || c == '(' then
        (.badUrl, restOfBadUrl cs)
      else unquotedUrl cs
termination_by cs => cs.length
decreasing_by all_goals simp only [List.length_cons]; omega

/-- Reads what follows `url(`. A quoted address makes it a function. -/
def url (cs : List Char) : Token × List Char :=
  match cs.dropWhile isSpace with
  | '"' :: _ => (.opening .round, cs)
  | '\'' :: _ => (.opening .round, cs)
  | rest => unquotedUrl rest

/-- Reads a name and, when a parenthesis follows it, the function or address
that it opens. -/
def nameLike (cs : List Char) : Token × List Char :=
  let (text, rest) := name cs
  match rest with
  | '(' :: rest =>
      if text.map Char.toLower = ['u', 'r', 'l'] then url rest else (.opening .round, rest)
  | rest => (.other, rest)

/-- Drops digits, a fraction and an exponent. -/
def numberTail (cs : List Char) : List Char :=
  let cs := cs.dropWhile Char.isDigit
  let cs :=
    match cs with
    | '.' :: more => if atDigit more then more.dropWhile Char.isDigit else cs
    | _ => cs
  match cs with
  | e :: more =>
      if e == 'e' || e == 'E' then
        match more with
        | s :: digits =>
            if s.isDigit then digits.dropWhile Char.isDigit
            else if (s == '+' || s == '-') && atDigit digits then
              digits.dropWhile Char.isDigit
            else cs
        | [] => cs
      else cs
  | [] => cs

/-- Reads a number, after its sign, with its unit or percent sign. -/
def number (cs : List Char) : Token × List Char :=
  match numberTail cs with
  | '%' :: rest => (.other, rest)
  | rest => if atName rest then (.other, (name rest).2) else (.other, rest)

/-- Whether the digits of a number start here. -/
def atNumber : List Char → Bool
  | '.' :: cs => atDigit cs
  | cs => atDigit cs

/-- Reads one token of a text that starts with the given character. -/
def token (c : Char) (cs : List Char) : Token × List Char :=
  if isSpace c then (.other, cs.dropWhile isSpace)
  else if c == '"' || c == '\'' then string c cs
  else if c == '#' then
    match cs with
    | d :: _ =>
        if atName cs || d.isDigit || d == '-' then (.other, (name cs).2) else (.other, cs)
    | [] => (.other, cs)
  else if c == '(' then (.opening .round, cs)
  else if c == '[' then (.opening .square, cs)
  else if c == '\x7b' then (.opening .curly, cs)
  else if c == ')' then (.closing .round, cs)
  else if c == ']' then (.closing .square, cs)
  else if c == '\x7d' then (.closing .curly, cs)
  else if c == ';' then (.semicolon, cs)
  else if c == '!' then (.exclamation, cs)
  else if c == '+' then if atNumber cs then number cs else (.other, cs)
  else if c == '-' then
    if atNumber cs then number cs
    else if ['-', '>'].isPrefixOf cs then (.other, cs.drop 2)
    else if atName (c :: cs) then nameLike (c :: cs)
    else (.other, cs)
  else if atNumber (c :: cs) then number (c :: cs)
  else if c == '/' then
    match cs with
    | '*' :: rest => (.other, comment rest)
    | _ => (.other, cs)
  else if c == '<' then
    if ['!', '-', '-'].isPrefixOf cs then (.other, cs.drop 3) else (.other, cs)
  else if c == '@' then if atName cs then (.other, (name cs).2) else (.other, cs)
  else if atName (c :: cs) then nameLike (c :: cs)
  else (.other, cs)

end Scan

/-- The tokens of a text. Every token takes at least one character; the test
makes that plain to see. -/
def tokens : List Char → List Token
  | [] => []
  | c :: cs =>
      let next := Scan.token c cs
      if _h : next.2.length < (c :: cs).length then next.1 :: tokens next.2
      else [next.1]
termination_by cs => cs.length
decreasing_by exact _h

end AtomicStyles.Css
