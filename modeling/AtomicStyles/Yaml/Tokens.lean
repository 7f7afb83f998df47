import AtomicStyles.Yaml.Scalar
import AtomicStyles.Yaml.Token

/-!
# The tokens of a text

Outside brackets, columns tell where collections begin and end: an item or a key
that stands further to the right than the block around it opens a block, and
whatever stands further to the left closes blocks. A key is recognized only at its
colon, so the reader keeps the place where a key may have begun, and puts the
token for it there when the colon comes. Such a place is given up at the end of its
line and after 1024 bytes. One that could be nothing but a key, because it
begins a line of a block mapping, is an error when it is given up.
-/

namespace AtomicStyles.Yaml

/-- A place where a key may have begun. -/
structure KeyPlace where
  /-- The number of tokens before it. -/
  token : Nat
  position : Position
  /-- Whether it could be nothing but a key. -/
  required : Bool

/-- Whether a place is given up when the reader has come to `p`. -/
def KeyPlace.isPast (k : KeyPlace) (p : Position) : Bool :=
  k.position.line < p.line || k.position.offset + 1024 < p.offset

/-- A text as far as it has been read. -/
structure TokenReader where
  rest : List Char
  position : Position := {}
  tokens : Array Token := #[]
  /-- The columns of the blocks that are open, the innermost first. -/
  blocks : List Nat := []
  keyPlace : Option KeyPlace := none
  /-- The places for keys around each open bracket, the innermost first. -/
  outerPlaces : List (Option KeyPlace) := []
  /-- Whether a key may begin here. -/
  keyAllowed : Bool := true

namespace TokenReader

/-- Whether the reader is between brackets. -/
def inFlow (r : TokenReader) : Bool := !r.outerPlaces.isEmpty

/-- The column of the innermost block, or `-1`. -/
def indent (r : TokenReader) : Int :=
  match r.blocks with
  | [] => -1
  | column :: _ => column

/-- The reader after a token that takes the characters up to `rest`, all of them
in one line. -/
def push (r : TokenReader) (t : Token) (rest : List Char) : TokenReader :=
  { r with
    tokens := r.tokens.push t
    rest := rest
    position := r.position.skip (r.rest.take (r.rest.length - rest.length)) }

/-- Closes the blocks to the right of a column. Between brackets there are none to
close. -/
def closeBlocks (r : TokenReader) (column : Int) : TokenReader :=
  if r.inFlow then r
  else
    let closed := r.blocks.takeWhile fun (b : Nat) => column < b
    { r with
      tokens := r.tokens ++ closed.map fun _ => Token.blockEnd
      blocks := r.blocks.drop closed.length }

/-- Opens a block with the given token at a column, unless one is open there. The
token goes to position `index`. -/
def openBlock (r : TokenReader) (column : Nat) (index : Nat) (t : Token) : TokenReader :=
  if r.inFlow || (column : Int) ≤ r.indent then r
  else { r with blocks := column :: r.blocks, tokens := r.tokens.insertIdxIfInBounds index t }

/-- Opens a block where the reader is. -/
def openHere (r : TokenReader) (t : Token) : TokenReader :=
  r.openBlock r.position.column r.tokens.size t

/-- Gives up the place for a key. -/
def dropKey? (r : TokenReader) : Option TokenReader :=
  if (r.keyPlace.map (·.required)).getD false then none
  else some { r with keyPlace := none }

/-- Notes that a key may begin here, if one may. -/
def offerKey? (r : TokenReader) : Option TokenReader :=
  if r.keyAllowed then do
    let r ← r.dropKey?
    let required := !r.inFlow && r.indent = r.position.column
    return { r with keyPlace := some ⟨r.tokens.size, r.position, required⟩ }
  else some r

/-- Gives up the places that the reader has left behind. -/
def expireKeys? (r : TokenReader) : Option TokenReader :=
  let past := fun (k : KeyPlace) => k.isPast r.position
  if (r.keyPlace :: r.outerPlaces).any fun k => k.any fun k => k.required && past k then none
  else
    some { r with
      keyPlace := r.keyPlace.filter fun k => !past k
      outerPlaces := r.outerPlaces.map fun k => k.filter fun k => !past k }

/-- Skips what stands between tokens: spaces, comments and line breaks, tabs where
no key may begin, and byte order marks at the start of lines. Outside brackets a
key may begin after a line break. -/
def skipBetween (flow comment : Bool) :
    List Char → Position → Bool → List Char × Position × Bool
  | [], p, allowed => ([], p, allowed)
  | '\r' :: '\n' :: cs, p, allowed => skipBetween flow false cs p.newLine (allowed || !flow)
  | c :: cs, p, allowed =>
      if isBreak c then skipBetween flow false cs p.newLine (allowed || !flow)
      else if comment || c == ' ' || (c == '\t' && (flow || !allowed))
          || (c == '\ufeff' && p.column == 0) then
        skipBetween flow comment cs (p.next c) allowed
      else if c == '#' then skipBetween flow true cs (p.next c) allowed
      else (c :: cs, p, allowed)

/-- Goes on to the start of the next token. -/
def toNext? (r : TokenReader) : Option TokenReader :=
  let (rest, position, keyAllowed) := skipBetween r.inFlow false r.rest r.position r.keyAllowed
  let next : TokenReader := { r with rest, position, keyAllowed }
  next.expireKeys?.map fun r => r.closeBlocks r.position.column

/-- Closes all blocks before a directive, a marker or the end. -/
def finishBlocks? (r : TokenReader) : Option TokenReader :=
  (r.closeBlocks (-1)).dropKey?.map fun r => { r with keyAllowed := false }

/-- Reads a directive. -/
def directive? (r : TokenReader) : Option TokenReader := do
  let r ← r.finishBlocks?
  let (t, rest) ← readDirective? r.rest.tail
  let r := r.push t rest
  let (rest, position) ← nextLine? r.rest r.position
  return { r with rest, position }

/-- Reads a marker between documents. -/
def documentMark? (r : TokenReader) (t : Token) : Option TokenReader :=
  r.finishBlocks?.map fun r => r.push t (r.rest.drop 3)

/-- Reads an opening bracket. -/
def openFlow? (r : TokenReader) (t : Token) : Option TokenReader :=
  r.offerKey?.map fun r =>
    { r.push t r.rest.tail with
      keyPlace := none, outerPlaces := r.keyPlace :: r.outerPlaces, keyAllowed := true }

/-- Reads a closing bracket. -/
def closeFlow? (r : TokenReader) (t : Token) : Option TokenReader :=
  r.dropKey?.map fun r =>
    { r.push t r.rest.tail with
      keyPlace := r.outerPlaces.headD none, outerPlaces := r.outerPlaces.tail
      keyAllowed := false }

/-- Reads a comma. -/
def comma? (r : TokenReader) : Option TokenReader :=
  r.dropKey?.map fun r => { r.push .comma r.rest.tail with keyAllowed := true }

/-- Reads the hyphen of an item. -/
def item? (r : TokenReader) : Option TokenReader :=
  if r.inFlow || r.keyAllowed then
    (r.openHere .sequenceStart).dropKey?.map fun r =>
      { r.push .item r.rest.tail with keyAllowed := true }
  else none

/-- Reads the question mark of a key. -/
def key? (r : TokenReader) : Option TokenReader :=
  if r.inFlow || r.keyAllowed then
    (r.openHere .mappingStart).dropKey?.map fun r =>
      { r.push .key r.rest.tail with keyAllowed := !r.inFlow }
  else none

/-- Reads the colon of a value. -/
def value? (r : TokenReader) : Option TokenReader :=
  match r.keyPlace with
  | some k =>
      let r := { r with tokens := r.tokens.insertIdxIfInBounds k.token .key }
      let r := r.openBlock k.position.column k.token .mappingStart
      some { r.push .value r.rest.tail with keyPlace := none, keyAllowed := false }
  | none =>
      if r.inFlow || r.keyAllowed then
        let r := r.openHere .mappingStart
        some { r.push .value r.rest.tail with keyAllowed := !r.inFlow }
      else none

/-- Reads an alias or an anchor. -/
def name? (r : TokenReader) (make : String → Token) : Option TokenReader := do
  let r ← r.offerKey?
  let (name, rest) ← readName? r.rest.tail
  return { r.push (make name) rest with keyAllowed := false }

/-- Reads a tag. -/
def tag? (r : TokenReader) : Option TokenReader := do
  let r ← r.offerKey?
  let (t, rest) ← readTag? r.rest
  guard (atGap rest || (r.inFlow && rest.head? = some ','))
  return { r.push t rest with keyAllowed := false }

/-- The reader after a scalar. -/
def pushScalar (r : TokenReader) (s : ReadScalar) (plain : Bool) : TokenReader :=
  { r with
    tokens := r.tokens.push (.scalar (String.ofList s.text) plain)
    rest := s.rest
    position := s.position
    keyAllowed := s.broken }

/-- Reads a quoted scalar. -/
def quoted? (r : TokenReader) (double : Bool) : Option TokenReader := do
  let r ← r.offerKey?
  let s ← readQuoted? double r.rest.tail (r.position.skip (r.rest.take 1)) [] none
  return r.pushScalar s false

/-- Reads a plain scalar. A key may begin after it when it ends at the start of a
line. -/
def plain? (r : TokenReader) : Option TokenReader := do
  let r ← r.offerKey?
  let s ← readPlain? r.inFlow (r.indent + 1).toNat r.rest r.position [] none
  return r.pushScalar s true

/-- Reads a block. -/
def block? (r : TokenReader) (folding : Bool) : Option TokenReader := do
  let r ← r.dropKey?
  let s ← readBlock? folding r.indent r.rest.tail (r.position.skip (r.rest.take 1))
  return { r.pushScalar s false with keyAllowed := true }

/-- Reads the token that starts with `c`, before the characters `cs`. Outside
brackets an indicator before a word is part of the word. -/
def read? (r : TokenReader) (c : Char) (cs : List Char) : Option TokenReader :=
  let alone := r.inFlow || atGap cs
  if r.position.column == 0 && c == '%' then r.directive?
  else if r.position.column == 0 && atDocumentMark (c :: cs) then
    r.documentMark? (if c == '-' then .documentStart else .documentEnd)
  else
    match c with
    | '[' => r.openFlow? .flowSequenceStart
    | '\x7b' => r.openFlow? .flowMappingStart
    | ']' => r.closeFlow? .flowSequenceEnd
    | '\x7d' => r.closeFlow? .flowMappingEnd
    | ',' => r.comma?
    | '-' => if atGap cs then r.item? else r.plain?
    | '?' => if alone then r.key? else r.plain?
    | ':' => if alone then r.value? else r.plain?
    | '*' => r.name? .alias
    | '&' => r.name? .anchor
    | '!' => r.tag?
    | '|' => if r.inFlow then none else r.block? false
    | '>' => if r.inFlow then none else r.block? true
    | '\'' => r.quoted? false
    | '"' => r.quoted? true
    | _ =>
        if isBlank c || c == '#' || c == '%' || c == '@' || c == '\x60' then none
        else r.plain?

/-- Reads tokens to the end. Every token takes at least one character; the test
makes that plain to see. -/
def readAll? (r : TokenReader) : Option (List Token) :=
  match r.toNext? with
  | none => none
  | some start =>
      match start.rest with
      | [] => start.finishBlocks?.map fun r => r.tokens.toList
      | c :: cs =>
          match start.read? c cs with
          | none => none
          | some next =>
              if _h : next.rest.length < r.rest.length then readAll? next else none
termination_by r.rest.length
decreasing_by exact _h

end TokenReader

/-- The tokens of a text. -/
def tokens? (text : String) : Option (List Token) :=
  let cs := text.toList
  if cs.all isAllowed then TokenReader.readAll? { rest := cs } else none

end AtomicStyles.Yaml
