import AtomicStyles.Yaml.Node
import AtomicStyles.Yaml.Token

/-!
# The grammar of documents

Turns tokens into the node of the one document that a text may hold. Keys and
values may be left out almost everywhere, and then a plain scalar without text
stands for them. Every reader has a bound for its depth as its first argument, and
each step down takes a token or goes on to a smaller construct, so that a small
multiple of the number of tokens is enough.
-/

namespace AtomicStyles.Yaml

/-- What is left to read, and what is known from what has been read. -/
structure NodeState where
  tokens : List Token
  /-- The numbers of the anchors by name. -/
  anchors : Entries Nat := []
  /-- What the handles of tags stand for. -/
  handles : Entries String := []

/-- A reader of tokens that may fail. -/
abbrev NodeReader := StateT NodeState Option

namespace NodeReader

/-- The next token, which stays to be read. -/
def peek : NodeReader (Option Token) := do
  return (← get).tokens.head?

/-- Goes past the next token. -/
def skip : NodeReader Unit :=
  modify fun s => { s with tokens := s.tokens.tail }

/-- Whether the next token satisfies `p`. -/
def sees (p : Token → Bool) : NodeReader Bool := do
  return ((← peek).map p).getD false

/-! ## What stands before a node -/

/-- Gives an anchor its number. -/
def define (name : String) : NodeReader Nat := do
  let s ← get
  let number := s.anchors.length
  set { s with anchors := s.anchors.insert name number }
  return number

/-- The tag with the given handle. -/
def fullTag (handle ending : String) : NodeReader String := do
  if handle.isEmpty then return ending
  else
    match (← get).handles.get? handle with
    | some meaning => return meaning ++ ending
    | none => failure

/-- Reads an anchor, if one comes. -/
def anchor : NodeReader (Option Nat) := do
  match ← peek with
  | some (.anchor name) =>
      skip
      return some (← define name)
  | _ => return none

/-- Reads a tag, if one comes. -/
def tag : NodeReader (Option String) := do
  match ← peek with
  | some (.tag handle ending) =>
      skip
      return some (← fullTag handle ending)
  | _ => return none

/-- Reads an anchor and a tag in either order. -/
def marks : NodeReader Marks := do
  let before ← anchor
  let tag ← tag
  if before.isNone && tag.isSome then return { anchor := ← anchor, tag }
  else return { anchor := before, tag }

/-- The node after marks that nothing follows. Without a mark there is none. -/
def bare (m : Marks) : NodeReader Node :=
  if m.anchor.isSome || m.tag.isSome then return .scalar m "" true else failure

/-! ## Where nothing is written -/

/-- Tokens before which an item of a block sequence is left out. -/
def endsItem : Token → Bool
  | .item => true
  | .blockEnd => true
  | _ => false

/-- Tokens before which a key or value of a block mapping is left out. -/
def endsEntry : Token → Bool
  | .key => true
  | .value => true
  | .blockEnd => true
  | _ => false

/-- Tokens before which an item without indentation is left out. -/
def endsBareItem (t : Token) : Bool := endsItem t || endsEntry t

/-- Tokens before which a value in a flow sequence is left out. -/
def endsFlowItem : Token → Bool
  | .comma => true
  | .flowSequenceEnd => true
  | _ => false

/-- Tokens before which a value in a flow mapping is left out. -/
def endsFlowEntry : Token → Bool
  | .comma => true
  | .flowMappingEnd => true
  | _ => false

/-- The token before a value. -/
def isValue : Token → Bool
  | .value => true
  | _ => false

/-- The blank node before some tokens, and what `read` reads before others. -/
def orBlank (p : Token → Bool) (read : NodeReader Node) : NodeReader Node := do
  if ← sees p then return .blank else read

/-- What `read` reads after the token for a value, or the blank node. -/
def valueOr (p : Token → Bool) (read : NodeReader Node) : NodeReader Node := do
  if ← sees isValue then
    skip
    orBlank p read
  else return .blank

/-! ## Nodes -/

mutual

/-- Reads a node. Blocks may begin only where `block` allows it, and items without
indentation where `bareItems` does. -/
def node (fuel : Nat) (block bareItems : Bool) : NodeReader Node :=
  match fuel with
  | 0 => failure
  | fuel + 1 => do
      match ← peek with
      | some (.alias name) =>
          skip
          match (← get).anchors.get? name with
          | some number => return .alias number
          | none => failure
      | _ =>
          let m ← marks
          match ← peek with
          | some (.scalar text plain) =>
              skip
              return .scalar m text plain
          | some .flowSequenceStart =>
              skip
              return .list m (← flowItems fuel true)
          | some .flowMappingStart =>
              skip
              return .table m (← flowEntries fuel true)
          | some .item => if bareItems then return .list m (← unindented fuel) else bare m
          | some .sequenceStart =>
              if block then
                skip
                return .list m (← items fuel)
              else bare m
          | some .mappingStart =>
              if block then
                skip
                return .table m (← entries fuel)
              else bare m
          | _ => bare m

/-- Reads the items of a block sequence. -/
def items (fuel : Nat) : NodeReader (List Node) :=
  match fuel with
  | 0 => failure
  | fuel + 1 => do
      match ← peek with
      | some .item =>
          skip
          let n ← orBlank endsItem (node fuel true false)
          return n :: (← items fuel)
      | some .blockEnd =>
          skip
          return []
      | _ => failure

/-- Reads the items of a sequence that is not indented. It ends without a
token. -/
def unindented (fuel : Nat) : NodeReader (List Node) :=
  match fuel with
  | 0 => failure
  | fuel + 1 => do
      match ← peek with
      | some .item =>
          skip
          let n ← orBlank endsBareItem (node fuel true false)
          return n :: (← unindented fuel)
      | _ => return []

/-- Reads the entries of a block mapping. -/
def entries (fuel : Nat) : NodeReader (List (Node × Node)) :=
  match fuel with
  | 0 => failure
  | fuel + 1 => do
      match ← peek with
      | some .key =>
          skip
          let key ← orBlank endsEntry (node fuel true true)
          let value ← valueOr endsEntry (node fuel true true)
          return (key, value) :: (← entries fuel)
      | some .blockEnd =>
          skip
          return []
      | _ => failure

/-- Reads the items of a flow sequence. -/
def flowItems (fuel : Nat) (first : Bool) : NodeReader (List Node) :=
  match fuel with
  | 0 => failure
  | fuel + 1 => do
      match ← peek with
      | some .flowSequenceEnd =>
          skip
          return []
      | some .comma =>
          if first then failure
          else
            skip
            flowItem fuel
      | _ => if first then flowItem fuel else failure

/-- Reads an item of a flow sequence and those after it. A key begins a mapping of
one entry. Where that key is left out, the token after it is passed over. -/
def flowItem (fuel : Nat) : NodeReader (List Node) :=
  match fuel with
  | 0 => failure
  | fuel + 1 => do
      match ← peek with
      | some .flowSequenceEnd =>
          skip
          return []
      | some .key =>
          skip
          let omitted ← sees fun t => isValue t || endsFlowItem t
          let key ←
            if omitted then do
              skip
              pure Node.blank
            else node fuel false false
          let value ← valueOr endsFlowItem (node fuel false false)
          return .table {} [(key, value)] :: (← flowItems fuel false)
      | _ =>
          let n ← node fuel false false
          return n :: (← flowItems fuel false)

/-- Reads the entries of a flow mapping. -/
def flowEntries (fuel : Nat) (first : Bool) : NodeReader (List (Node × Node)) :=
  match fuel with
  | 0 => failure
  | fuel + 1 => do
      match ← peek with
      | some .flowMappingEnd =>
          skip
          return []
      | some .comma =>
          if first then failure
          else
            skip
            flowEntry fuel
      | _ => if first then flowEntry fuel else failure

/-- Reads an entry of a flow mapping and those after it. -/
def flowEntry (fuel : Nat) : NodeReader (List (Node × Node)) :=
  match fuel with
  | 0 => failure
  | fuel + 1 => do
      match ← peek with
      | some .flowMappingEnd =>
          skip
          return []
      | some .key =>
          skip
          let key ← orBlank (fun t => isValue t || endsFlowEntry t) (node fuel false false)
          let value ← valueOr endsFlowEntry (node fuel false false)
          return (key, value) :: (← flowEntries fuel false)
      | _ =>
          let key ← node fuel false false
          return (key, .blank) :: (← flowEntries fuel false)

end

/-! ## Documents -/

/-- The handles that need no directive. -/
def standardHandles : Entries String := [("!", "!"), ("!!", "tag:yaml.org,2002:")]

/-- Reads directives up to the start of a document. There is one version at most,
and each handle is defined once. -/
def directives : Nat → Bool → NodeReader Unit
  | 0, _ => failure
  | fuel + 1, versioned => do
      match ← peek with
      | some (.version major minor) =>
          guard (!versioned && major = 1 && (minor = 1 || minor = 2))
          skip
          directives fuel true
      | some (.handle name meaning) =>
          let s ← get
          guard (!s.handles.has name)
          set { s with handles := s.handles.insert name meaning }
          skip
          directives fuel versioned
      | some .documentStart => skip
      | _ => failure

/-- Adds the handles that no directive has defined. -/
def addStandardHandles : NodeReader Unit :=
  modify fun s =>
    { s with handles := s.handles ++ standardHandles.filter fun h => !s.handles.has h.1 }

/-- Whether a token belongs to no node. -/
def standsBetween : Token → Bool
  | .version .. => true
  | .handle .. => true
  | .documentStart => true
  | .documentEnd => true
  | _ => false

/-- Whether a token begins what stands before an explicit document. -/
def beginsDocument : Token → Bool
  | .documentEnd => false
  | t => standsBetween t

/-- Reads the only document of a text, or nothing where there are no tokens. -/
def document (fuel : Nat) : NodeReader (Option Node) := do
  match ← peek with
  | none => return none
  | some first =>
      let root ←
        if beginsDocument first then do
          directives fuel false
          addStandardHandles
          match ← peek with
          | none => pure Node.blank
          | some t => if standsBetween t then pure Node.blank else node fuel true false
        else do
          addStandardHandles
          node fuel true false
      let rest := (← get).tokens.dropWhile fun t => t matches .documentEnd
      guard rest.isEmpty
      return some root

end NodeReader

/-- The root of the document that tokens make up, or nothing when there are
none. -/
def document? (tokens : List Token) : Option (Option Node) :=
  ((NodeReader.document (4 * tokens.length + 8)).run { tokens }).map (·.1)

end AtomicStyles.Yaml
