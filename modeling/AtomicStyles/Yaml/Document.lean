import AtomicStyles.Yaml.Grammar
import AtomicStyles.Yaml.Schema
import AtomicStyles.Yaml.Tokens

/-!
# Data from YAML text

A document is read as data, or as a table or list of a known form. In both cases
aliases are followed as they come. Since they can make a small text stand for much
data, or for data without end, there are two limits: collections may be nested 128
levels deep, and at most a hundred aliases may be followed for each unit of the
document's size.
-/

namespace AtomicStyles.Yaml

/-- The number of levels that collections may be nested. -/
def depthLimit : Nat := 128

/-- The number of aliases that may be followed for each unit of size. -/
def aliasLimit : Nat := 100

/-- A document: its root, and the anchored nodes by number. -/
structure Document where
  root : Node
  targets : List (Nat × Node)

/-- A reader of nodes that may fail, and that may follow so many more aliases. -/
abbrev ValueReader := StateT Nat Option

namespace Document

/-- The document with the given root. -/
def ofRoot (root : Node) : Document := ⟨root, root.targets.reverse⟩

/-- The document that a text holds. Where it holds none, the root is blank. -/
def ofText? (text : String) : Option Document := do
  let tokens ← tokens? text
  let root ← document? tokens
  return ofRoot (root.getD .blank)

/-- The node that an alias stands for, or any other node itself. -/
def follow (doc : Document) : Node → ValueReader Node
  | .alias number => do
      let left ← get
      guard (0 < left)
      set (left - 1)
      (doc.targets.lookup number).elim failure pure
  | n => return n

/-- Whether the tag before a collection forbids that it is taken as data. -/
def isMarkedForeign (marks : Marks) : Bool :=
  marks.tag.any isForeign

/-- The data of a scalar. -/
def leaf (n : Node) : ValueReader Data :=
  match n with
  | .scalar marks text plain => (scalar? marks.tag text plain).elim failure pure
  | _ => failure

/-- The data of a node, where collections may be nested `depth` levels deep. -/
def data (doc : Document) (depth : Nat) (n : Node) : ValueReader Data :=
  match depth with
  | 0 => do leaf (← doc.follow n)
  | depth + 1 => do
      match ← doc.follow n with
      | .list marks items =>
          guard !isMarkedForeign marks
          return .list (← items.mapM (data doc depth))
      | .table marks entries =>
          guard !isMarkedForeign marks
          return .table (← entries.mapM fun e => do
            return (← data doc depth e.1, ← data doc depth e.2))
      | n => leaf n

/-- The text of a scalar, whatever its tag. -/
def text (doc : Document) (n : Node) : ValueReader String := do
  match ← doc.follow n with
  | .scalar _ text _ => return text
  | _ => failure

/-- The items of a list. A blank node has none. -/
def items (doc : Document) (n : Node) : ValueReader (List Node) := do
  match ← doc.follow n with
  | .list _ items => return items
  | n => if n.isBlank then return [] else failure

/-- The entries of a table. A blank node has none. -/
def entries (doc : Document) (n : Node) : ValueReader (List (Node × Node)) := do
  match ← doc.follow n with
  | .table _ entries => return entries
  | n => if n.isBlank then return [] else failure

/-- The entries of a table by name, each value read by `read`. -/
def members (doc : Document) (read : Node → ValueReader α) (n : Node) :
    ValueReader (Entries α) := do
  let pairs ← (← doc.entries n).mapM fun e => do
    return (← doc.text e.1, ← read e.2)
  return Entries.ofList pairs

/-- What a reader makes of the document. -/
def run (doc : Document) (read : ValueReader α) : Option α :=
  (read.run (aliasLimit * doc.root.size)).map (·.1)

end Document

end AtomicStyles.Yaml
