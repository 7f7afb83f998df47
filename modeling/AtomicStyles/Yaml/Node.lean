import AtomicStyles.Entries

/-!
# Nodes of YAML

A document is a tree of scalars, lists and tables. A node may be anchored, and an
alias stands for an anchored node, which may even be one around it. Anchors are
numbered by how many names a document has defined before, so one that defines a
name again can share its number with a later one. An alias means the last node
with its number.
-/

namespace AtomicStyles.Yaml

/-- What may stand before a node. -/
structure Marks where
  anchor : Option Nat := none
  tag : Option String := none

/-- A node of a document. -/
inductive Node where
  | alias (anchor : Nat)
  | scalar (marks : Marks) (text : String) (plain : Bool)
  | list (marks : Marks) (items : List Node)
  | table (marks : Marks) (entries : List (Node × Node))
  deriving Inhabited

namespace Node

/-- A node where nothing is written. -/
def blank : Node := .scalar {} "" true

/-- Whether the node is a plain scalar without text. -/
def isBlank : Node → Bool
  | .scalar _ text plain => plain && text.isEmpty
  | _ => false

mutual

/-- The size of a node: one for a scalar or an alias, and two for a collection,
besides what it holds. -/
def size : Node → Nat
  | .alias _ => 1
  | .scalar .. => 1
  | .list _ items => 2 + itemsSize items
  | .table _ entries => 2 + entriesSize entries

/-- The size of the items of a list. -/
def itemsSize : List Node → Nat
  | [] => 0
  | n :: ns => n.size + itemsSize ns

/-- The size of the entries of a table. -/
def entriesSize : List (Node × Node) → Nat
  | [] => 0
  | (key, value) :: es => key.size + value.size + entriesSize es

end

/-- The number of an anchored node, with the node. -/
def target (marks : Marks) (n : Node) : List (Nat × Node) :=
  (marks.anchor.map fun number => (number, n)).toList

mutual

/-- The anchored nodes with their numbers, in the order in which they begin. -/
def targets : Node → List (Nat × Node)
  | .alias _ => []
  | .scalar marks text plain => target marks (.scalar marks text plain)
  | .list marks items => target marks (.list marks items) ++ itemsTargets items
  | .table marks entries => target marks (.table marks entries) ++ entriesTargets entries

/-- The anchored nodes among the items of a list. -/
def itemsTargets : List Node → List (Nat × Node)
  | [] => []
  | n :: ns => n.targets ++ itemsTargets ns

/-- The anchored nodes among the entries of a table. -/
def entriesTargets : List (Node × Node) → List (Nat × Node)
  | [] => []
  | (key, value) :: es => key.targets ++ value.targets ++ entriesTargets es

end

end Node

end AtomicStyles.Yaml
