import AtomicStyles.Entries
import AtomicStyles.Number.Text

/-!
# Plain data

What a JSON or YAML text says, before anything is known of its purpose: scalars,
lists and tables. A table keeps every entry that was written, in order, and its
keys may be any data, since YAML allows that. Integers stay apart from other
numbers because a format may print the two differently, and those with a minus sign
stay apart from those without because only the latter can number the fields of a
table.
-/

namespace AtomicStyles

/-- A value of a data format. -/
inductive Data where
  | null
  | bool (value : Bool)
  | natural (value : Nat)
  /-- An integer with a minus sign, which may be zero. -/
  | negated (value : Nat)
  | real (value : Binary64)
  | text (value : String)
  | list (items : List Data)
  | table (entries : List (Data × Data))
  deriving Inhabited

namespace Data

/-- A table with textual keys. -/
def record (entries : List (String × Data)) : Data :=
  .table (entries.map fun e => (.text e.1, e.2))

/-- The text, when the value is one. -/
def text? : Data → Option String
  | .text s => some s
  | _ => none

/-- The entries of a table whose keys are all texts. -/
def record? : Data → Option (List (String × Data))
  | .table entries =>
      entries.mapM fun e =>
        match e.1 with
        | .text key => some (key, e.2)
        | _ => none
  | _ => none

/-- Puts an entry into a table: in place when the key is there as a text, at the
end otherwise. -/
def insertText : List (Data × Data) → String → Data → List (Data × Data)
  | [], key, value => [(.text key, value)]
  | (.text k, v) :: es, key, value =>
      if k = key then (.text k, value) :: es else (.text k, v) :: insertText es key value
  | e :: es, key, value => e :: insertText es key value

mutual

/-- The same data with every textual key once: at the position where it first
stood and with the value that it was given last. -/
def distinct : Data → Data
  | .list items => .list (distinctItems items)
  | .table entries => .table (distinctEntries [] entries)
  | d => d

/-- The items, each with distinct keys. -/
def distinctItems : List Data → List Data
  | [] => []
  | d :: ds => d.distinct :: distinctItems ds

/-- Adds entries to those collected so far. -/
def distinctEntries (collected : List (Data × Data)) : List (Data × Data) → List (Data × Data)
  | [] => collected
  | (.text key, value) :: es => distinctEntries (insertText collected key value.distinct) es
  | (key, value) :: es => distinctEntries (collected ++ [(key, value.distinct)]) es

end

end Data

end AtomicStyles
