import AtomicStyles.Style.Literal

/-!
# Style descriptions

A description gives each property a literal or a conditional value, which maps
condition keys to values in turn. Order matters at every level, and no key
occurs twice in a level: `StyleValue.distinct` brings any value into that form
and leaves one that has it alone.
-/

namespace AtomicStyles

/-- The value of a property: a literal, or values by condition key. -/
inductive StyleValue where
  | literal (value : Literal)
  | conditional (entries : List (String × StyleValue))

namespace StyleValue

mutual

/-- No conditional object in the value has a key twice. -/
def Distinct : StyleValue → Prop
  | .literal _ => True
  | .conditional entries => Entries.Distinct entries ∧ EachDistinct entries

/-- Every value among the entries has distinct keys. -/
def EachDistinct : List (String × StyleValue) → Prop
  | [] => True
  | (_, value) :: es => value.Distinct ∧ EachDistinct es

end

mutual

/-- The value with each key once per object, at its first position and with its
last value. -/
def distinct : StyleValue → StyleValue
  | .literal l => .literal l
  | .conditional entries => .conditional (Entries.ofList (eachDistinct entries))

/-- The entries with each value so treated. -/
def eachDistinct : List (String × StyleValue) → List (String × StyleValue)
  | [] => []
  | (key, value) :: es => (key, value.distinct) :: eachDistinct es

end

theorem eachDistinct_iff {es : List (String × StyleValue)} :
    EachDistinct es ↔ ∀ e ∈ es, e.2.Distinct := by
  induction es with
  | nil => simp [EachDistinct]
  | cons e es ih => rw [EachDistinct, ih, List.forall_mem_cons]

theorem eachDistinct_insert {es : Entries StyleValue} (h : EachDistinct es) (key : String)
    {value : StyleValue} (hv : value.Distinct) : EachDistinct (es.insert key value) := by
  induction es with
  | nil => exact ⟨hv, trivial⟩
  | cons e es ih =>
      obtain ⟨k, v⟩ := e
      obtain ⟨h₁, h₂⟩ := h
      rw [Entries.insert]
      split
      · exact ⟨hv, h₂⟩
      · exact ⟨h₁, ih h₂⟩

private theorem eachDistinct_foldl_insert {pairs : List (String × StyleValue)}
    {es : Entries StyleValue} (hp : EachDistinct pairs) (h : EachDistinct es) :
    EachDistinct (pairs.foldl (fun es e => Entries.insert es e.1 e.2) es) := by
  induction pairs generalizing es with
  | nil => exact h
  | cons e pairs ih =>
      obtain ⟨k, v⟩ := e
      exact ih hp.2 (eachDistinct_insert h k hp.1)

theorem eachDistinct_ofList {pairs : List (String × StyleValue)} (h : EachDistinct pairs) :
    EachDistinct (Entries.ofList pairs) :=
  eachDistinct_foldl_insert h trivial

mutual

theorem distinct_distinct : (value : StyleValue) → value.distinct.Distinct
  | .literal _ => trivial
  | .conditional entries =>
      ⟨Entries.distinct_ofList _, eachDistinct_ofList (eachDistinct_eachDistinct entries)⟩

theorem eachDistinct_eachDistinct :
    (entries : List (String × StyleValue)) → EachDistinct (eachDistinct entries)
  | [] => trivial
  | (_, value) :: es => ⟨distinct_distinct value, eachDistinct_eachDistinct es⟩

end

mutual

/-- The value that data stands for. Tables must have textual keys, and nulls and
lists stand for nothing. -/
def read? : Data → Option StyleValue
  | .table entries => (readEntries? entries).map .conditional
  | d => (Literal.ofData? d).map .literal

/-- The entries of a conditional object. -/
def readEntries? : List (Data × Data) → Option (List (String × StyleValue))
  | [] => some []
  | (.text key, d) :: es => do
      let value ← read? d
      let more ← readEntries? es
      return (key, value) :: more
  | _ :: _ => none

end

/-- The value that data stands for, with distinct keys. -/
def ofData? (d : Data) : Option StyleValue :=
  (read? d).map distinct

mutual

/-- The value as data. -/
def toData : StyleValue → Data
  | .literal l => l.toData
  | .conditional entries => .table (entriesToData entries)

/-- Entries as data. -/
def entriesToData : List (String × StyleValue) → List (Data × Data)
  | [] => []
  | (key, value) :: es => (.text key, value.toData) :: entriesToData es

end

end StyleValue

/-- An ordered map from property, shorthand or custom property names to values,
with distinct keys throughout. -/
structure StyleDescription where
  entries : Entries StyleValue
  distinct_names : entries.Distinct
  distinct_keys : StyleValue.EachDistinct entries

namespace StyleDescription

/-- The description with no entries. -/
def empty : StyleDescription :=
  ⟨[], by simp [Entries.Distinct, Entries.keys], trivial⟩

/-- Sets one entry: in place when the name is there, at the end otherwise. -/
def set (d : StyleDescription) (name : String) (value : StyleValue) : StyleDescription :=
  ⟨d.entries.insert name value.distinct, Entries.distinct_insert d.distinct_names _ _,
    StyleValue.eachDistinct_insert d.distinct_keys _ (StyleValue.distinct_distinct value)⟩

/-- The description with the given entries, set one after another. -/
def ofList (pairs : List (String × StyleValue)) : StyleDescription :=
  pairs.foldl (fun d e => d.set e.1 e.2) empty

/-- The description that data stands for. -/
def ofData? (d : Data) : Option StyleDescription :=
  match d with
  | .table entries => (StyleValue.readEntries? entries).map ofList
  | _ => none

/-- The description as data. -/
def toData (d : StyleDescription) : Data :=
  .table (StyleValue.entriesToData d.entries)

end StyleDescription

end AtomicStyles
