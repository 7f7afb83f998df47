/-!
# Ordered entries

Descriptions, value sets, configurations and render states are all maps whose
order matters: ordinals are positions in them. They are kept as lists of pairs.
Setting a key that is there already replaces its value in place, so a key keeps
the position where it first stood and the value it was given last.
-/

namespace AtomicStyles

/-- A list of named values, in the order of declaration. -/
abbrev Entries (α : Type u) := List (String × α)

namespace Entries

variable {α : Type u}

/-- The value of the first entry named `key`. -/
def get? : Entries α → String → Option α
  | [], _ => none
  | (k, v) :: es, key => if k = key then some v else get? es key

/-- The position of the first entry named `key`, with its value. -/
def find? : Entries α → String → Option (Nat × α)
  | [], _ => none
  | (k, v) :: es, key =>
      if k = key then some (0, v)
      else (find? es key).map fun hit => (hit.1 + 1, hit.2)

/-- Whether some entry is named `key`. -/
def has (es : Entries α) (key : String) : Bool :=
  es.any fun e => e.1 == key

/-- Sets `key`: in place when it is there, at the end otherwise. -/
def insert : Entries α → String → α → Entries α
  | [], key, value => [(key, value)]
  | (k, v) :: es, key, value =>
      if k = key then (k, value) :: es else (k, v) :: insert es key value

/-- Sets the pairs one after another, starting from nothing. -/
def ofList (pairs : List (String × α)) : Entries α :=
  pairs.foldl (fun es e => es.insert e.1 e.2) []

/-- The names, in order. -/
def keys (es : Entries α) : List String :=
  es.map (·.1)

/-- No name occurs twice. -/
def Distinct (es : Entries α) : Prop :=
  es.keys.Nodup

theorem keys_insert_of_mem {es : Entries α} {key : String} (value : α)
    (h : key ∈ es.keys) : (es.insert key value).keys = es.keys := by
  induction es with
  | nil => simp [keys] at h
  | cons e es ih =>
      obtain ⟨k, v⟩ := e
      by_cases hk : k = key
      · simp [insert, keys, hk]
      · have : key ∈ keys es := by
          simpa [keys, Ne.symm hk] using h
        simpa [insert, keys, hk] using ih this

theorem keys_insert_of_not_mem {es : Entries α} {key : String} (value : α)
    (h : key ∉ es.keys) : (es.insert key value).keys = es.keys ++ [key] := by
  induction es with
  | nil => rfl
  | cons e es ih =>
      obtain ⟨k, v⟩ := e
      have hk : k ≠ key := by
        intro hk
        exact h (by simp [keys, hk])
      have : key ∉ keys es := fun hm => h (by simpa [keys] using Or.inr hm)
      simpa [insert, keys, hk] using ih this

theorem distinct_insert {es : Entries α} (h : es.Distinct) (key : String) (value : α) :
    (es.insert key value).Distinct := by
  unfold Distinct
  by_cases hm : key ∈ es.keys
  · rw [keys_insert_of_mem value hm]
    exact h
  · rw [keys_insert_of_not_mem value hm]
    refine List.nodup_append.2 ⟨h, by simp, ?_⟩
    intro a ha b hb hab
    rw [List.mem_singleton.1 hb] at hab
    exact hm (hab ▸ ha)

private theorem distinct_foldl_insert (pairs : List (String × α)) {es : Entries α}
    (h : es.Distinct) :
    Distinct (pairs.foldl (fun es e => es.insert e.1 e.2) es) := by
  induction pairs generalizing es with
  | nil => exact h
  | cons e pairs ih => exact ih (distinct_insert h e.1 e.2)

/-- Collecting pairs never leaves a name twice. -/
theorem distinct_ofList (pairs : List (String × α)) : Distinct (ofList pairs) :=
  distinct_foldl_insert pairs (by simp [Distinct, keys])

end Entries

end AtomicStyles
