import AtomicStyles.Proofs.ForeignClass

/-!
# What a merge is, key by key

A merge goes through the lists one after another and through the classes of each
list, and it replaces groups in place as it goes. None of this shows in the
result. Its keys stand where they first occurred in all lists together, and under
a key stands what the last list with this key has there. No list between the
first and the last has any part in it.

The order of the keys comes from the keys of `put`, and what stands under them
from `get?_groupsOf`. Distinct keys then make the groups, and so the text, known.
-/

namespace AtomicStyles

/-- The values of entries with distinct keys are found under their keys. -/
theorem Entries.flatMap_eq_keys {α : Type} {es : Entries (List α)} (h : es.Distinct) :
    es.flatMap (·.2) = es.keys.flatMap fun key => (es.get? key).getD [] := by
  rw [keys, List.flatMap_map]
  refine List.flatMap_congr fun e he => ?_
  rw [get?_of_mem h he]
  rfl

namespace ClassList

/-- The classes of several lists, one list after another. -/
def allWords (lists : List (Option String)) : List String :=
  (lists.filterMap id).flatMap Text.words

/-- The key of a class: the property unit of what the class is read as, or the class
itself when it cannot be read. -/
def keyOf (token : String) : String :=
  ((Code.parseToken? token).map (·.property)).getD token

/-- The classes that are merged under a key: those of the last list that has the key,
each where it first stands there. -/
def merged (lists : List (Option String)) (key : String) : List String :=
  let having := (lists.filterMap id).filter fun list => (Text.words list).any (keyOf · == key)
  match having.getLast? with
  | some list => ((Text.words list).filter (keyOf · == key)).eraseDups
  | none => []

theorem mergeKey_eq : mergeKey = keyOf := by
  funext token
  rw [mergeKey, keyOf]
  cases Code.parseToken? token with
  | none => rfl
  | some parts => rfl

theorem merged_eq (lists : List (Option String)) (key : String) :
    merged lists key =
      ((holders key lists).getLast?.map fun list =>
        ((Text.words list).filter fun t => mergeKey t == key).eraseDups).getD [] := by
  have hholders : holders key lists =
      (lists.filterMap id).filter fun list => (Text.words list).any (keyOf · == key) := by
    rw [← mergeKey_eq]
    rfl
  rw [merged, hholders, mergeKey_eq]
  split
  · next list heq => rw [heq]; rfl
  · next heq => rw [heq]; rfl

theorem keys_addToken (groups : Entries (List String)) (t : String) :
    (addToken groups t).keys =
      if mergeKey t ∈ groups.keys then groups.keys else groups.keys ++ [mergeKey t] := by
  rw [addToken_eq]
  split
  · next h => exact Entries.keys_insert_of_mem _ h
  · next h => exact Entries.keys_insert_of_not_mem _ h

/-- Words are grouped in the order in which their keys first occur. -/
theorem keys_group (ws : List String) : (group ws).keys = (ws.map mergeKey).eraseDups := by
  induction ws using List.reverseRecOn with
  | nil => rfl
  | append_singleton ws t ih =>
      rw [group_append, List.foldl_cons, List.foldl_nil, keys_addToken, List.map_append,
        List.map_singleton, eraseDups_append_singleton, ih]
      simp only [List.mem_eraseDups]

theorem eraseDups_append (xs ys : List String) :
    (xs ++ ys).eraseDups = xs.eraseDups ++ ys.eraseDups.filter fun y => y ∉ xs.eraseDups := by
  rw [List.eraseDups_append, List.removeAll, ← filter_eraseDups]
  simp

theorem allWords_append (xs ys : List (Option String)) :
    allWords (xs ++ ys) = allWords xs ++ allWords ys := by
  rw [allWords, List.filterMap_append, List.flatMap_append, allWords, allWords]

/-- The keys of a merge stand in the order in which they first occur. -/
theorem keys_groupsOf (lists : List (Option String)) :
    (groupsOf lists).keys = ((allWords lists).map mergeKey).eraseDups := by
  induction lists using List.reverseRecOn with
  | nil => rfl
  | append_singleton lists x ih =>
      rw [allWords_append, List.map_append, eraseDups_append, ← ih]
      cases x with
      | none =>
          rw [groupsOf_append_none]
          exact (List.append_nil _).symm
      | some list =>
          have hwords : allWords [some list] = Text.words list := by simp [allWords]
          rw [groupsOf_append_some, Entries.keys_put _ (grouping_grouped list).distinct,
            grouped_eq, keys_group, hwords]

/-- Under a key stands what the last list with this key has there. -/
theorem blockOf_groupsOf (lists : List (Option String)) (key : String) :
    blockOf (groupsOf lists) key = merged lists key := by
  rw [blockOf, get?_groupsOf, merged_eq]
  cases (holders key lists).getLast? with
  | none => rfl
  | some list =>
      rw [Option.bind_some, ← blockOf, grouped_eq]
      exact blockOf_group (Text.words list) key

/-- A merge has the keys of all lists in the order in which they first occur, and
under each key the classes of the last list that has it. -/
theorem merge_by_key (lists : List (Option String)) :
    merge lists =
      " ".intercalate (((allWords lists).map keyOf).eraseDups.flatMap (merged lists)) := by
  have hblocks : (groupsOf lists).keys.flatMap (blockOf (groupsOf lists)) =
      (groupsOf lists).keys.flatMap (merged lists) :=
    List.flatMap_congr fun key _ => blockOf_groupsOf lists key
  rw [merge_eq_listOf, listOf, Entries.flatMap_eq_keys (grouping_groupsOf lists).distinct,
    ← mergeKey_eq, ← keys_groupsOf, ← hblocks]
  rfl

/-- The last list with tokens of the unit `a` gives both of them, at the place of the
first. -/
example :
    merge [some "ab my-tab aac", none, some "cb\tad", some " aae  af aae "] = "aae af my-tab cb" := by
  decide +kernel

end ClassList

end AtomicStyles
