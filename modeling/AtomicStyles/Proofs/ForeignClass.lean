import AtomicStyles.Proofs.Merging
import AtomicStyles.Proofs.UnitGrammar

/-!
# Classes that are no tokens

A page also has classes that no theme made, and a merge keeps such a class under
its own name. The names share one space of keys with the units of properties. So
a class that reads like a unit, such as `a`, has the key of every token of the
property with this unit, and a later list with such a token and without the
class puts it out.

What a merge does to a key is decided by the last list that has it. That gives
the exact rule, and it shows that only classes that are one unit can be lost: a
name such as `my-widget` is safe whatever stands beside it.
-/

namespace AtomicStyles

/-! ## A unit by itself -/

namespace Code

/-- The property unit of a token is one unit. -/
theorem readUnit?_propertyUnit {token unit : String} (h : propertyUnit? token = some unit) :
    readUnit? unit.toList = some (unit.toList, []) := by
  obtain ⟨parts, hparts, rfl⟩ := Option.map_eq_some_iff.1 h
  obtain ⟨first, middle, last, hunits, -, rfl⟩ := parseToken?_eq_some_iff.1 hparts
  rw [String.toList_ofList]
  exact readUnit?_eq_some_iff.2 ⟨hunits first List.mem_cons_self, (List.append_nil first).symm⟩

end Code

namespace ClassList

/-! ## The last list that has a key -/

/-- Whether a list has a class of the given key. -/
def hasKey (key list : String) : Bool :=
  (Text.words list).any fun w => mergeKey w == key

theorem hasKey_iff {key list : String} :
    hasKey key list ↔ ∃ w ∈ Text.words list, mergeKey w = key := by
  simp [hasKey]

theorem get?_grouped_eq_none_iff {key list : String} :
    (grouped list).get? key = none ↔ ¬ hasKey key list := by
  rw [hasKey_iff, grouped_eq]
  constructor
  · rintro hget ⟨w, hw, hkey⟩
    have hmem : w ∈ blockOf (group (Text.words list)) key := mem_blockOf_group.2 ⟨hw, hkey⟩
    simp [blockOf, hget] at hmem
  · intro hnone
    cases hget : (group (Text.words list)).get? key with
    | none => rfl
    | some block =>
        obtain ⟨hblock, hne⟩ := (grouping_grouped list).get? hget
        obtain ⟨w, hw⟩ := List.exists_mem_of_ne_nil block hne
        have hmem : w ∈ blockOf (group (Text.words list)) key := by
          rw [blockOf, hget]
          exact hw
        exact absurd ⟨w, (mem_blockOf_group.1 hmem).1, hblock.key_eq w hw⟩ hnone

/-- The lists that have a class of the given key, in order. -/
def holders (key : String) (lists : List (Option String)) : List String :=
  (lists.filterMap id).filter (hasKey key)

/-- The last list that has a key decides what is merged under it. -/
theorem get?_groupsOf (key : String) (lists : List (Option String)) :
    (groupsOf lists).get? key =
      (holders key lists).getLast?.bind fun list => (grouped list).get? key := by
  induction lists using List.reverseRecOn with
  | nil => rfl
  | append_singleton lists x ih =>
      rw [holders, List.filterMap_append, List.filter_append, List.getLast?_append]
      cases x with
      | none =>
          rw [groupsOf_append_none, ih]
          rfl
      | some list =>
          rw [groupsOf_append_some, Entries.get?_put _ (grouping_grouped list).distinct, ih]
          by_cases hlist : hasKey key list
          · have hlast : (([some list].filterMap id).filter (hasKey key)).getLast? = some list := by
              simp [hlist]
            obtain ⟨block, hblock⟩ := Option.ne_none_iff_exists'.1
              fun hnone => get?_grouped_eq_none_iff.1 hnone hlist
            rw [hlast, Option.some_or, Option.bind_some, hblock, Option.some_or]
          · have hlast : (([some list].filterMap id).filter (hasKey key)).getLast? = none := by
              simp [hlist]
            rw [hlast, Option.none_or, get?_grouped_eq_none_iff.2 hlist, Option.none_or]
            rfl

theorem mem_words_merge_iff {t : String} {lists : List (Option String)} :
    t ∈ Text.words (merge lists) ↔
      ∃ last ∈ (holders (mergeKey t) lists).getLast?, t ∈ Text.words last := by
  rw [words_merge, (grouping_groupsOf lists).mem_iff, blockOf, get?_groupsOf]
  cases hlast : (holders (mergeKey t) lists).getLast? with
  | none => simp
  | some last =>
      rw [Option.bind_some, ← blockOf, grouped_eq, mem_blockOf_group]
      simp

/-! ## Foreign classes -/

/-- Whether a list has the class, or a token of the property whose unit is spelled
like it. -/
def mentions (t list : String) : Bool :=
  (Text.words list).any fun w => w == t || Code.propertyUnit? w == some t

theorem mergeKey_foreign {t : String} (h : Code.parseToken? t = none) : mergeKey t = t := by
  rw [mergeKey, h]

theorem mergeKey_eq_iff {t : String} (h : Code.parseToken? t = none) {w : String} :
    mergeKey w = t ↔ w = t ∨ Code.propertyUnit? w = some t := by
  rw [mergeKey, Code.propertyUnit?]
  cases hw : Code.parseToken? w with
  | none => simp
  | some parts =>
      have hne : w ≠ t := by
        rintro rfl
        rw [h] at hw
        cases hw
      simp [hne]

theorem hasKey_eq_mentions {t : String} (h : Code.parseToken? t = none) (list : String) :
    hasKey t list = mentions t list := by
  rw [Bool.eq_iff_iff, hasKey_iff, mentions, List.any_eq_true]
  simp only [mergeKey_eq_iff h, Bool.or_eq_true, beq_iff_eq]

/-- No property unit is spelled like a class that is not one unit, so only the class
itself mentions it. -/
theorem mem_words_of_mentions {t list : String}
    (hunit : Code.readUnit? t.toList ≠ some (t.toList, [])) (h : mentions t list = true) :
    t ∈ Text.words list := by
  obtain ⟨w, hw, hwt⟩ := List.any_eq_true.1 h
  rw [Bool.or_eq_true, beq_iff_eq, beq_iff_eq] at hwt
  rcases hwt with rfl | hprop
  · exact hw
  · exact absurd (Code.readUnit?_propertyUnit hprop) hunit

/-- A class that is no token occurs at most once in a merged list. It occurs if
and only if the last list that mentions it has it, and always when it is not one
unit. -/
theorem count_foreign_class {lists : List (Option String)} {t : String}
    (hforeign : Code.parseToken? t = none)
    (hmem : ∃ list, some list ∈ lists ∧ t ∈ Text.words list) :
    (Text.words (merge lists)).count t ≤ 1 ∧
      ((Text.words (merge lists)).count t = 1 ↔
        ∃ last ∈ ((lists.filterMap id).filter (mentions t)).getLast?, t ∈ Text.words last) ∧
      (Code.readUnit? t.toList ≠ some (t.toList, []) →
        (Text.words (merge lists)).count t = 1) := by
  have hnodup : (Text.words (merge lists)).Nodup := by
    rw [words_merge]
    exact (grouping_groupsOf lists).nodup
  have hholders : holders t lists = (lists.filterMap id).filter (mentions t) :=
    List.filter_congr fun list _ => hasKey_eq_mentions hforeign list
  have hcount : (Text.words (merge lists)).count t = 1 ↔
      ∃ last ∈ ((lists.filterMap id).filter (mentions t)).getLast?, t ∈ Text.words last := by
    rw [← hholders]
    conv in holders t lists => rw [← mergeKey_foreign hforeign]
    rw [← mem_words_merge_iff]
    exact ⟨fun h => List.count_pos_iff.1 (by omega), List.count_eq_one_of_mem hnodup⟩
  refine ⟨List.nodup_iff_count_le_one.1 hnodup t, hcount, fun hunit => hcount.2 ?_⟩
  have hsome : (lists.filterMap id).filter (mentions t) ≠ [] := by
    obtain ⟨list, hlist, ht⟩ := hmem
    refine List.ne_nil_of_mem (a := list) (List.mem_filter.2 ⟨?_, ?_⟩)
    · exact List.mem_filterMap.2 ⟨some list, hlist, rfl⟩
    · exact List.any_eq_true.2 ⟨t, ht, by simp⟩
  obtain ⟨last, hlast⟩ := Option.ne_none_iff_exists'.1
    fun h => hsome (List.getLast?_eq_none_iff.1 h)
  have hmention := (List.mem_filter.1 (List.mem_of_getLast? hlast)).2
  exact ⟨last, hlast, mem_words_of_mentions hunit hmention⟩

/-- The last list has the class beside a token of its key, so both are kept. -/
theorem count_foreign_class_restored :
    Code.parseToken? "a" = none ∧
      (∃ list, some list ∈ [some "a b", some "ab", none, some "a ac"] ∧ "a" ∈ Text.words list) ∧
      merge [some "a b", some "ab", none, some "a ac"] = "a ac b" ∧
      (Text.words (merge [some "a b", some "ab", none, some "a ac"])).count "a" = 1 := by
  have hforeign : Code.parseToken? "a" = none := by decide +kernel
  have hmem : ∃ list, some list ∈ [some "a b", some "ab", none, some "a ac"] ∧
      "a" ∈ Text.words list := ⟨"a b", by simp, by decide +kernel⟩
  exact ⟨hforeign, hmem, by decide +kernel,
    (count_foreign_class hforeign hmem).2.1.2 ⟨"a ac", by decide +kernel, by decide +kernel⟩⟩

/-- A token of the property with the unit `a` puts out the class `a`. -/
theorem foreign_class_lost :
    Code.parseToken? "a" = none ∧ "a" ∈ Text.words "a" ∧
      merge [some "a", some "ab"] = "ab" ∧
      (Text.words (merge [some "a", some "ab"])).count "a" = 0 := by
  decide +kernel

end ClassList

end AtomicStyles
