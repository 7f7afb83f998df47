import AtomicStyles.Proofs.ClassList
import AtomicStyles.Proofs.Overlay
import AtomicStyles.Selection.Merge

/-!
# Merged class lists stay merged

Components merge class lists at every level of a page, so a merged list is text
that will be taken apart and merged again. Nothing may depend on where the
levels are. The reason that nothing does is that the text of a merge loses none
of the groups that it was made from: they stand there one after another, each
with its own key, and taking the text apart finds them again in the same order.

So merging is putting groups over groups, with text in between that can be
ignored. A list without words has no groups, and only such lists are neutral.
-/

namespace AtomicStyles

/-! ## Words -/

namespace Text

theorem mem_stretches_no_separator {cs w : List Char} (h : w ∈ stretches cs) :
    ∀ c ∈ w, isSeparator c = false := by
  induction cs generalizing w with
  | nil =>
      rw [stretches, List.mem_singleton] at h
      simp [h]
  | cons c cs ih =>
      rw [stretches] at h
      split at h
      · rcases List.mem_cons.1 h with rfl | h
        · simp
        · exact ih h
      · next hc =>
          have hc : isSeparator c = false := by simpa using hc
          split at h
          · rw [List.mem_singleton.1 h]
            simpa using hc
          · next v vs hvs =>
              rw [hvs] at ih
              rcases List.mem_cons.1 h with rfl | h
              · exact List.forall_mem_cons.2 ⟨hc, ih List.mem_cons_self⟩
              · exact ih (List.mem_cons_of_mem _ h)

theorem isClassName_of_mem_words {s t : String} (h : t ∈ words s) : IsClassName t := by
  obtain ⟨w, hw, rfl⟩ := List.mem_map.1 h
  obtain ⟨hw, hne⟩ := List.mem_filter.1 hw
  refine ⟨?_, ?_⟩
  · intro hempty
    have hnil : w = [] := by simpa using congrArg String.toList hempty
    simp [hnil] at hne
  · rw [String.toList_ofList]
    exact mem_stretches_no_separator hw

theorem stretches_all_empty_iff {cs : List Char} :
    (∀ w ∈ stretches cs, w = []) ↔ ∀ c ∈ cs, isSeparator c := by
  induction cs with
  | nil => simp [stretches]
  | cons c cs ih =>
      by_cases hc : isSeparator c
      · rw [stretches, if_pos hc]
        simp [hc, ih]
      · have hfirst : ∃ w ∈ stretches (c :: cs), w ≠ [] := by
          rw [stretches, if_neg hc]
          split
          · exact ⟨_, List.mem_cons_self, List.cons_ne_nil _ _⟩
          · exact ⟨_, List.mem_cons_self, List.cons_ne_nil _ _⟩
        obtain ⟨w, hw, hne⟩ := hfirst
        constructor
        · intro h
          exact absurd (h w hw) hne
        · intro h
          exact absurd (h c List.mem_cons_self) hc

/-- A class list without words has nothing but separators. -/
theorem words_eq_nil_iff {s : String} : words s = [] ↔ ∀ c ∈ s.toList, isSeparator c := by
  rw [← stretches_all_empty_iff, words, List.map_eq_nil_iff, List.filter_eq_nil_iff]
  simp

end Text

namespace ClassList

/-! ## Groups -/

/-- Classes of one key, none of them twice. -/
structure IsGroup (key : String) (block : List String) : Prop where
  nodup : block.Nodup
  key_eq : ∀ t ∈ block, mergeKey t = key
  className : ∀ t ∈ block, IsClassName t

theorem isGroup_nil (key : String) : IsGroup key [] := ⟨List.nodup_nil, by simp, by simp⟩

/-- Groups of classes, one for each key and none of them empty. -/
structure Grouping (groups : Entries (List String)) : Prop where
  distinct : groups.Distinct
  group : ∀ e ∈ groups, IsGroup e.1 e.2 ∧ e.2 ≠ []

/-- The classes that are grouped under a key. -/
def blockOf (groups : Entries (List String)) (key : String) : List String :=
  (groups.get? key).getD []

theorem grouping_nil : Grouping [] := ⟨Entries.distinct_nil, by simp⟩

theorem grouping_of_get? {groups : Entries (List String)} (hd : groups.Distinct)
    (h : ∀ key block, groups.get? key = some block → IsGroup key block ∧ block ≠ []) :
    Grouping groups :=
  ⟨hd, fun e he => h e.1 e.2 (Entries.get?_of_mem hd he)⟩

namespace Grouping

variable {groups later : Entries (List String)}

theorem get? (h : Grouping groups) {key : String} {block : List String}
    (hget : groups.get? key = some block) : IsGroup key block ∧ block ≠ [] :=
  h.group _ (Entries.mem_of_get? hget)

theorem isGroup_blockOf (h : Grouping groups) (key : String) :
    IsGroup key (blockOf groups key) := by
  rw [blockOf]
  cases hget : groups.get? key with
  | none => exact isGroup_nil key
  | some block => exact (h.get? hget).1

theorem insert (h : Grouping groups) {key : String} {block : List String}
    (hblock : IsGroup key block) (hne : block ≠ []) : Grouping (groups.insert key block) := by
  refine grouping_of_get? (Entries.distinct_insert h.distinct key block) fun k b hget => ?_
  rw [Entries.get?_insert] at hget
  split at hget
  · next hk =>
      rw [← hk, ← Option.some.inj hget]
      exact ⟨hblock, hne⟩
  · exact h.get? hget

theorem put (h : Grouping groups) (hlater : Grouping later) : Grouping (groups.put later) := by
  refine grouping_of_get? (Entries.distinct_put h.distinct later) fun k b hget => ?_
  rw [Entries.get?_put _ hlater.distinct, Option.or_eq_some_iff] at hget
  rcases hget with hget | ⟨-, hget⟩
  · exact hlater.get? hget
  · exact h.get? hget

/-- A class stands in the group of its key or nowhere. -/
theorem mem_iff (h : Grouping groups) {t : String} :
    t ∈ groups.flatMap (·.2) ↔ t ∈ blockOf groups (mergeKey t) := by
  rw [List.mem_flatMap, blockOf]
  constructor
  · rintro ⟨⟨k, b⟩, he, ht⟩
    rw [(h.group _ he).1.key_eq t ht, Entries.get?_of_mem h.distinct he]
    exact ht
  · intro ht
    cases hget : groups.get? (mergeKey t) with
    | none => simp [hget] at ht
    | some b =>
        rw [hget] at ht
        exact ⟨_, Entries.mem_of_get? hget, ht⟩

/-- Over all groups no class stands twice. -/
theorem nodup (h : Grouping groups) : (groups.flatMap (·.2)).Nodup := by
  refine List.nodup_flatMap.2 ⟨fun e he => (h.group e he).1.nodup, ?_⟩
  have hkeys : groups.Pairwise fun e e' => e.1 ≠ e'.1 := List.pairwise_map.1 h.distinct
  refine hkeys.imp_of_mem fun {e e'} he he' hne t ht ht' => hne ?_
  rw [← (h.group e he).1.key_eq t ht, (h.group e' he').1.key_eq t ht']

theorem className (h : Grouping groups) : ∀ t ∈ groups.flatMap (·.2), IsClassName t := by
  intro t ht
  obtain ⟨e, he, ht⟩ := List.mem_flatMap.1 ht
  exact (h.group e he).1.className t ht

end Grouping

/-! ## Grouping words -/

/-- Words grouped by key. -/
def group (ws : List String) : Entries (List String) := ws.foldl addToken []

theorem grouped_eq (list : String) : grouped list = group (Text.words list) := rfl

theorem group_append (ws us : List String) : group (ws ++ us) = us.foldl addToken (group ws) :=
  List.foldl_append

/-- A group with one more class, unless it is there already. -/
def addTo (block : List String) (t : String) : List String :=
  if block.contains t then block else block ++ [t]

theorem addToken_eq (groups : Entries (List String)) (t : String) :
    addToken groups t = groups.insert (mergeKey t) (addTo (blockOf groups (mergeKey t)) t) := rfl

theorem mem_addTo {block : List String} {t u : String} :
    u ∈ addTo block t ↔ u ∈ block ∨ u = t := by
  rw [addTo]
  split
  · next h =>
      have ht : t ∈ block := by simpa using h
      exact ⟨.inl, fun hu => hu.elim id fun hu => hu ▸ ht⟩
  · simp

theorem IsGroup.addTo {key t : String} {block : List String} (h : IsGroup key block)
    (ht : mergeKey t = key) (hname : IsClassName t) : IsGroup key (addTo block t) where
  nodup := by
    rw [ClassList.addTo]
    split
    · exact h.nodup
    · next hnew =>
        have hnew : t ∉ block := by simpa using hnew
        refine List.nodup_append.2 ⟨h.nodup, by simp, ?_⟩
        rintro u hu v hv rfl
        exact hnew (List.mem_singleton.1 hv ▸ hu)
  key_eq := by
    intro u hu
    rcases mem_addTo.1 hu with hu | rfl
    · exact h.key_eq u hu
    · exact ht
  className := by
    intro u hu
    rcases mem_addTo.1 hu with hu | rfl
    · exact h.className u hu
    · exact hname

theorem Grouping.addToken {groups : Entries (List String)} (h : Grouping groups) {t : String}
    (hname : IsClassName t) : Grouping (addToken groups t) := by
  rw [addToken_eq]
  exact h.insert ((h.isGroup_blockOf _).addTo rfl hname)
    (List.ne_nil_of_mem (mem_addTo.2 (.inr rfl)))

theorem grouping_group {ws : List String} (h : ∀ t ∈ ws, IsClassName t) :
    Grouping (group ws) := by
  induction ws using List.reverseRecOn with
  | nil => exact grouping_nil
  | append_singleton ws t ih =>
      rw [group_append]
      have hws := ih fun u hu => h u (List.mem_append_left _ hu)
      exact hws.addToken (h t (by simp))

theorem grouping_grouped (list : String) : Grouping (grouped list) :=
  grouping_group fun _ ht => Text.isClassName_of_mem_words ht

theorem blockOf_addToken (groups : Entries (List String)) (t key : String) :
    blockOf (addToken groups t) key =
      if mergeKey t = key then addTo (blockOf groups key) t else blockOf groups key := by
  rw [addToken_eq, blockOf, Entries.get?_insert]
  split
  · next ht =>
      rw [ht]
      rfl
  · rfl

/-- The group of a key has the words of this key at their first appearances. -/
theorem blockOf_group (ws : List String) (key : String) :
    blockOf (group ws) key = (ws.filter fun t => mergeKey t == key).eraseDups := by
  induction ws using List.reverseRecOn with
  | nil => rfl
  | append_singleton ws t ih =>
      rw [group_append, List.foldl_cons, List.foldl_nil, blockOf_addToken, List.filter_append]
      split
      · next ht =>
          have hlast : [t].filter (fun t => mergeKey t == key) = [t] := by simp [ht]
          rw [ih, addTo, hlast, eraseDups_append_singleton]
          simp only [List.contains_iff_mem, List.mem_eraseDups]
      · next ht =>
          have hlast : [t].filter (fun t => mergeKey t == key) = [] := by simp [ht]
          rw [ih, hlast, List.append_nil]

theorem mem_blockOf_group {ws : List String} {t : String} {key : String} :
    t ∈ blockOf (group ws) key ↔ t ∈ ws ∧ mergeKey t = key := by
  rw [blockOf_group, List.mem_eraseDups, List.mem_filter, beq_iff_eq]

/-! ## Taking the text of groups apart -/

theorem foldl_addToken {groups : Entries (List String)} {key : String}
    (hkey : key ∉ groups.keys) {block : List String} (hblock : ∀ t ∈ block, mergeKey t = key)
    (before : List String) (hnodup : (before ++ block).Nodup) :
    block.foldl addToken (groups ++ [(key, before)]) = groups ++ [(key, before ++ block)] := by
  induction block generalizing before with
  | nil => rw [List.foldl_nil, List.append_nil]
  | cons t block ih =>
      obtain ⟨ht, hblock⟩ := List.forall_mem_cons.1 hblock
      have hnew : t ∉ before := by
        intro hmem
        exact (List.nodup_append.1 hnodup).2.2 t hmem t List.mem_cons_self rfl
      have hold : blockOf (groups ++ [(key, before)]) key = before := by
        rw [blockOf, Entries.get?_append, Entries.get?_eq_none_iff.2 hkey, Entries.get?,
          if_pos rfl]
        rfl
      have hstep : addToken (groups ++ [(key, before)]) t = groups ++ [(key, before ++ [t])] := by
        rw [addToken_eq, ht, hold, addTo, if_neg (by simpa using hnew)]
        exact Entries.insert_append_same hkey before (before ++ [t])
      rw [List.foldl_cons, hstep, ih hblock, List.append_assoc, List.singleton_append]
      rw [List.append_assoc, List.singleton_append]
      exact hnodup

/-- Grouping the classes of groups gives the groups again. -/
theorem group_flatMap {groups : Entries (List String)} (h : Grouping groups) :
    group (groups.flatMap (·.2)) = groups := by
  induction groups using List.reverseRecOn with
  | nil => rfl
  | append_singleton groups e ih =>
      obtain ⟨key, block⟩ := e
      have hinit : Grouping groups := by
        refine ⟨?_, fun e he => h.group e (List.mem_append_left _ he)⟩
        exact h.distinct.sublist (List.Sublist.map _ (List.sublist_append_left _ _))
      have hkey : key ∉ Entries.keys groups := by
        intro hmem
        have hd := h.distinct
        rw [Entries.Distinct, Entries.keys, List.map_append] at hd
        exact (List.nodup_append.1 hd).2.2 key hmem key (by simp) rfl
      obtain ⟨hblock, hne⟩ := h.group (key, block) (by simp)
      rw [List.flatMap_append, List.flatMap_singleton, group_append, ih hinit]
      cases block with
      | nil => exact absurd rfl hne
      | cons t block =>
          have ht : mergeKey t = key := hblock.key_eq t List.mem_cons_self
          have hfirst : addToken groups t = groups ++ [(key, [t])] := by
            rw [addToken_eq, ht, blockOf, Entries.get?_eq_none_iff.2 hkey]
            exact Entries.insert_of_not_mem hkey [t]
          rw [List.foldl_cons, hfirst]
          exact foldl_addToken hkey
            (fun u hu => hblock.key_eq u (List.mem_cons_of_mem _ hu)) [t] hblock.nodup

/-- The class list of groups. -/
def listOf (groups : Entries (List String)) : String :=
  " ".intercalate (groups.flatMap (·.2))

theorem words_listOf {groups : Entries (List String)} (h : Grouping groups) :
    Text.words (listOf groups) = groups.flatMap (·.2) :=
  Text.words_intercalate h.className

/-- The class list of groups has just these groups. -/
theorem grouped_listOf {groups : Entries (List String)} (h : Grouping groups) :
    grouped (listOf groups) = groups := by
  rw [grouped_eq, words_listOf h, group_flatMap h]

/-! ## Merging -/

/-- The groups of several lists, those of later lists put over those of earlier
ones. -/
def groupsOf (lists : List (Option String)) : Entries (List String) :=
  (lists.filterMap id).foldl overlay []

theorem merge_eq_listOf (lists : List (Option String)) : merge lists = listOf (groupsOf lists) :=
  rfl

theorem groupsOf_append_none (lists : List (Option String)) :
    groupsOf (lists ++ [none]) = groupsOf lists := by
  rw [groupsOf, List.filterMap_append]
  simp [groupsOf]

theorem groupsOf_append_some (lists : List (Option String)) (list : String) :
    groupsOf (lists ++ [some list]) = (groupsOf lists).put (grouped list) := by
  rw [groupsOf, List.filterMap_append, List.foldl_append]
  rfl

theorem grouping_groupsOf (lists : List (Option String)) : Grouping (groupsOf lists) := by
  induction lists using List.reverseRecOn with
  | nil => exact grouping_nil
  | append_singleton lists x ih =>
      cases x with
      | none =>
          rw [groupsOf_append_none]
          exact ih
      | some list =>
          rw [groupsOf_append_some]
          exact ih.put (grouping_grouped list)

theorem groupsOf_append (xs ys : List (Option String)) :
    groupsOf (xs ++ ys) = (groupsOf xs).put (groupsOf ys) := by
  induction ys using List.reverseRecOn with
  | nil =>
      rw [List.append_nil]
      rfl
  | append_singleton ys y ih =>
      rw [← List.append_assoc]
      cases y with
      | none => rw [groupsOf_append_none, groupsOf_append_none, ih]
      | some list =>
          rw [groupsOf_append_some, groupsOf_append_some, ih]
          exact Entries.put_assoc (grouping_groupsOf xs).distinct (grouping_groupsOf ys).distinct
            (grouping_grouped list).distinct

/-- A merged list has the groups that it was merged from. -/
theorem grouped_merge (lists : List (Option String)) : grouped (merge lists) = groupsOf lists :=
  grouped_listOf (grouping_groupsOf lists)

theorem words_merge (lists : List (Option String)) :
    Text.words (merge lists) = (groupsOf lists).flatMap (·.2) :=
  words_listOf (grouping_groupsOf lists)

theorem groupsOf_singleton (list : String) : groupsOf [some list] = grouped list := by
  rw [← List.nil_append [some list], groupsOf_append_some]
  exact Entries.nil_put (grouping_grouped list).distinct

theorem groupsOf_pair (x y : String) :
    groupsOf [some x, some y] = (grouped x).put (grouped y) := by
  rw [← List.singleton_append, groupsOf_append_some, groupsOf_singleton]

/-! ## Neutral lists -/

theorem grouped_of_words_nil {list : String} (h : Text.words list = []) : grouped list = [] := by
  rw [grouped_eq, h]
  rfl

/-- A list has no groups only when it has no words. -/
theorem words_eq_nil_of_grouped {list : String} (h : grouped list = []) :
    Text.words list = [] := by
  refine List.eq_nil_iff_forall_not_mem.2 fun t ht => ?_
  have hmem : t ∈ blockOf (group (Text.words list)) (mergeKey t) :=
    mem_blockOf_group.2 ⟨ht, rfl⟩
  rw [← grouped_eq, h] at hmem
  simp [blockOf, Entries.get?] at hmem

/-- A list that is absent or has nothing but separators can stand anywhere. -/
theorem groupsOf_insert_blank (xs ys : List (Option String)) {x : Option String}
    (h : ∀ list ∈ x, Text.words list = []) :
    groupsOf (xs ++ x :: ys) = groupsOf (xs ++ ys) := by
  have hx : groupsOf (xs ++ [x]) = groupsOf xs := by
    cases x with
    | none => exact groupsOf_append_none xs
    | some list =>
        rw [groupsOf_append_some, grouped_of_words_nil (h list rfl)]
        rfl
  rw [← List.singleton_append, ← List.append_assoc, groupsOf_append, hx, ← groupsOf_append]

/-- Only the first copy of a list counts, and absent lists do not count at all. -/
theorem groupsOf_copies {list : String} {lists : List (Option String)}
    (hcopies : ∀ x ∈ lists, ∀ l ∈ x, l = list) :
    groupsOf lists = if some list ∈ lists then grouped list else [] := by
  induction lists using List.reverseRecOn with
  | nil => rfl
  | append_singleton lists x ih =>
      have hinit := ih fun y hy => hcopies y (List.mem_append_left _ hy)
      cases x with
      | none =>
          rw [groupsOf_append_none, hinit]
          simp
      | some l =>
          obtain rfl : l = list := hcopies (some l) (by simp) l rfl
          have hd := (grouping_grouped l).distinct
          have hlast : some l ∈ lists ++ [some l] := by simp
          rw [groupsOf_append_some, hinit, if_pos hlast]
          split
          · exact Entries.put_self hd
          · exact Entries.nil_put hd

/-- Merging is associative, merging again changes nothing, and the inputs that can
be left out anywhere are those without any word. -/
theorem merge_append (xs ys : List (Option String)) :
    merge (xs ++ ys) = merge [some (merge xs), some (merge ys)] ∧
      merge [some (merge xs)] = merge xs ∧
      ∀ x : Option String, (∀ list ∈ x, ∀ c ∈ list.toList, Text.isSeparator c) ↔
        ∀ xs ys, merge (xs ++ x :: ys) = merge (xs ++ ys) := by
  refine ⟨?_, ?_, fun x => ⟨fun h xs ys => ?_, fun h list hx => ?_⟩⟩
  · rw [merge_eq_listOf, groupsOf_append, merge_eq_listOf [_, _], groupsOf_pair, grouped_merge,
      grouped_merge]
  · rw [merge_eq_listOf [_], groupsOf_singleton, grouped_merge, merge_eq_listOf]
  · have hx : ∀ list ∈ x, Text.words list = [] := fun list hl =>
      Text.words_eq_nil_iff.2 (h list hl)
    rw [merge_eq_listOf, groupsOf_insert_blank xs ys hx, merge_eq_listOf]
  · -- standing alone, the list must have the groups of no list at all
    have halone : merge [some list] = merge [] := by
      have h := h [] []
      rwa [Option.mem_def.1 hx] at h
    have hgroups : grouped list = [] := by
      rw [← groupsOf_singleton, ← grouped_merge, halone, grouped_merge]
      rfl
    exact Text.words_eq_nil_iff.1 (words_eq_nil_of_grouped hgroups)

end ClassList

end AtomicStyles
