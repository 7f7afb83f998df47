import AtomicStyles.Proofs.Merging
import AtomicStyles.Proofs.SelectedMeaning

/-!
# Overriding inside a description and across descriptions

A property can be overridden in two ways: by a later entry of its description,
and by a later description whose classes are merged over the first. The two run
on different data. A procedure goes through its groups from the last to the
first, and a merge splits class lists and replaces groups by key.

They agree because what a procedure selects is a list of groups like those of a
merge, with one block of classes for each property that some entry decides. The
entry that decides is the last that gives any class, and in a concatenation the
last is found in the second part first. So both ways find the same block for
every property. They only differ in where they put it: an override stands at its
own entry in a description, and at the place of what it replaces in a merge.
-/

namespace AtomicStyles

open ClassList (Grouping IsGroup blockOf listOf mergeKey)

/-! ## The entries that decide -/

/-- Whether an entry gives classes of a key. -/
def gives (key : String) (e : String × List String) : Bool := e.1 == key && !e.2.isEmpty

/-- The entries that give classes and are the last of their key to do so. -/
def deciders : Entries (List String) → Entries (List String)
  | [] => []
  | e :: rest =>
      if gives e.1 e && !rest.any (gives e.1) then e :: deciders rest else deciders rest

theorem gives_own (e : String × List String) : gives e.1 e = !e.2.isEmpty := by
  simp [gives]

theorem deciding_eq_flatMap (es : Entries (List String)) :
    Meaning.deciding es = (deciders es).flatMap (·.2) := by
  induction es with
  | nil => rfl
  | cons e rest ih =>
      obtain ⟨unit, own⟩ := e
      have hany : (rest.any fun later => later.1 == unit && !later.2.isEmpty) =
          rest.any (gives unit) := rfl
      rw [Meaning.deciding, deciders, gives_own, hany]
      cases rest.any (gives unit) with
      | true => simpa using ih
      | false =>
          cases own with
          | nil => simpa using ih
          | cons t own => simpa using ih

theorem deciders_sublist (es : Entries (List String)) : (deciders es).Sublist es := by
  induction es with
  | nil => exact .slnil
  | cons e rest ih =>
      rw [deciders]
      split
      · exact ih.cons_cons e
      · exact ih.cons e

theorem ne_nil_of_mem_deciders {es : Entries (List String)} :
    ∀ e ∈ deciders es, e.2 ≠ [] := by
  induction es with
  | nil => simp [deciders]
  | cons e rest ih =>
      rw [deciders]
      split
      · next h =>
          rw [gives_own] at h
          refine List.forall_mem_cons.2 ⟨?_, ih⟩
          intro hnil
          simp [hnil] at h
      · exact ih

theorem distinct_deciders (es : Entries (List String)) : Entries.Distinct (deciders es) := by
  induction es with
  | nil => exact Entries.distinct_nil
  | cons e rest ih =>
      obtain ⟨k, own⟩ := e
      rw [deciders]
      split
      · next h =>
          refine Entries.distinct_cons_iff.2 ⟨fun hmem => ?_, ih⟩
          obtain ⟨later, hlater, rfl⟩ := List.mem_map.1 hmem
          have hne := ne_nil_of_mem_deciders later hlater
          have hany : rest.any (gives later.1) :=
            List.any_eq_true.2 ⟨later, (deciders_sublist rest).subset hlater, by
              rw [gives_own]
              simpa using hne⟩
          simp [hany] at h
      · exact ih

/-- What decides a key is the last entry that gives classes of it. -/
theorem get?_deciders (es : Entries (List String)) (key : String) :
    Entries.get? (deciders es) key = (es.filter (gives key)).getLast?.map (·.2) := by
  induction es with
  | nil => rfl
  | cons e rest ih =>
      obtain ⟨k, own⟩ := e
      rw [deciders, List.filter_cons]
      by_cases hk : gives key (k, own)
      · obtain rfl : k = key := by
          rw [gives, Bool.and_eq_true, beq_iff_eq] at hk
          exact hk.1
        rw [if_pos hk]
        cases hany : rest.any (gives k) with
        | true =>
            have hlater : rest.filter (gives k) ≠ [] := by
              obtain ⟨later, hlater, hgives⟩ := List.any_eq_true.1 hany
              exact List.ne_nil_of_mem (List.mem_filter.2 ⟨hlater, hgives⟩)
            rw [if_neg (by simp), ih, List.getLast?_cons_of_ne_nil hlater]
        | false =>
            have hlater : rest.filter (gives k) = [] :=
              List.filter_eq_nil_iff.2 (List.any_eq_false.1 hany)
            rw [if_pos (by simpa using hk), hlater, Entries.get?, if_pos rfl]
            rfl
      · rw [if_neg hk, ← ih]
        split
        · next h =>
            have hne : k ≠ key := by
              rintro rfl
              rw [Bool.and_eq_true] at h
              exact hk h.1
            rw [Entries.get?, if_neg hne]
        · rfl

theorem get?_deciders_append (es fs : Entries (List String)) (key : String) :
    Entries.get? (deciders (es ++ fs)) key =
      (Entries.get? (deciders fs) key).or (Entries.get? (deciders es) key) := by
  rw [get?_deciders, get?_deciders, get?_deciders, List.filter_append, List.getLast?_append]
  cases (fs.filter (gives key)).getLast? <;> rfl

/-! ## What a procedure selects, block by block -/

/-- The block of each property: the classes of the entry that decides, without
repeats. -/
def blocksOf (es : Entries (List String)) : Entries (List String) :=
  (deciders es).map fun e => (e.1, e.2.eraseDups)

theorem distinct_blocksOf (es : Entries (List String)) : Entries.Distinct (blocksOf es) := by
  rw [Entries.Distinct, Entries.keys, blocksOf, List.map_map]
  exact distinct_deciders es

theorem get?_blocksOf (es : Entries (List String)) (key : String) :
    Entries.get? (blocksOf es) key = (Entries.get? (deciders es) key).map (·.eraseDups) := by
  rw [blocksOf]
  induction deciders es with
  | nil => rfl
  | cons e rest ih =>
      obtain ⟨k, own⟩ := e
      rw [List.map_cons, Entries.get?, Entries.get?, ih]
      split <;> rfl

theorem get?_blocksOf_append (es fs : Entries (List String)) (key : String) :
    Entries.get? (blocksOf (es ++ fs)) key =
      (Entries.get? (blocksOf fs) key).or (Entries.get? (blocksOf es) key) := by
  rw [get?_blocksOf, get?_blocksOf, get?_blocksOf, get?_deciders_append]
  cases Entries.get? (deciders fs) key <;> rfl

/-- The classes that each entry gives are tokens of its key. -/
def Keyed (es : Entries (List String)) : Prop :=
  ∀ e ∈ es, ∀ t ∈ e.2, Code.propertyUnit? t = some e.1 ∧ IsClassName t

theorem mergeKey_of_propertyUnit? {t unit : String} (h : Code.propertyUnit? t = some unit) :
    mergeKey t = unit := by
  obtain ⟨parts, hparts, rfl⟩ := Option.map_eq_some_iff.1 h
  rw [mergeKey, hparts]

theorem mem_of_mem_blocksOf {es : Entries (List String)} {b : String × List String}
    (hb : b ∈ blocksOf es) :
    ∃ e ∈ es, e.1 = b.1 ∧ e.2 ≠ [] ∧ b.2 = e.2.eraseDups := by
  obtain ⟨e, he, rfl⟩ := List.mem_map.1 hb
  exact ⟨e, (deciders_sublist es).subset he, rfl, ne_nil_of_mem_deciders e he, rfl⟩

theorem propertyUnit?_of_mem_blocksOf {es : Entries (List String)} (h : Keyed es)
    {b : String × List String} (hb : b ∈ blocksOf es) :
    ∀ t ∈ b.2, Code.propertyUnit? t = some b.1 := by
  obtain ⟨e, he, hkey, -, hblock⟩ := mem_of_mem_blocksOf hb
  intro t ht
  rw [hblock, List.mem_eraseDups] at ht
  rw [← hkey]
  exact (h e he t ht).1

theorem grouping_blocksOf {es : Entries (List String)} (h : Keyed es) :
    Grouping (blocksOf es) := by
  refine ⟨distinct_blocksOf es, fun b hb => ?_⟩
  obtain ⟨e, he, hkey, hne, hblock⟩ := mem_of_mem_blocksOf hb
  have hmem : ∀ t ∈ b.2, t ∈ e.2 := by
    intro t ht
    rwa [hblock, List.mem_eraseDups] at ht
  refine ⟨⟨hblock ▸ nodup_eraseDups e.2, fun t ht => ?_, fun t ht => (h e he t (hmem t ht)).2⟩, ?_⟩
  · exact mergeKey_of_propertyUnit? (propertyUnit?_of_mem_blocksOf h hb t ht)
  · obtain ⟨t, ht⟩ := List.exists_mem_of_ne_nil _ hne
    exact List.ne_nil_of_mem (hblock ▸ List.mem_eraseDups.2 ht)

/-- Blocks of different properties have no class in common, so repeats only occur
inside a block. -/
theorem eraseDups_deciders {es : Entries (List String)} (h : Keyed es) :
    ((deciders es).flatMap (·.2)).eraseDups = (blocksOf es).flatMap (·.2) := by
  have hkeyed : Keyed (deciders es) := fun e he => h e ((deciders_sublist es).subset he)
  have hdistinct := distinct_deciders es
  rw [blocksOf]
  generalize deciders es = ds at hkeyed hdistinct
  induction ds with
  | nil => rfl
  | cons e ds ih =>
      obtain ⟨k, own⟩ := e
      obtain ⟨hnew, hdistinct⟩ := Entries.distinct_cons_iff.1 hdistinct
      obtain ⟨hown, hds⟩ := List.forall_mem_cons.1 hkeyed
      have hapart : (ds.flatMap (·.2)).removeAll own = ds.flatMap (·.2) := by
        refine List.filter_eq_self.2 fun t ht => ?_
        obtain ⟨e, he, ht⟩ := List.mem_flatMap.1 ht
        have hnot : t ∉ own := by
          intro htown
          have hkey := (hown t htown).1.symm.trans (hds e he t ht).1
          exact hnew (List.mem_map.2 ⟨e, he, (Option.some.inj hkey).symm⟩)
        simpa using hnot
      rw [List.flatMap_cons, List.eraseDups_append, hapart, ih hds hdistinct, List.map_cons,
        List.flatMap_cons]

/-- What the groups of a procedure give under a state. -/
def contributions (f : RuleForest) (state : RenderState) : Entries (List String) :=
  (SelectionProcedure.ofForest f).groups.map (SelectionProcedure.contribution state)

theorem keyed_contributions {theme : Theme} {d : StyleDescription} {f : RuleForest}
    (h : lower theme d = .ok f) (state : RenderState) : Keyed (contributions f state) := by
  intro e he t ht
  obtain ⟨g, hg, rfl⟩ := List.mem_map.1 he
  obtain ⟨rules, hrules, rfl⟩ := List.mem_map.1 hg
  obtain ⟨r, hr, rfl⟩ := List.mem_map.1 (Node.runAll_subset state rules.rules ht)
  obtain ⟨s, -, hgroup⟩ := exists_of_forall₂_right (Lowering.lower_ok h) hrules
  obtain ⟨value, hvalue⟩ := (Lowering.mem_classes_group hgroup hr).token_eq
  obtain ⟨name, tree, rs, -, -, rfl⟩ := hgroup
  rw [hvalue]
  refine ⟨?_, isClassName_token s.1.key r.conditions value⟩
  rw [Code.propertyUnit?_token]
  exact congrArg (fun unit => some (String.ofList unit)) (Lowering.Target.unit_eq s.1).symm

/-- The class list of a description is that of its blocks. -/
theorem select_eq_listOf {theme : Theme} {d : StyleDescription} {f : RuleForest}
    (h : lower theme d = .ok f) (state : RenderState) :
    (SelectionProcedure.ofForest f).select state = listOf (blocksOf (contributions f state)) := by
  have heffective :=
    (SelectionProcedure.effective_deciding state (SelectionProcedure.ofForest f).groups).1
  rw [SelectionProcedure.select_eq_intercalate h, SelectionProcedure.selected,
    firsts_eq_eraseDups, heffective, deciding_eq_flatMap, listOf,
    ← eraseDups_deciders (keyed_contributions h state)]
  rfl

/-- Merging what two descriptions select puts the blocks of the second over those
of the first. -/
theorem mergeSelected_eq_listOf {theme : Theme} {d e : StyleDescription} {f g : RuleForest}
    (hd : lower theme d = .ok f) (he : lower theme e = .ok g) (state : RenderState) :
    ClassList.mergeSelected [.ofForest f, .ofForest g] state =
      listOf ((blocksOf (contributions f state)).put (blocksOf (contributions g state))) := by
  rw [ClassList.mergeSelected, ClassList.merge_eq_listOf, List.map_cons, List.map_singleton,
    ClassList.groupsOf_pair, select_eq_listOf hd, select_eq_listOf he,
    ClassList.grouped_listOf (grouping_blocksOf (keyed_contributions hd state)),
    ClassList.grouped_listOf (grouping_blocksOf (keyed_contributions he state))]

/-- A selected class list is in merged form: it is what any number of its copies
merge to, with absent lists among them. -/
theorem merge_selected {theme : Theme} {d : StyleDescription} {f : RuleForest}
    (h : lower theme d = .ok f) (state : RenderState) :
    let list := (SelectionProcedure.ofForest f).select state
    ClassList.merge [some list] = list ∧ ClassList.merge [some list, some list] = list ∧
      ∀ lists, some list ∈ lists → (∀ x ∈ lists, ∀ l ∈ x, l = list) →
        ClassList.merge lists = list := by
  intro list
  have hgrouping := grouping_blocksOf (keyed_contributions h state)
  have hlist : list = listOf (blocksOf (contributions f state)) := select_eq_listOf h state
  have hcopies : ∀ lists, some list ∈ lists → (∀ x ∈ lists, ∀ l ∈ x, l = list) →
      ClassList.merge lists = list := by
    intro lists hmem hall
    rw [ClassList.merge_eq_listOf, ClassList.groupsOf_copies hall, if_pos hmem, hlist,
      ClassList.grouped_listOf hgrouping]
  exact ⟨hcopies _ (by simp) (by simp), hcopies _ (by simp) (by simp), hcopies⟩

/-- A theme property with a fallback to inherit, and a custom property that sets one
text twice. -/
def openPanel : StyleDescription :=
  .ofList
    [("display", .conditional
        [("default", .literal (.text "block")),
         ("dark", .conditional [("hover", .literal (.text "flex"))]),
         ("isOpen", .conditional [("wide", .literal (.text "block"))])]),
     ("--c", .conditional
        [("default", .literal (.text "red")), ("dark", .literal (.text "red"))])]

theorem merge_selected_inherited :
    ∃ f list, lower smallTheme openPanel = .ok f ∧
      (SelectionProcedure.ofForest f).select (RenderState.empty.flag "isOpen" true) = list ∧
      list = "aba aa aacb -bh6Viw--F1yWn- -bh6Viw-a-F1yWn-" ∧
      ClassList.merge [some list] = list ∧ ClassList.merge [some list, some list] = list := by
  obtain ⟨f, hf, hlist⟩ :
      ∃ f, lower smallTheme openPanel = .ok f ∧
        (SelectionProcedure.ofForest f).select (RenderState.empty.flag "isOpen" true) =
          "aba aa aacb -bh6Viw--F1yWn- -bh6Viw-a-F1yWn-" :=
    ⟨_, rfl, by decide +kernel⟩
  obtain ⟨honce, htwice, -⟩ := merge_selected hf (RenderState.empty.flag "isOpen" true)
  exact ⟨f, _, hf, rfl, hlist, honce, htwice⟩

/-! ## Concatenation -/

theorem StyleValue.eachDistinct_append {es fs : List (String × StyleValue)}
    (hes : EachDistinct es) (hfs : EachDistinct fs) : EachDistinct (es ++ fs) :=
  eachDistinct_iff.2 (List.forall_mem_append.2 ⟨eachDistinct_iff.1 hes, eachDistinct_iff.1 hfs⟩)

/-- The entries of one description and then those of another that sets none of the
same names. -/
def StyleDescription.append (d e : StyleDescription)
    (h : ∀ name ∈ d.entries.keys, name ∉ e.entries.keys) : StyleDescription where
  entries := d.entries ++ e.entries
  distinct_names := by
    rw [Entries.Distinct, Entries.keys, List.map_append]
    refine List.nodup_append.2 ⟨d.distinct_names, e.distinct_names, ?_⟩
    rintro name hd name' he rfl
    exact h name hd he
  distinct_keys := StyleValue.eachDistinct_append d.distinct_keys e.distinct_keys

theorem lower_append {theme : Theme} {d e : StyleDescription} {f g : RuleForest}
    (hd : lower theme d = .ok f) (he : lower theme e = .ok g)
    (h : ∀ name ∈ d.entries.keys, name ∉ e.entries.keys) :
    lower theme (d.append e h) = .ok ⟨f.groups ++ g.groups⟩ := by
  obtain ⟨groups, hgroups, rfl⟩ := Lowering.lower_ok_iff.1 hd
  obtain ⟨groups', hgroups', rfl⟩ := Lowering.lower_ok_iff.1 he
  refine Lowering.lower_ok_iff.2 ⟨groups ++ groups', List.rel_append hgroups hgroups', ?_⟩
  rw [List.flatten_append]

theorem contributions_append (f g : RuleForest) (state : RenderState) :
    contributions ⟨f.groups ++ g.groups⟩ state =
      contributions f state ++ contributions g state := by
  simp [contributions, SelectionProcedure.ofForest]

/-- Blocks of a concatenation are the blocks of its parts, those of the second part
over those of the first, up to their order. -/
theorem blocksOf_append_perm (es fs : Entries (List String)) :
    (blocksOf (es ++ fs)).Perm ((blocksOf es).put (blocksOf fs)) := by
  refine Entries.perm_of_get? (distinct_blocksOf _)
    (Entries.distinct_put (distinct_blocksOf es) _) fun key => ?_
  rw [get?_blocksOf_append, Entries.get?_put _ (distinct_blocksOf fs)]

/-- The classes of a class list that set the property with the given unit. -/
def ofProperty (unit list : String) : List String :=
  (Text.words list).filter fun t => Code.propertyUnit? t == some unit

/-- In the list of keyed blocks the classes of a property are its block. -/
theorem ofProperty_listOf {blocks : Entries (List String)} (h : Grouping blocks)
    (hkeyed : ∀ b ∈ blocks, ∀ t ∈ b.2, Code.propertyUnit? t = some b.1) (unit : String) :
    ofProperty unit (listOf blocks) = blockOf blocks unit := by
  rw [ofProperty, ClassList.words_listOf h, blockOf]
  obtain ⟨hdistinct, -⟩ := h
  induction blocks with
  | nil => rfl
  | cons b blocks ih =>
      obtain ⟨k, block⟩ := b
      obtain ⟨hnew, hdistinct⟩ := Entries.distinct_cons_iff.1 hdistinct
      obtain ⟨hblock, hblocks⟩ := List.forall_mem_cons.1 hkeyed
      rw [List.flatMap_cons, List.filter_append, ih hblocks hdistinct, Entries.get?]
      by_cases hk : k = unit
      · have hall : block.filter (fun t => Code.propertyUnit? t == some unit) = block :=
          List.filter_eq_self.2 fun t ht => by simp [hblock t ht, hk]
        rw [if_pos hk, hall, Entries.get?_eq_none_iff.2 (hk ▸ hnew)]
        simp
      · have hnone : block.filter (fun t => Code.propertyUnit? t == some unit) = [] :=
          List.filter_eq_nil_iff.2 fun t ht => by simp [hblock t ht, hk]
        rw [if_neg hk, hnone, List.nil_append]

/-- A concatenated description selects for every property the same classes in the
same order as the merge of what its parts select. Both class lists are made of the
same blocks, one for each property. -/
theorem select_append {theme : Theme} {d e : StyleDescription} {f g : RuleForest}
    (hd : lower theme d = .ok f) (he : lower theme e = .ok g)
    (hnames : ∀ name ∈ d.entries.keys, name ∉ e.entries.keys) :
    ∃ whole, lower theme (d.append e hnames) = .ok whole ∧ ∀ state,
      (∀ unit, ofProperty unit ((SelectionProcedure.ofForest whole).select state) =
        ofProperty unit (ClassList.mergeSelected [.ofForest f, .ofForest g] state)) ∧
      ∃ blocks blocks' : Entries (List String), blocks.Perm blocks' ∧ blocks.Distinct ∧
        (∀ b ∈ blocks, b.2 ≠ [] ∧ ∀ t ∈ b.2, Code.propertyUnit? t = some b.1) ∧
        (SelectionProcedure.ofForest whole).select state = listOf blocks ∧
        ClassList.mergeSelected [.ofForest f, .ofForest g] state = listOf blocks' := by
  have hwhole := lower_append hd he hnames
  refine ⟨_, hwhole, fun state => ?_⟩
  have hkeyed := keyed_contributions hwhole state
  have hperm := blocksOf_append_perm (contributions f state) (contributions g state)
  rw [← contributions_append] at hperm
  have hgrouping := grouping_blocksOf hkeyed
  have hput := (grouping_blocksOf (keyed_contributions hd state)).put
    (grouping_blocksOf (keyed_contributions he state))
  have hunits : ∀ b ∈ blocksOf (contributions ⟨f.groups ++ g.groups⟩ state), ∀ t ∈ b.2,
      Code.propertyUnit? t = some b.1 := fun b hb => propertyUnit?_of_mem_blocksOf hkeyed hb
  refine ⟨fun unit => ?_, _, _, hperm, hgrouping.distinct,
    fun b hb => ⟨(hgrouping.group b hb).2, hunits b hb⟩, select_eq_listOf hwhole state,
    mergeSelected_eq_listOf hd he state⟩
  rw [select_eq_listOf hwhole, mergeSelected_eq_listOf hd he, ofProperty_listOf hgrouping hunits,
    ofProperty_listOf hput fun b hb => hunits b (hperm.mem_iff.2 hb), blockOf, blockOf,
    contributions_append, get?_blocksOf_append,
    Entries.get?_put _ (distinct_blocksOf (contributions g state))]

/-- A theme with two properties and a shorthand for both. -/
def edgeTheme : Theme where
  properties := [("top", .ofNames ["0", "1"]), ("bottom", .ofNames ["0", "1"])]
  shorthands := [("edges", [0, 1])]
  conditions := []
  preludes := []

/-- Both properties, each by itself. -/
def separateEdges : StyleDescription :=
  .ofList [("bottom", .literal (.text "0")), ("top", .literal (.text "0"))]

/-- Both properties by their shorthand, under a flag. -/
def openEdges : StyleDescription :=
  .ofList [("edges", .conditional [("isOpen", .literal (.text "1"))])]

/-- The shorthand overrides the two properties when the flag is on. The concatenation
has their blocks in the order of the shorthand, and the merge where they stood. -/
theorem select_append_shorthand :
    ∃ (f g whole : RuleForest)
      (hnames : ∀ name ∈ separateEdges.entries.keys, name ∉ openEdges.entries.keys),
      lower edgeTheme separateEdges = .ok f ∧ lower edgeTheme openEdges = .ok g ∧
        lower edgeTheme (separateEdges.append openEdges hnames) = .ok whole ∧
        (∀ state unit, ofProperty unit ((SelectionProcedure.ofForest whole).select state) =
          ofProperty unit (ClassList.mergeSelected [.ofForest f, .ofForest g] state)) ∧
        (SelectionProcedure.ofForest whole).select (RenderState.empty.flag "isOpen" true) =
          "ab bb" ∧
        ClassList.mergeSelected [.ofForest f, .ofForest g] (RenderState.empty.flag "isOpen" true) =
          "bb ab" ∧
        (SelectionProcedure.ofForest whole).select .empty = "ba aa" := by
  have hnames : ∀ name ∈ separateEdges.entries.keys, name ∉ openEdges.entries.keys := by
    decide
  refine ⟨_, _, _, hnames, rfl, rfl, rfl, fun state unit => ?_, by decide +kernel,
    by decide +kernel, by decide +kernel⟩
  obtain ⟨whole, hwhole, h⟩ := @select_append edgeTheme separateEdges openEdges _ _ rfl rfl hnames
  obtain rfl := Except.ok.inj hwhole
  exact (h state).1 unit

end AtomicStyles
