import AtomicStyles.Proofs.Overlay
import AtomicStyles.Proofs.SingleClass

/-!
# What a theme is built of

A draft collects entries in the order of the calls, and building takes them up in
three passes. Each step of a pass appends one row to a table, or one row and a
prelude. So a table is known from its entries, and a draft with further entries
at its end builds the same tables with further rows.

The rows refer to each other by ordinals. A shorthand lists properties and a
condition names its prelude, and since rows are only appended, an ordinal that
was in range when its row was made stays in range. Of a description the theme is
asked for nothing but such ordinals: a class stands under conditions whose names
the theme knows.
-/

namespace AtomicStyles

/-- A call that adds to a draft. -/
inductive ThemeCall where
  | property (name : String) (definition : PropertyDefinition)
  | condition (name text : String)
  | runtimeCondition (name : String)
  | shorthand (name : String) (longhands : List String)

namespace ThemeCall

/-- The draft with the entry of a call. -/
def addTo (d : ThemeDraft) : ThemeCall → ThemeDraft
  | property name definition => d.property name definition
  | condition name text => d.condition name text
  | runtimeCondition name => d.runtimeCondition name
  | shorthand name longhands => d.shorthand name longhands

/-- The draft that calls make, one after another. -/
def draft (calls : List ThemeCall) : ThemeDraft :=
  calls.foldl addTo {}

/-- The property that a call adds. -/
def property? : ThemeCall → Option (String × PropertyDefinition)
  | property name definition => some (name, definition)
  | _ => none

/-- The condition that a call adds, with its text. -/
def condition? : ThemeCall → Option (String × String)
  | condition name text => some (name, text)
  | runtimeCondition name => some (name, "")
  | _ => none

/-- The shorthand that a call adds. -/
def shorthand? : ThemeCall → Option (String × List String)
  | shorthand name longhands => some (name, longhands)
  | _ => none

/-- The names of the conditions that calls add. -/
def conditionNames (calls : List ThemeCall) : List String :=
  (calls.filterMap condition?).map (·.1)

/-- The names of the shorthands that calls add. -/
def shorthandNames (calls : List ThemeCall) : List String :=
  (calls.filterMap shorthand?).map (·.1)

theorem foldl_addTo (d : ThemeDraft) (calls : List ThemeCall) :
    calls.foldl addTo d =
      ⟨d.properties ++ calls.filterMap property?, d.conditions ++ calls.filterMap condition?,
        d.shorthands ++ calls.filterMap shorthand?⟩ := by
  induction calls generalizing d with
  | nil => simp
  | cons call calls ih =>
      rw [List.foldl_cons, ih]
      cases call <;>
        simp [addTo, ThemeDraft.property, ThemeDraft.condition, ThemeDraft.runtimeCondition,
          ThemeDraft.shorthand, property?, condition?, shorthand?, List.filterMap_cons]

/-- A draft keeps the entries of each kind in the order of the calls. -/
theorem draft_eq (calls : List ThemeCall) :
    draft calls =
      ⟨calls.filterMap property?, calls.filterMap condition?, calls.filterMap shorthand?⟩ := by
  rw [draft, foldl_addTo]
  rfl

end ThemeCall

namespace ThemeDraft

/-! ## One entry -/

theorem addProperty_ok_iff {known next : Entries PropertyDefinition}
    {e : String × PropertyDefinition} :
    addProperty known e = .ok next ↔ e.1 ∉ known.keys ∧ next = known ++ [e] := by
  rw [addProperty, ← Entries.has_iff]
  split
  · next h => simp [h]
  · next h => simp [h, eq_comm]

theorem numberPrelude_spec (preludes : List String) (text : String) :
    ∃ more, (numberPrelude preludes text).2 = preludes ++ more ∧
      (numberPrelude preludes text).1 < (preludes ++ more).length := by
  rw [numberPrelude]
  split
  · next id hid =>
      obtain ⟨hlt, -⟩ := List.idxOf?_eq_some_iff.1 hid
      exact ⟨[], (List.append_nil _).symm, by simpa using hlt⟩
  · exact ⟨[text], rfl, by simp⟩

/-- A condition is a flag or has the ordinal of a prelude, which may be new. -/
theorem addCondition_ok {known next : Conditions} {e : String × String}
    (h : addCondition known e = .ok next) :
    ∃ kind more, next = (known.1 ++ [(e.1, kind)], known.2 ++ more) ∧
      ∀ id, kind = .theme id → id < (known.2 ++ more).length := by
  unfold addCondition at h
  split at h
  · cases h
  · split at h
    · cases h
    · dsimp only at h
      split at h
      · cases h
        exact ⟨.runtime, [], by rw [List.append_nil], fun _ hid => by cases hid⟩
      · obtain ⟨more, hmore, hlt⟩ := numberPrelude_spec known.2 (Text.trimmed e.2)
        cases h
        refine ⟨.theme _, more, by rw [hmore], fun id hid => ?_⟩
        cases hid
        exact hlt

theorem longhandIds_ok_iff {properties : Entries PropertyDefinition} {shorthand : String}
    {longhands : List String} {ids : List PropertyId} :
    longhandIds properties shorthand longhands = .ok ids ↔
      List.Forall₂ (fun longhand id => ∃ definition, properties.find? longhand =
        some (id, definition)) longhands ids := by
  rw [longhandIds, mapM_eq_ok_iff]
  refine ⟨fun h => h.imp fun longhand id hid => ?_, fun h => h.imp fun longhand id hid => ?_⟩
  · split at hid
    · next id' definition hfind =>
        cases hid
        exact ⟨definition, hfind⟩
    · cases hid
  · obtain ⟨definition, hfind⟩ := hid
    rw [hfind]

theorem addShorthand_ok_iff {properties : Entries PropertyDefinition}
    {known next : Entries (List PropertyId)} {e : String × List String} :
    addShorthand properties known e = .ok next ↔
      e.1 ∉ known.keys ∧
        ∃ ids, longhandIds properties e.1 e.2 = .ok ids ∧ next = known ++ [(e.1, ids)] := by
  rw [addShorthand, ← Entries.has_iff]
  split
  · next h => simp [h]
  · next h =>
      rw [map_eq_ok_iff]
      simp [h, eq_comm]

/-! ## The entries of a kind -/

section

variable {properties : Entries PropertyDefinition}

theorem properties_pass {known next : Entries PropertyDefinition}
    {es : List (String × PropertyDefinition)} (h : es.foldlM addProperty known = .ok next) :
    next = known ++ es := by
  refine foldlM_ok_induction (P := fun known es next => next = known ++ es)
    (fun known => (List.append_nil known).symm) (fun known e next es last he hes => ?_) h
  rw [hes, (addProperty_ok_iff.1 he).2, List.append_assoc, List.singleton_append]

theorem conditions_pass {known next : Conditions} {es : List (String × String)}
    (h : es.foldlM addCondition known = .ok next) :
    ∃ added more, next = (known.1 ++ added, known.2 ++ more) ∧
      Entries.keys added = es.map (·.1) := by
  refine foldlM_ok_induction
    (P := fun known es next => ∃ added more, next = (known.1 ++ added, known.2 ++ more) ∧
      Entries.keys added = es.map (·.1))
    (fun known => ⟨[], [], by simp, rfl⟩) (fun known e next es last he hes => ?_) h
  obtain ⟨kind, first, rfl, -⟩ := addCondition_ok he
  obtain ⟨added, more, rfl, hkeys⟩ := hes
  refine ⟨(e.1, kind) :: added, first ++ more, by simp, ?_⟩
  rw [List.map_cons, ← hkeys]
  rfl

/-- The conditions known so far refer to preludes known so far. -/
def Numbered (known : Conditions) : Prop :=
  ∀ e ∈ known.1, ∀ id, e.2 = .theme id → id < known.2.length

theorem numbered_pass {known next : Conditions} {es : List (String × String)}
    (h : es.foldlM addCondition known = .ok next) (hknown : Numbered known) :
    Numbered next := by
  refine foldlM_ok_induction (P := fun known _ next => Numbered known → Numbered next)
    (fun known => id) (fun known e next es last he hes hknown => hes ?_) h hknown
  obtain ⟨kind, more, rfl, hkind⟩ := addCondition_ok he
  intro e' he' id hid
  rcases List.mem_append.1 he' with he' | he'
  · show id < (known.2 ++ more).length
    rw [List.length_append]
    exact Nat.lt_add_right _ (hknown e' he' id hid)
  · rw [List.mem_singleton.1 he'] at hid
    exact hkind id hid

theorem shorthands_pass {known next : Entries (List PropertyId)}
    {es : List (String × List String)}
    (h : es.foldlM (addShorthand properties) known = .ok next) :
    ∃ added, next = known ++ added ∧ Entries.keys added = es.map (·.1) := by
  refine foldlM_ok_induction
    (P := fun known es next => ∃ added, next = known ++ added ∧
      Entries.keys added = es.map (·.1))
    (fun known => ⟨[], by simp, rfl⟩) (fun known e next es last he hes => ?_) h
  obtain ⟨-, ids, -, rfl⟩ := addShorthand_ok_iff.1 he
  obtain ⟨added, rfl, hkeys⟩ := hes
  refine ⟨(e.1, ids) :: added, by simp, ?_⟩
  rw [List.map_cons, ← hkeys]
  rfl

/-- The shorthands known so far refer to properties of the theme. -/
def Pointing (properties : Entries PropertyDefinition) (known : Entries (List PropertyId)) :
    Prop :=
  ∀ e ∈ known, ∀ id ∈ e.2, id < properties.length

theorem pointing_pass {known next : Entries (List PropertyId)}
    {es : List (String × List String)}
    (h : es.foldlM (addShorthand properties) known = .ok next)
    (hknown : Pointing properties known) : Pointing properties next := by
  refine foldlM_ok_induction
    (P := fun known _ next => Pointing properties known → Pointing properties next)
    (fun known => id) (fun known e next es last he hes hknown => hes ?_) h hknown
  obtain ⟨-, ids, hids, rfl⟩ := addShorthand_ok_iff.1 he
  intro e' he' id hid
  rcases List.mem_append.1 he' with he' | he'
  · exact hknown e' he' id hid
  · rw [List.mem_singleton.1 he'] at hid
    obtain ⟨longhand, -, definition, hfind⟩ :=
      exists_of_forall₂_right (longhandIds_ok_iff.1 hids) hid
    exact (List.getElem?_eq_some_iff.1 (Entries.getElem?_of_find? hfind)).1

/-- Shorthands mean what they meant when the theme has more properties. -/
theorem shorthands_pass_mono {known next : Entries (List PropertyId)}
    {es : List (String × List String)}
    (h : es.foldlM (addShorthand properties) known = .ok next)
    (more : Entries PropertyDefinition) :
    es.foldlM (addShorthand (properties ++ more)) known = .ok next := by
  refine foldlM_ok_induction
    (P := fun known es next => es.foldlM (addShorthand (properties ++ more)) known = .ok next)
    (fun known => rfl) (fun known e next es last he hes => ?_) h
  obtain ⟨hnew, ids, hids, rfl⟩ := addShorthand_ok_iff.1 he
  have hids' : longhandIds (properties ++ more) e.1 e.2 = .ok ids := by
    refine longhandIds_ok_iff.2 ((longhandIds_ok_iff.1 hids).imp fun longhand id hid => ?_)
    obtain ⟨definition, hfind⟩ := hid
    exact ⟨definition, Entries.find?_append_of_some hfind more⟩
  rw [List.foldlM_cons]
  exact bind_eq_ok_iff.2 ⟨_, addShorthand_ok_iff.2 ⟨hnew, ids, hids', rfl⟩, hes⟩

end

theorem build_ok_iff {d : ThemeDraft} {t : Theme} :
    d.build = .ok t ↔
      d.properties.foldlM addProperty [] = .ok t.properties ∧
      d.conditions.foldlM addCondition ([], []) = .ok (t.conditions, t.preludes) ∧
      d.shorthands.foldlM (addShorthand t.properties) [] = .ok t.shorthands := by
  rw [build, bind_eq_ok_iff]
  constructor
  · rintro ⟨properties, hproperties, h⟩
    obtain ⟨⟨conditions, preludes⟩, hconditions, h⟩ := bind_eq_ok_iff.1 h
    obtain ⟨shorthands, hshorthands, h⟩ := bind_eq_ok_iff.1 h
    cases h
    exact ⟨hproperties, hconditions, hshorthands⟩
  · rintro ⟨hproperties, hconditions, hshorthands⟩
    exact ⟨_, hproperties, bind_eq_ok_iff.2 ⟨_, hconditions,
      bind_eq_ok_iff.2 ⟨_, hshorthands, rfl⟩⟩⟩

end ThemeDraft

namespace Theme

/-! ## Ordinals in range -/

/-- All ordinals in the tables of a theme are positions in its tables. -/
structure InRange (t : Theme) : Prop where
  shorthands : ThemeDraft.Pointing t.properties t.shorthands
  conditions : ThemeDraft.Numbered (t.conditions, t.preludes)

theorem inRange_build {d : ThemeDraft} {t : Theme} (h : d.build = .ok t) : t.InRange := by
  obtain ⟨-, hconditions, hshorthands⟩ := ThemeDraft.build_ok_iff.1 h
  exact ⟨ThemeDraft.pointing_pass hshorthands (by simp [ThemeDraft.Pointing]),
    ThemeDraft.numbered_pass hconditions (by simp [ThemeDraft.Numbered])⟩

section

variable {t : Theme}

theorem lt_of_propertyId? {name : String} {id : PropertyId} (h : t.propertyId? name = some id) :
    id < t.properties.length := by
  obtain ⟨⟨p, definition⟩, hfind, rfl⟩ := Option.map_eq_some_iff.1 h
  exact (List.getElem?_eq_some_iff.1 (Entries.getElem?_of_find? hfind)).1

theorem InRange.expand (ht : t.InRange) {name : String} {ids : List PropertyId}
    (h : t.expand name = .ok ids) : ∀ id ∈ ids, id < t.properties.length := by
  unfold Theme.expand at h
  split at h
  · next longhands hget =>
      cases h
      exact ht.shorthands _ (Entries.mem_of_get? hget)
  · split at h
    · next id hid =>
        cases h
        exact List.forall_mem_singleton.2 (lt_of_propertyId? hid)
    · cases h

theorem InRange.condition? (ht : t.InRange) {name : String} {id : ConditionId}
    (h : t.condition? name = some (.theme id)) : id < t.preludes.length :=
  ht.conditions _ (Entries.mem_of_get? h) id rfl

/-- The classes of a lowered forest stand under conditions of the theme. -/
theorem InRange.classes (ht : t.InRange) {d : StyleDescription} {f : RuleForest}
    (hd : lower t d = .ok f) : ∀ r ∈ f.classes, ∀ id ∈ r.conditions, id < t.preludes.length := by
  intro r hr id hid
  obtain ⟨s, -, name, tree, leaf, htree, hleaf, resolved, -, rfl⟩ :=
    Lowering.mem_classes_lowered hd hr
  obtain ⟨keys, hkeys⟩ := StyleNode.exists_keys htree hleaf
  obtain ⟨key, -, -, hkey⟩ := exists_of_forall₂_right hkeys hid
  exact ht.condition? hkey

end

/-! ## Further entries -/

/-- A theme with further rows in its tables, under the given names. -/
structure Grown (t t' : Theme) (conditionNames shorthandNames : List String) : Prop where
  properties : ∃ added, t'.properties = t.properties ++ added
  preludes : ∃ added, t'.preludes = t.preludes ++ added
  conditions : ∃ added, t'.conditions = t.conditions ++ added ∧
    Entries.keys added = conditionNames
  shorthands : ∃ added, t'.shorthands = t.shorthands ++ added ∧
    Entries.keys added = shorthandNames

/-- Further calls add rows to the tables and change none. -/
theorem grown_build {calls more : List ThemeCall} {t t' : Theme}
    (h : (ThemeCall.draft calls).build = .ok t)
    (h' : (ThemeCall.draft (calls ++ more)).build = .ok t') :
    t.Grown t' (ThemeCall.conditionNames more) (ThemeCall.shorthandNames more) := by
  rw [ThemeCall.draft_eq, ThemeDraft.build_ok_iff] at h h'
  simp only [List.filterMap_append] at h'
  obtain ⟨hproperties, hconditions, hshorthands⟩ := h
  obtain ⟨hproperties', hconditions', hshorthands'⟩ := h'
  have hadded : t'.properties = t.properties ++ more.filterMap ThemeCall.property? := by
    rw [ThemeDraft.properties_pass hproperties', ThemeDraft.properties_pass hproperties,
      List.nil_append, List.nil_append]
  -- each pass goes through the old entries first and ends where it ended before
  rw [List.foldlM_append, hconditions] at hconditions'
  obtain ⟨conditions, preludes, hpair, hkeys⟩ := ThemeDraft.conditions_pass hconditions'
  obtain ⟨hconditions, hpreludes⟩ := Prod.mk.inj hpair
  have hold := ThemeDraft.shorthands_pass_mono hshorthands (more.filterMap ThemeCall.property?)
  rw [← hadded] at hold
  rw [List.foldlM_append, hold] at hshorthands'
  obtain ⟨shorthands, hshorthands, hnames⟩ := ThemeDraft.shorthands_pass hshorthands'
  exact ⟨⟨_, hadded⟩, ⟨preludes, hpreludes⟩, ⟨conditions, hconditions, hkeys⟩,
    ⟨shorthands, hshorthands, hnames⟩⟩

end Theme

/-- Calls for a theme in which a shorthand sets two properties and two conditions
share a prelude. -/
def boxCalls : List ThemeCall :=
  [.property "paddingTop" (.ofValues [("small", "4px"), ("large", "16px")]),
   .condition "dark" ".dark &",
   .property "paddingBottom" (.ofValues [("small", "4px"), ("large", "16px")]),
   .shorthand "paddingY" ["paddingTop", "paddingBottom"],
   .runtimeCondition "selected",
   .condition "night" " .dark & "]

def boxTheme : Theme where
  properties :=
    [("paddingTop", .ofValues [("small", "4px"), ("large", "16px")]),
     ("paddingBottom", .ofValues [("small", "4px"), ("large", "16px")])]
  shorthands := [("paddingY", [0, 1])]
  conditions := [("dark", .theme 0), ("selected", .runtime), ("night", .theme 0)]
  preludes := [".dark &"]

theorem boxCalls_build : (ThemeCall.draft boxCalls).build = .ok boxTheme := rfl

end AtomicStyles
