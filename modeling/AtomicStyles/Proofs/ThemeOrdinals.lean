import Mathlib.Data.List.Duplicate
import Mathlib.Data.Set.Function
import Mathlib.Order.Interval.Set.Defs
import AtomicStyles.Proofs.BuiltTheme
import AtomicStyles.Proofs.ClassList

/-!
# The ordinals that a theme assigns

The tables of a theme can be read off the calls that it is built of. The properties
stand as they were registered. The preludes are the trimmed texts of the conditions,
blank ones left out and each at its first appearance, and what a condition name
refers to is settled by its own text and that list. So an ordinal is a position in a
list in which no step of the building appears, and this is how the pass over the
conditions is described below (`conditions_built`): not by what it adds, but by what
it has when it ends.

A build fails for a cause that stands in the calls, and the error names it. Where
there is no cause, it succeeds.
-/

namespace AtomicStyles

namespace ThemeCall

/-- The names of the properties that calls add. -/
def propertyNames (calls : List ThemeCall) : List String :=
  (calls.filterMap property?).map (·.1)

/-- What can be wrong with calls, by the error that tells it. -/
inductive Fault (calls : List ThemeCall) : StyleError → Prop
  | repeatedProperty {name : String} (h : List.Duplicate name (propertyNames calls)) :
      Fault calls (.duplicateProperty name)
  | reservedCondition (h : "default" ∈ conditionNames calls) :
      Fault calls (.reservedCondition "default")
  | repeatedCondition {name : String} (h : List.Duplicate name (conditionNames calls)) :
      Fault calls (.invalidDefinition name .repeatedCondition)
  | repeatedShorthand {name : String} (h : List.Duplicate name (shorthandNames calls)) :
      Fault calls (.invalidDefinition name .repeatedShorthand)
  | unknownLonghand {name longhand : String} {longhands : List String}
      (h : (name, longhands) ∈ calls.filterMap shorthand?) (hl : longhand ∈ longhands)
      (hunknown : longhand ∉ propertyNames calls) :
      Fault calls (.unknownShorthandTarget name longhand)

end ThemeCall

namespace ThemeDraft

/-! ## What a condition refers to -/

/-- The preludes that conditions register, in order: their texts without blanks at the
ends, where anything is left. -/
def preludesOf (es : List (String × String)) : List String :=
  (es.map fun e => Text.trimmed e.2).filter (· ≠ "")

/-- What a condition with the given text refers to, once all preludes are known. -/
def kindIn (preludes : List String) (text : String) : ConditionKind :=
  if Text.trimmed text = "" then .runtime else .theme (preludes.idxOf (Text.trimmed text))

theorem kindIn_eq_runtime_iff {preludes : List String} {text : String} :
    kindIn preludes text = .runtime ↔ Text.trimmed text = "" := by
  rw [kindIn]
  split
  · next h => exact iff_of_true rfl h
  · next h => exact iff_of_false (fun heq => by cases heq) h

theorem kindIn_eq_theme_iff {preludes : List String} {text : String} {id : ConditionId} :
    kindIn preludes text = .theme id ↔
      Text.trimmed text ≠ "" ∧ preludes.idxOf (Text.trimmed text) = id := by
  rw [kindIn]
  split
  · next h => exact iff_of_false (fun heq => by cases heq) fun hne => hne.1 h
  · next h => rw [ConditionKind.theme.injEq, and_iff_right h]

theorem preludesOf_concat (es : List (String × String)) (e : String × String) :
    preludesOf (es ++ [e]) =
      if Text.trimmed e.2 = "" then preludesOf es else preludesOf es ++ [Text.trimmed e.2] := by
  rw [preludesOf, List.map_append, List.filter_append, ← preludesOf]
  split
  · next h => simp [h]
  · next h => simp [h]

theorem mem_preludesOf {es : List (String × String)} {e : String × String} (he : e ∈ es)
    (h : Text.trimmed e.2 ≠ "") : Text.trimmed e.2 ∈ preludesOf es :=
  List.mem_filter.2 ⟨List.mem_map.2 ⟨e, he, rfl⟩, decide_eq_true h⟩

theorem numberPrelude_eq (preludes : List String) (text : String) :
    numberPrelude preludes text =
      if text ∈ preludes then (preludes.idxOf text, preludes)
      else (preludes.length, preludes ++ [text]) := by
  rw [numberPrelude]
  cases hid : preludes.idxOf? text with
  | none => rw [if_neg (List.idxOf?_eq_none_iff.1 hid)]
  | some id =>
      have hmem : text ∈ preludes := by
        by_contra hno
        rw [List.idxOf?_eq_none_iff.2 hno] at hid
        cases hid
      rw [if_pos hmem, List.idxOf_eq_getD_idxOf?, hid]
      rfl

/-- One more condition finds its prelude among those known or adds it to them. -/
theorem numberPrelude_eraseDups (preludes : List String) (text : String) :
    numberPrelude preludes.eraseDups text =
      ((preludes ++ [text]).eraseDups.idxOf text, (preludes ++ [text]).eraseDups) := by
  rw [numberPrelude_eq, eraseDups_append_singleton]
  simp only [List.mem_eraseDups]
  split
  · rfl
  · next h =>
      have hnew : text ∉ preludes.eraseDups := fun hmem => h (List.mem_eraseDups.1 hmem)
      rw [List.idxOf_append_of_notMem hnew]
      simp

/-- Conditions refer to what they referred to when others follow them. -/
theorem map_kindIn_concat (es : List (String × String)) (text : String) :
    (es.map fun e => (e.1, kindIn (preludesOf es ++ [text]).eraseDups e.2)) =
      es.map fun e => (e.1, kindIn (preludesOf es).eraseDups e.2) := by
  refine List.map_congr_left fun e he => ?_
  rw [kindIn, kindIn, eraseDups_append_singleton]
  split
  · rfl
  · next hne =>
      split
      · rfl
      · rw [List.idxOf_append_of_mem (List.mem_eraseDups.2 (mem_preludesOf he hne))]

/-! ## The tables when a pass ends -/

theorem nodup_concat {names : List String} {name : String} (h : names.Nodup)
    (hnew : name ∉ names) : (names ++ [name]).Nodup :=
  h.append (List.nodup_singleton name) (List.disjoint_singleton.2 hnew)

theorem properties_built {es next : Entries PropertyDefinition}
    (h : es.foldlM addProperty [] = .ok next) : next = es ∧ es.Distinct := by
  refine foldlM_ok_invariant (P := fun done next => next = done ∧ Entries.Distinct done) h
    ⟨rfl, Entries.distinct_nil⟩ fun done e known next hdone he => ?_
  obtain ⟨rfl, hdistinct⟩ := hdone
  obtain ⟨hnew, rfl⟩ := addProperty_ok_iff.1 he
  refine ⟨rfl, ?_⟩
  rw [Entries.Distinct, Entries.keys, List.map_append]
  exact nodup_concat hdistinct hnew

/-- What a pass over conditions ends with: a list of preludes and, for every name, what
it refers to. -/
structure ConditionTables (es : List (String × String)) (tables : Conditions) : Prop where
  distinct : (es.map (·.1)).Nodup
  unreserved : "default" ∉ es.map (·.1)
  preludes : tables.2 = (preludesOf es).eraseDups
  conditions : tables.1 = es.map fun e => (e.1, kindIn tables.2 e.2)

theorem ConditionTables.keys {es : List (String × String)} {tables : Conditions}
    (h : ConditionTables es tables) : tables.1.keys = es.map (·.1) := by
  rw [h.conditions, Entries.keys, List.map_map]
  rfl

/-- One more condition. -/
theorem ConditionTables.concat {es : List (String × String)} {known next : Conditions}
    {e : String × String} (h : ConditionTables es known) (he : addCondition known e = .ok next) :
    ConditionTables (es ++ [e]) next := by
  unfold addCondition at he
  split at he
  · cases he
  · next hname =>
      split at he
      · cases he
      · next hhas =>
          have hnew : e.1 ∉ es.map (·.1) := by
            rw [← h.keys]
            exact fun hmem => hhas (Entries.has_iff.2 hmem)
          have hdistinct := nodup_concat h.distinct hnew
          have hunreserved : "default" ∉ es.map (·.1) ++ [e.1] := by
            rw [List.mem_append, List.mem_singleton, not_or]
            exact ⟨h.unreserved, Ne.symm hname⟩
          dsimp only at he
          split at he
          · next hblank =>
              have hblank := String.isEmpty_iff.1 hblank
              cases he
              refine ⟨by rwa [List.map_append], by rwa [List.map_append], ?_, ?_⟩
              · rw [preludesOf_concat, if_pos hblank]
                exact h.preludes
              · rw [List.map_append, ← h.conditions, List.map_singleton,
                  kindIn_eq_runtime_iff.2 hblank]
          · next hblank =>
              have hblank : Text.trimmed e.2 ≠ "" := fun heq => hblank (String.isEmpty_iff.2 heq)
              rw [h.preludes, numberPrelude_eraseDups] at he
              cases he
              refine ⟨by rwa [List.map_append], by rwa [List.map_append], ?_, ?_⟩
              · rw [preludesOf_concat, if_neg hblank]
              · dsimp only
                rw [List.map_append, map_kindIn_concat, ← h.preludes, ← h.conditions,
                  List.map_singleton, kindIn, if_neg hblank]

theorem conditions_built {es : List (String × String)} {next : Conditions}
    (h : es.foldlM addCondition ([], []) = .ok next) : ConditionTables es next :=
  foldlM_ok_invariant h ⟨List.nodup_nil, List.not_mem_nil, rfl, rfl⟩
    fun _ _ _ _ hdone he => hdone.concat he

theorem shorthands_built {properties : Entries PropertyDefinition}
    {next : Entries (List PropertyId)} {es : List (String × List String)}
    (h : es.foldlM (addShorthand properties) [] = .ok next) :
    next.keys = es.map (·.1) ∧ (es.map (·.1)).Nodup ∧
      ∀ e ∈ es, ∀ longhand ∈ e.2, longhand ∈ properties.keys := by
  refine foldlM_ok_invariant (P := fun done next => Entries.keys next = done.map (·.1) ∧
      (done.map (·.1)).Nodup ∧ ∀ e ∈ done, ∀ longhand ∈ e.2, longhand ∈ properties.keys) h
    ⟨rfl, List.nodup_nil, by simp⟩ fun done e known next hdone he => ?_
  obtain ⟨hkeys, hdistinct, hknown⟩ := hdone
  obtain ⟨hnew, ids, hids, rfl⟩ := addShorthand_ok_iff.1 he
  refine ⟨?_, ?_, ?_⟩
  · rw [Entries.keys, List.map_append, ← Entries.keys, hkeys, List.map_append]
    rfl
  · rw [List.map_append]
    exact nodup_concat hdistinct (hkeys ▸ hnew)
  · intro e' he' longhand hlonghand
    rcases List.mem_append.1 he' with he' | he'
    · exact hknown e' he' longhand hlonghand
    · rw [List.mem_singleton.1 he'] at hlonghand
      obtain ⟨id, -, definition, hfind⟩ :=
        exists_of_forall₂_left (longhandIds_ok_iff.1 hids) hlonghand
      have hget := Entries.getElem?_of_find? hfind
      exact List.mem_map.2 ⟨_, List.mem_of_getElem? hget, rfl⟩

/-! ## Why a step fails -/

theorem addProperty_error {known : Entries PropertyDefinition} {e : String × PropertyDefinition}
    {error : StyleError} (h : addProperty known e = .error error) :
    e.1 ∈ known.keys ∧ error = .duplicateProperty e.1 := by
  rw [addProperty] at h
  split at h
  · next hhas =>
      cases h
      exact ⟨Entries.has_iff.1 hhas, rfl⟩
  · cases h

theorem addCondition_error {known : Conditions} {e : String × String} {error : StyleError}
    (h : addCondition known e = .error error) :
    (e.1 = "default" ∧ error = .reservedCondition "default") ∨
      (e.1 ∈ known.1.keys ∧ error = .invalidDefinition e.1 .repeatedCondition) := by
  unfold addCondition at h
  split at h
  · next hname =>
      cases h
      exact .inl ⟨hname, by rw [hname]⟩
  · split at h
    · next hhas =>
        cases h
        exact .inr ⟨Entries.has_iff.1 hhas, rfl⟩
    · dsimp only at h
      split at h
      · cases h
      · cases h

theorem addShorthand_error {properties : Entries PropertyDefinition}
    {known : Entries (List PropertyId)} {e : String × List String} {error : StyleError}
    (h : addShorthand properties known e = .error error) :
    (e.1 ∈ known.keys ∧ error = .invalidDefinition e.1 .repeatedShorthand) ∨
      ∃ longhand ∈ e.2, longhand ∉ properties.keys ∧
        error = .unknownShorthandTarget e.1 longhand := by
  rw [addShorthand] at h
  split at h
  · next hhas =>
      cases h
      exact .inl ⟨Entries.has_iff.1 hhas, rfl⟩
  · rw [map_eq_error_iff, longhandIds] at h
    obtain ⟨longhand, hmem, hlonghand⟩ := exists_of_mapM_error h
    split at hlonghand
    · cases hlonghand
    · next hfind =>
        cases hlonghand
        exact .inr ⟨longhand, hmem, Entries.find?_eq_none_iff.1 hfind, rfl⟩

theorem build_error {d : ThemeDraft} {error : StyleError} (h : d.build = .error error) :
    d.properties.foldlM addProperty [] = .error error ∨
      d.conditions.foldlM addCondition ([], []) = .error error ∨
      ∃ properties, d.properties.foldlM addProperty [] = .ok properties ∧
        d.shorthands.foldlM (addShorthand properties) [] = .error error := by
  rw [build, bind_eq_error_iff] at h
  obtain h | ⟨properties, hproperties, h⟩ := h
  · exact .inl h
  · obtain h | ⟨⟨conditions, preludes⟩, -, h⟩ := bind_eq_error_iff.1 h
    · exact .inr (.inl h)
    · obtain h | ⟨shorthands, -, h⟩ := bind_eq_error_iff.1 h
      · exact .inr (.inr ⟨properties, hproperties, h⟩)
      · cases h

end ThemeDraft

namespace ThemeCall

open ThemeDraft

/-- A name that is met again is there twice. -/
theorem duplicate_of_mem {name : String} {done rest : List String} (h : name ∈ done) :
    List.Duplicate name (done ++ name :: rest) := by
  rw [List.duplicate_iff_sublist]
  exact (List.singleton_sublist.2 h).append (List.singleton_sublist.2 List.mem_cons_self)

/-- Each error of a build tells a fault of the calls. -/
theorem fault_of_build {calls : List ThemeCall} {error : StyleError}
    (h : (draft calls).build = .error error) : Fault calls error := by
  rw [draft_eq] at h
  have h := build_error h
  dsimp only at h
  rcases h with h | h | ⟨properties, hproperties, h⟩
  · obtain ⟨done, e, rest, known, heq, hdone, he⟩ := exists_of_foldlM_error h
    obtain ⟨rfl, -⟩ := properties_built hdone
    obtain ⟨hmem, rfl⟩ := addProperty_error he
    refine .repeatedProperty ?_
    rw [propertyNames, heq, List.map_append]
    exact duplicate_of_mem hmem
  · obtain ⟨done, e, rest, known, heq, hdone, he⟩ := exists_of_foldlM_error h
    obtain ⟨hname, rfl⟩ | ⟨hmem, rfl⟩ := addCondition_error he
    · refine .reservedCondition ?_
      rw [conditionNames, heq, List.map_append, List.map_cons, hname]
      exact List.mem_append_right _ List.mem_cons_self
    · refine .repeatedCondition ?_
      rw [conditionNames, heq, List.map_append]
      exact duplicate_of_mem ((conditions_built hdone).keys ▸ hmem)
  · obtain ⟨done, e, rest, known, heq, hdone, he⟩ := exists_of_foldlM_error h
    obtain ⟨hmem, rfl⟩ | ⟨longhand, hlonghand, hunknown, rfl⟩ := addShorthand_error he
    · refine .repeatedShorthand ?_
      rw [shorthandNames, heq, List.map_append]
      exact duplicate_of_mem ((shorthands_built hdone).1 ▸ hmem)
    · have hmem : (e.1, e.2) ∈ calls.filterMap shorthand? := by
        rw [heq]
        exact List.mem_append_right _ List.mem_cons_self
      rw [(properties_built hproperties).1] at hunknown
      exact .unknownLonghand hmem hlonghand hunknown

/-- Calls that build a theme have no fault. -/
theorem not_fault_of_build {calls : List ThemeCall} {t : Theme}
    (h : (draft calls).build = .ok t) (error : StyleError) : ¬ Fault calls error := by
  rw [draft_eq, build_ok_iff] at h
  dsimp only at h
  obtain ⟨hproperties, hconditions, hshorthands⟩ := h
  obtain ⟨htable, hdistinct⟩ := properties_built hproperties
  have htables := conditions_built hconditions
  obtain ⟨-, hnames, hknown⟩ := shorthands_built hshorthands
  intro hfault
  cases hfault with
  | repeatedProperty h => exact List.nodup_iff_forall_not_duplicate.1 hdistinct _ h
  | reservedCondition h => exact htables.unreserved h
  | repeatedCondition h => exact List.nodup_iff_forall_not_duplicate.1 htables.distinct _ h
  | repeatedShorthand h => exact List.nodup_iff_forall_not_duplicate.1 hnames _ h
  | unknownLonghand h hl hunknown =>
      refine hunknown ?_
      rw [propertyNames, ← htable]
      exact hknown _ h _ hl

end ThemeCall

namespace Theme

/-- The name of a property. -/
def propertyName? (t : Theme) (id : PropertyId) : Option String :=
  (t.property? id).map (·.1)

section

variable {calls : List ThemeCall} {t : Theme}

/-- The tables of a theme, read off the calls. -/
theorem tables_of_build (h : (ThemeCall.draft calls).build = .ok t) :
    t.properties = calls.filterMap ThemeCall.property? ∧ t.properties.Distinct ∧
      ThemeDraft.ConditionTables (calls.filterMap ThemeCall.condition?)
        (t.conditions, t.preludes) := by
  rw [ThemeCall.draft_eq, ThemeDraft.build_ok_iff] at h
  obtain ⟨hproperties, hconditions, -⟩ := h
  obtain ⟨htable, hdistinct⟩ := ThemeDraft.properties_built hproperties
  exact ⟨htable, htable ▸ hdistinct, ThemeDraft.conditions_built hconditions⟩

/-- An ordinal leads to a name exactly when the name leads to it. -/
theorem propertyId?_eq_some_iff (hd : t.properties.Distinct) {name : String} {id : PropertyId} :
    t.propertyId? name = some id ↔ t.propertyName? id = some name := by
  constructor
  · intro h
    obtain ⟨⟨p, definition⟩, hfind, rfl⟩ := Option.map_eq_some_iff.1 h
    rw [propertyName?, property?, Entries.getElem?_of_find? hfind]
    rfl
  · intro h
    obtain ⟨⟨k, definition⟩, hget, rfl⟩ := Option.map_eq_some_iff.1 h
    rw [propertyId?, Entries.find?_of_getElem? hd hget]
    rfl

theorem propertyName?_eq (t : Theme) (id : PropertyId) :
    t.propertyName? id = t.properties.keys[id]? := by
  rw [propertyName?, property?, Entries.keys, List.getElem?_map]

theorem propertyId?_bijOn (hd : t.properties.Distinct) :
    Set.BijOn t.propertyId? {name | name ∈ t.properties.keys}
      (some '' Set.Iio t.properties.length) := by
  have hid : ∀ name ∈ t.properties.keys, ∃ id < t.properties.length,
      t.propertyId? name = some id := by
    intro name hname
    obtain ⟨id, hget⟩ := List.mem_iff_getElem?.1 hname
    have hname : t.propertyId? name = some id := by
      rw [propertyId?_eq_some_iff hd, propertyName?_eq, hget]
    exact ⟨id, lt_of_propertyId? hname, hname⟩
  refine ⟨fun name hname => ?_, fun name hname name' hname' heq => ?_, ?_⟩
  · obtain ⟨id, hlt, hname⟩ := hid name hname
    exact ⟨id, hlt, hname.symm⟩
  · obtain ⟨id, -, hname⟩ := hid name hname
    have hname' : t.propertyId? name' = some id := heq ▸ hname
    rw [propertyId?_eq_some_iff hd] at hname hname'
    exact Option.some.inj (hname.symm.trans hname')
  · rintro - ⟨id, hlt, rfl⟩
    have hget : t.properties.keys[id]? = some (t.properties[id]).1 := by
      rw [Entries.keys, List.getElem?_map, List.getElem?_eq_getElem hlt]
      rfl
    refine ⟨_, List.mem_of_getElem? hget, ?_⟩
    rw [propertyId?_eq_some_iff hd, propertyName?_eq, hget]

end

section

variable {es : List (String × String)} {t : Theme}

theorem idxOf_eq_iff_getElem? {preludes : List String} (hd : preludes.Nodup) {text : String}
    (h : text ∈ preludes) {id : ConditionId} :
    preludes.idxOf text = id ↔ preludes[id]? = some text := by
  constructor
  · rintro rfl
    have hlt := List.idxOf_lt_length_iff.2 h
    rw [List.getElem?_eq_getElem hlt, List.getElem_idxOf hlt]
  · intro hget
    obtain ⟨hlt, rfl⟩ := List.getElem?_eq_some_iff.1 hget
    exact hd.idxOf_getElem id hlt

/-- What a registered name refers to is settled by its text and the preludes. -/
theorem condition?_of_mem (h : ThemeDraft.ConditionTables es (t.conditions, t.preludes))
    {name text : String} (hmem : (name, text) ∈ es) :
    t.condition? name = some (ThemeDraft.kindIn t.preludes text) := by
  have hdistinct : t.conditions.Distinct := by
    rw [Entries.Distinct, show t.conditions.keys = es.map (·.1) from h.keys]
    exact h.distinct
  refine Entries.get?_of_mem hdistinct ?_
  rw [show t.conditions = es.map fun e => (e.1, ThemeDraft.kindIn t.preludes e.2) from
    h.conditions]
  exact List.mem_map.2 ⟨_, hmem, rfl⟩

theorem condition?_theme_iff (h : ThemeDraft.ConditionTables es (t.conditions, t.preludes))
    {name text : String} (hmem : (name, text) ∈ es) {id : ConditionId} :
    t.condition? name = some (.theme id) ↔
      Text.trimmed text ≠ "" ∧ t.prelude? id = some (Text.trimmed text) := by
  have hpreludes : t.preludes = (ThemeDraft.preludesOf es).eraseDups := h.preludes
  rw [condition?_of_mem h hmem, Option.some.injEq, ThemeDraft.kindIn_eq_theme_iff]
  refine and_congr_right fun hne => ?_
  have hknown : Text.trimmed text ∈ t.preludes := by
    rw [hpreludes, List.mem_eraseDups]
    exact ThemeDraft.mem_preludesOf (e := (name, text)) hmem hne
  have hnodup : t.preludes.Nodup := by
    rw [hpreludes]
    exact nodup_eraseDups _
  rw [idxOf_eq_iff_getElem? hnodup hknown, prelude?]

/-- Each ordinal of a prelude is that of some condition. -/
theorem exists_condition? (h : ThemeDraft.ConditionTables es (t.conditions, t.preludes))
    {id : ConditionId} (hid : id < t.preludes.length) :
    ∃ name, t.condition? name = some (.theme id) := by
  have hpreludes : t.preludes = (ThemeDraft.preludesOf es).eraseDups := h.preludes
  have hget : t.prelude? id = some t.preludes[id] := List.getElem?_eq_getElem hid
  have hmem : t.preludes[id] ∈ (ThemeDraft.preludesOf es).eraseDups :=
    hpreludes ▸ List.getElem_mem hid
  obtain ⟨htext, hne⟩ := List.mem_filter.1 (List.mem_eraseDups.1 hmem)
  obtain ⟨⟨name, text⟩, he, heq⟩ := List.mem_map.1 htext
  refine ⟨name, (condition?_theme_iff h he).2 ⟨?_, hget.trans (congrArg some heq.symm)⟩⟩
  rw [show Text.trimmed text = t.preludes[id] from heq]
  exact of_decide_eq_true hne

end

/-- The ordinals that a theme has by the calls that it was built of. -/
structure Numbering (calls : List ThemeCall) (t : Theme) : Prop where
  property_bijective : Set.BijOn t.propertyId? {name | name ∈ ThemeCall.propertyNames calls}
    (some '' Set.Iio t.properties.length)
  property_order : ∀ id, t.propertyName? id = (ThemeCall.propertyNames calls)[id]?
  property_inverse : ∀ name id, t.propertyId? name = some id ↔ t.propertyName? id = some name
  condition_registered :
    ∀ name, t.condition? name = none ↔ name ∉ ThemeCall.conditionNames calls
  runtime : ∀ name text, (name, text) ∈ calls.filterMap ThemeCall.condition? →
    (t.condition? name = some .runtime ↔ Text.trimmed text = "")
  theme : ∀ name text, (name, text) ∈ calls.filterMap ThemeCall.condition? → ∀ id,
    t.condition? name = some (.theme id) ↔
      Text.trimmed text ≠ "" ∧ t.prelude? id = some (Text.trimmed text)
  same_ordinal : ∀ name text name' text', (name, text) ∈ calls.filterMap ThemeCall.condition? →
    (name', text') ∈ calls.filterMap ThemeCall.condition? →
    ((∃ id, t.condition? name = some (.theme id) ∧ t.condition? name' = some (.theme id)) ↔
      Text.trimmed text = Text.trimmed text' ∧ Text.trimmed text ≠ "")
  /-- Preludes are numbered in the order of their first appearance. -/
  prelude_order :
    t.preludes = (ThemeDraft.preludesOf (calls.filterMap ThemeCall.condition?)).eraseDups
  prelude_used : ∀ id < t.preludes.length, ∃ name, t.condition? name = some (.theme id)

theorem numbering_of_build {calls : List ThemeCall} {t : Theme}
    (h : (ThemeCall.draft calls).build = .ok t) : t.Numbering calls := by
  obtain ⟨hproperties, hdistinct, htables⟩ := tables_of_build h
  have hnames : t.properties.keys = ThemeCall.propertyNames calls := by
    rw [hproperties]
    rfl
  refine
    { property_bijective := hnames ▸ propertyId?_bijOn hdistinct
      property_order := fun id => hnames ▸ propertyName?_eq t id
      property_inverse := fun name id => propertyId?_eq_some_iff hdistinct
      condition_registered := fun name => ?_
      runtime := fun name text hmem => ?_
      theme := fun name text hmem id => condition?_theme_iff htables hmem
      same_ordinal := fun name text name' text' hmem hmem' => ?_
      prelude_order := htables.preludes
      prelude_used := fun id hid => exists_condition? htables hid }
  · rw [condition?, Entries.get?_eq_none_iff, show t.conditions.keys = _ from htables.keys]
    rfl
  · rw [condition?_of_mem htables hmem, Option.some.injEq, ThemeDraft.kindIn_eq_runtime_iff]
  · simp only [condition?_theme_iff htables hmem, condition?_theme_iff htables hmem']
    constructor
    · rintro ⟨id, ⟨hne, hid⟩, -, hid'⟩
      exact ⟨Option.some.inj (hid.symm.trans hid'), hne⟩
    · rintro ⟨heq, hne⟩
      have hkind := condition?_of_mem htables hmem
      rw [ThemeDraft.kindIn, if_neg hne, condition?_theme_iff htables hmem] at hkind
      exact ⟨_, hkind, heq ▸ hkind⟩

end Theme

/-- The ordinals of a theme are those of the calls that it was built of. Properties are
numbered as they were registered, and so are preludes, each at its first appearance,
where names with one prelude share its ordinal and a name without a prelude has none.
Calls fail to build a theme exactly when there is a fault in them, and the error tells
a fault that is there. -/
theorem ordinals_of_build (calls : List ThemeCall) :
    (∀ t, (ThemeCall.draft calls).build = .ok t → t.Numbering calls) ∧
    ((∃ error, (ThemeCall.draft calls).build = .error error) ↔
      ∃ error, ThemeCall.Fault calls error) ∧
    ∀ error, (ThemeCall.draft calls).build = .error error → ThemeCall.Fault calls error := by
  refine ⟨fun t => Theme.numbering_of_build, ⟨?_, ?_⟩, fun error => ThemeCall.fault_of_build⟩
  · rintro ⟨error, h⟩
    exact ⟨error, ThemeCall.fault_of_build h⟩
  · rintro ⟨error, hfault⟩
    cases hbuild : (ThemeCall.draft calls).build with
    | error e => exact ⟨e, rfl⟩
    | ok t => exact absurd hfault (ThemeCall.not_fault_of_build hbuild error)

/-- Two conditions share a padded prelude. With a property that is registered again, the
calls build nothing. -/
theorem ordinals_of_build_box :
    (ThemeCall.draft boxCalls).build = .ok boxTheme ∧ boxTheme.Numbering boxCalls ∧
    ("night", " .dark & ") ∈ boxCalls.filterMap ThemeCall.condition? ∧
    boxTheme.condition? "night" = some (.theme 0) ∧
    boxTheme.condition? "dark" = some (.theme 0) ∧
    ∃ error, (ThemeCall.draft (boxCalls ++ [.property "paddingTop" (.ofNames [])])).build =
      .error error := by
  have hnumbering := (ordinals_of_build boxCalls).1 boxTheme boxCalls_build
  have hdark : ("dark", ".dark &") ∈ boxCalls.filterMap ThemeCall.condition? := by decide
  have hnight : ("night", " .dark & ") ∈ boxCalls.filterMap ThemeCall.condition? := by decide
  have htext : Text.trimmed " .dark & " = ".dark &" := by decide
  refine ⟨boxCalls_build, hnumbering, hnight, ?_, ?_, ?_⟩
  · rw [hnumbering.theme _ _ hnight, htext]
    exact ⟨by decide, rfl⟩
  · rw [hnumbering.theme _ _ hdark]
    exact ⟨by decide, rfl⟩
  · have htwice : List.Duplicate "paddingTop" (ThemeCall.propertyNames
        (boxCalls ++ [.property "paddingTop" (.ofNames [])])) := by
      rw [List.duplicate_iff_sublist]
      decide
    exact (ordinals_of_build _).2.1.2 ⟨_, .repeatedProperty htwice⟩

end AtomicStyles
