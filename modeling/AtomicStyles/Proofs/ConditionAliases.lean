import AtomicStyles.Compiler
import AtomicStyles.Proofs.AcceptedValues
import AtomicStyles.Proofs.ThemeOrdinals

/-!
# Two names of one prelude

Condition names that share a prelude share its ordinal, so one can be written for the
other. In the keys of an object a name is read once, when the key is classified, and
from there on only the ordinal is left: an object with one name in the place of the
other offers the same ways, to values in which the name is replaced in turn
(`ways_renamed`). That the normal forms agree follows from it by induction on the
value, whatever scope it is handed. Neither the check nor the errors ever speak of
the name of a condition.

Only the keys of conditional objects are meant. A variant may have a tag that is
spelled like a condition, and replacing a tag changes what is selected.

An object that has both names would have one of them twice after the replacement,
so its two values would fall together. Where no object has both, all keys stay apart.
-/

namespace AtomicStyles

open StyleNode (isVariantKey isVariantKey_iff Contains)

namespace StyleValue

/-! ## One name in the place of another -/

mutual

/-- The value with the name `new` for `old`, wherever that is a key of a conditional
object. -/
def renamed (theme : Theme) (old new : String) : StyleValue → StyleValue
  | .literal l => .literal l
  | .conditional entries => .conditional (renamedEntries theme old new entries)

/-- The same for what a variant holds, where the tags stay. -/
def renamedVariant (theme : Theme) (old new : String) : StyleValue → StyleValue
  | .literal l => .literal l
  | .conditional tags => .conditional (renamedTags theme old new tags)

/-- The same for the entries of an object. -/
def renamedEntries (theme : Theme) (old new : String) :
    List (String × StyleValue) → List (String × StyleValue)
  | [] => []
  | (key, value) :: es =>
      (if key = old then new else key,
        if isVariantKey theme key then renamedVariant theme old new value
        else renamed theme old new value)
        :: renamedEntries theme old new es

/-- The same for what the tags of a variant lead to. -/
def renamedTags (theme : Theme) (old new : String) :
    List (String × StyleValue) → List (String × StyleValue)
  | [] => []
  | (tag, value) :: ts => (tag, renamed theme old new value) :: renamedTags theme old new ts

end

section

variable {theme : Theme} {old new : String}

theorem renamedEntries_eq_map (es : List (String × StyleValue)) :
    renamedEntries theme old new es = es.map fun e =>
      (if e.1 = old then new else e.1,
        if isVariantKey theme e.1 then renamedVariant theme old new e.2
        else renamed theme old new e.2) := by
  induction es with
  | nil => rfl
  | cons e es ih =>
      rw [renamedEntries, ih]
      rfl

theorem renamedTags_eq_map (ts : List (String × StyleValue)) :
    renamedTags theme old new ts = ts.map fun t => (t.1, renamed theme old new t.2) := by
  induction ts with
  | nil => rfl
  | cons t ts ih =>
      rw [renamedTags, ih]
      rfl

theorem keys_renamedEntries (es : List (String × StyleValue)) :
    Entries.keys (renamedEntries theme old new es) =
      (Entries.keys es).map fun key => if key = old then new else key := by
  rw [renamedEntries_eq_map, Entries.keys, Entries.keys, List.map_map, List.map_map]
  rfl

theorem keys_renamedTags (ts : List (String × StyleValue)) :
    Entries.keys (renamedTags theme old new ts) = Entries.keys ts := by
  rw [renamedTags_eq_map, Entries.keys, Entries.keys, List.map_map]
  rfl

/-! ## Keys stay apart -/

mutual

/-- A value whose keys are distinct is left as it is. -/
theorem distinct_eq_self (value : StyleValue) (h : value.Distinct) : value.distinct = value := by
  match value with
  | .literal l => rfl
  | .conditional es => rw [distinct, eachDistinct_eq_self es h.2, Entries.ofList_of_distinct h.1]

theorem eachDistinct_eq_self (es : List (String × StyleValue)) (h : EachDistinct es) :
    eachDistinct es = es := by
  match es with
  | [] => rfl
  | (key, value) :: es =>
      obtain ⟨hvalue, hes⟩ := h
      rw [eachDistinct, distinct_eq_self value hvalue, eachDistinct_eq_self es hes]

end

/-- No object of the value has both names. -/
def NeverBoth (theme : Theme) (old new : String) (value : StyleValue) : Prop :=
  ∀ o, Contains theme value o → ¬ (old ∈ Entries.keys o ∧ new ∈ Entries.keys o)

theorem NeverBoth.literal (l : Literal) : NeverBoth theme old new (.literal l) := by
  intro o ho
  cases ho

theorem NeverBoth.conditional {es : StyleObject}
    (hes : ¬ (old ∈ Entries.keys es ∧ new ∈ Entries.keys es))
    (hways : ∀ value ∈ (Meaning.ways theme es).map (·.2), NeverBoth theme old new value) :
    NeverBoth theme old new (.conditional es) := by
  intro o ho
  obtain rfl | ⟨w, hw, ho⟩ := StyleNode.contains_conditional_iff.1 ho
  · exact hes
  · exact hways w.2 (List.mem_map.2 ⟨w, hw, rfl⟩) o ho

theorem distinct_renamedEntries {es : List (String × StyleValue)} (h : Entries.Distinct es)
    (hone : ¬ (old ∈ Entries.keys es ∧ new ∈ Entries.keys es)) :
    Entries.Distinct (renamedEntries theme old new es) := by
  rw [Entries.Distinct, keys_renamedEntries]
  refine List.Nodup.map_on (fun key hkey key' hkey' heq => ?_) h
  by_cases hold : key = old <;> by_cases hold' : key' = old
  · rw [hold, hold']
  · rw [if_pos hold, if_neg hold'] at heq
    exact absurd ⟨hold ▸ hkey, heq ▸ hkey'⟩ hone
  · rw [if_neg hold, if_pos hold'] at heq
    exact absurd ⟨hold' ▸ hkey', heq ▸ hkey⟩ hone
  · rwa [if_neg hold, if_neg hold'] at heq

mutual

theorem distinct_renamed (value : StyleValue) (h : value.Distinct)
    (hone : NeverBoth theme old new value) : (value.renamed theme old new).Distinct := by
  match value with
  | .literal l => trivial
  | .conditional es =>
      refine ⟨distinct_renamedEntries h.1 (hone es .self),
        eachDistinct_renamedEntries es h.2 (fun e he hkey o ho => hone o (.entry he hkey ho))
          fun e he hkey tags htags t ht o ho => hone o ?_⟩
      obtain ⟨key, value⟩ := e
      obtain rfl : value = .conditional tags := htags
      exact .tag he hkey ht ho

theorem eachDistinct_renamedEntries (es : List (String × StyleValue)) (h : EachDistinct es)
    (hsingle : ∀ e ∈ es, ¬ isVariantKey theme e.1 → NeverBoth theme old new e.2)
    (hvariant : ∀ e ∈ es, isVariantKey theme e.1 → ∀ tags, e.2 = .conditional tags →
      ∀ t ∈ tags, NeverBoth theme old new t.2) :
    EachDistinct (renamedEntries theme old new es) := by
  match es with
  | [] => trivial
  | (key, value) :: es =>
      obtain ⟨hvalue, hes⟩ := h
      obtain ⟨hsingle, hsingles⟩ := List.forall_mem_cons.1 hsingle
      obtain ⟨hvariant, hvariants⟩ := List.forall_mem_cons.1 hvariant
      refine ⟨?_, eachDistinct_renamedEntries es hes hsingles hvariants⟩
      by_cases hkey : isVariantKey theme key
      · rw [if_pos hkey]
        match value with
        | .literal l => trivial
        | .conditional tags =>
            refine ⟨?_, eachDistinct_renamedTags tags hvalue.2 (hvariant hkey tags rfl)⟩
            rw [Entries.Distinct, keys_renamedTags]
            exact hvalue.1
      · rw [if_neg hkey]
        exact distinct_renamed value hvalue (hsingle hkey)

theorem eachDistinct_renamedTags (ts : List (String × StyleValue)) (h : EachDistinct ts)
    (hone : ∀ t ∈ ts, NeverBoth theme old new t.2) :
    EachDistinct (renamedTags theme old new ts) := by
  match ts with
  | [] => trivial
  | (tag, value) :: ts =>
      obtain ⟨hvalue, hts⟩ := h
      obtain ⟨hfirst, hrest⟩ := List.forall_mem_cons.1 hone
      exact ⟨distinct_renamed value hvalue hfirst, eachDistinct_renamedTags ts hts hrest⟩

end

end

end StyleValue

/-! ## The same ways -/

theorem Meaning.entryWays_names {theme : Theme} {key : String} {id : ConditionId}
    (h : theme.Names key id) (value : StyleValue) :
    entryWays theme key value = [(.theme id, value)] := by
  rw [entryWays.eq_def, if_neg h.1, h.2]

namespace StyleNode

open Meaning (Way ways entryWays)
open StyleValue (renamed renamedVariant renamedEntries renamedTags)

variable {theme : Theme} {old new property : String} {id : ConditionId}

theorem not_isVariantKey_names {key : String} (h : theme.Names key id) :
    ¬ isVariantKey theme key := by
  rw [isVariantKey_iff, h.2]
  simp

/-- A key that is replaced is no variant, before or after. -/
theorem isVariantKey_renamed (hold : theme.Names old id) (hnew : theme.Names new id)
    (key : String) :
    isVariantKey theme (if key = old then new else key) = isVariantKey theme key := by
  split
  · next hkey =>
      rw [hkey, Bool.eq_false_iff.2 (not_isVariantKey_names hold),
        Bool.eq_false_iff.2 (not_isVariantKey_names hnew)]
  · rfl

/-- What an entry offers with its key replaced is what it offered, to renamed values. -/
theorem entryWays_renamed (hold : theme.Names old id) (hnew : theme.Names new id) (key : String)
    (value : StyleValue) :
    (entryWays theme (if key = old then new else key)
      (if isVariantKey theme key then renamedVariant theme old new value
        else renamed theme old new value)) =
      (entryWays theme key value).map fun w => (w.1, renamed theme old new w.2) := by
  by_cases hvariant : isVariantKey theme key
  · have hkey : key ≠ old := by
      rintro rfl
      exact not_isVariantKey_names hold hvariant
    rw [if_neg hkey, if_pos hvariant]
    cases value with
    | literal l =>
        rw [renamedVariant, Meaning.entryWays_literal hvariant]
        rfl
    | conditional tags =>
        rw [renamedVariant, Meaning.entryWays_variant hvariant, Meaning.entryWays_variant hvariant,
          StyleValue.renamedTags_eq_map, List.map_map, List.map_map]
        rfl
  · rw [if_neg hvariant]
    by_cases hkey : key = old
    · rw [if_pos hkey, hkey, Meaning.entryWays_names hnew, Meaning.entryWays_names hold]
      rfl
    · obtain ⟨c, hc⟩ := Meaning.entryWays_single hvariant
      rw [if_neg hkey, hc, hc]
      rfl

theorem ways_renamed (hold : theme.Names old id) (hnew : theme.Names new id)
    (es : List (String × StyleValue)) :
    ways theme (renamedEntries theme old new es) =
      (ways theme es).map fun w => (w.1, renamed theme old new w.2) := by
  induction es with
  | nil => rfl
  | cons e es ih =>
      rw [renamedEntries, Meaning.ways_cons, Meaning.ways_cons, List.map_append, ih,
        entryWays_renamed hold hnew]

/-! ## The same normal form -/

theorem has_default_renamed (hold : theme.Names old id) (hnew : theme.Names new id)
    (es : List (String × StyleValue)) :
    Entries.has (renamedEntries theme old new es) "default" = Entries.has es "default" := by
  rw [Bool.eq_iff_iff, Entries.has_iff, Entries.has_iff, StyleValue.keys_renamedEntries,
    List.mem_map]
  constructor
  · rintro ⟨key, hkey, heq⟩
    split at heq
    · exact absurd heq hnew.1
    · exact heq ▸ hkey
  · intro hkey
    exact ⟨"default", hkey, if_neg hold.1.symm⟩

/-- The check looks at variants alone, and their keys and tags are as before. -/
theorem check_renamed (hold : theme.Names old id) (hnew : theme.Names new id) (found : Bool)
    (es : List (String × StyleValue)) :
    check theme property found (renamedEntries theme old new es) =
      check theme property found es := by
  induction es generalizing found with
  | nil => rfl
  | cons e es ih =>
      obtain ⟨key, value⟩ := e
      rw [renamedEntries, check, check, isVariantKey_renamed hold hnew]
      by_cases hvariant : isVariantKey theme key
      · have hkey : key ≠ old := by
          rintro rfl
          exact not_isVariantKey_names hold hvariant
        rw [if_pos hvariant, if_pos hvariant, if_pos hvariant, if_neg hkey]
        cases value with
        | literal l => rfl
        | conditional tags =>
            have hhas : Entries.has (renamedTags theme old new tags) "default" =
                Entries.has tags "default" := by
              rw [Bool.eq_iff_iff, Entries.has_iff, Entries.has_iff, StyleValue.keys_renamedTags]
            show (if Entries.has (renamedTags theme old new tags) "default" then _ else _) = _
            rw [hhas]
            simp only [ih]
            rfl
      · rw [if_neg hvariant, if_neg hvariant, ih]

/-- With one name of a prelude in the place of another a value has the same normal form,
whatever it is handed. -/
theorem ofValue_renamed (hold : theme.Names old id) (hnew : theme.Names new id)
    (value : StyleValue) :
    ofValue theme property (value.renamed theme old new) = ofValue theme property value := by
  cases value with
  | literal l => rfl
  | conditional es =>
      have harms : arms theme property (renamedEntries theme old new es) =
          arms theme property es := by
        rw [arms_eq_map, arms_eq_map, ways_renamed hold hnew, List.map_map]
        refine List.map_congr_left fun w hw => ?_
        have hvalue := ofValue_renamed hold hnew w.2
        rw [Function.comp_apply, armOf, armOf, hvalue]
      funext scope
      rw [renamed, ofValue, ofValue, has_default_renamed hold hnew, check_renamed hold hnew, harms]
termination_by value.size
decreasing_by exact size_lt_of_mem_ways hw

end StyleNode

/-! ## Descriptions -/

/-- Setting a key again changes nothing in a pass that treats its new value like the one
that it has. -/
theorem Entries.mapM_insert {α β ε : Type} {f : String × α → Except ε β} {es : Entries α}
    {key : String} {value value' : α} (hget : es.get? key = some value)
    (h : f (key, value') = f (key, value)) : (es.insert key value').mapM f = es.mapM f := by
  induction es with
  | nil => cases hget
  | cons e es ih =>
      obtain ⟨k, v⟩ := e
      rw [get?] at hget
      rw [insert]
      split at hget
      · next hk =>
          rw [if_pos hk, List.mapM_cons, List.mapM_cons, hk, h, Option.some.inj hget]
      · next hk => rw [if_neg hk, List.mapM_cons, List.mapM_cons, ih hget]

/-- A value whose keys are distinct is set as it is. -/
theorem StyleDescription.entries_set (d : StyleDescription) (name : String) {value : StyleValue}
    (h : value.Distinct) : (d.set name value).entries = d.entries.insert name value := by
  show d.entries.insert name value.distinct = _
  rw [StyleValue.distinct_eq_self value h]

theorem Lowering.entry_renamed {theme : Theme} {old new : String} {id : ConditionId}
    (hold : theme.Names old id) (hnew : theme.Names new id) {name : String}
    (hname : ¬ Css.isCustomName name) (value : StyleValue) :
    Lowering.entry theme name (value.renamed theme old new) = Lowering.entry theme name value := by
  rw [Lowering.entry, if_neg hname, Lowering.entry, if_neg hname, StyleNode.normalize,
    StyleNode.ofValue_renamed hold hnew, StyleNode.normalize]

/-- Names of one prelude are names of one condition. -/
theorem exists_names_of_build {calls : List ThemeCall} {theme : Theme}
    (h : (ThemeCall.draft calls).build = .ok theme) {old new text text' : String}
    (hold : (old, text) ∈ calls.filterMap ThemeCall.condition?)
    (hnew : (new, text') ∈ calls.filterMap ThemeCall.condition?)
    (hsame : Text.trimmed text = Text.trimmed text') (hne : Text.trimmed text ≠ "") :
    ∃ id, theme.Names old id ∧ theme.Names new id := by
  obtain ⟨-, -, htables⟩ := Theme.tables_of_build h
  have hdefault : ∀ name text, (name, text) ∈ calls.filterMap ThemeCall.condition? →
      name ≠ "default" := by
    rintro name text hmem rfl
    exact htables.unreserved (List.mem_map.2 ⟨_, hmem, rfl⟩)
  have hold' := Theme.condition?_of_mem htables hold
  have hnew' := Theme.condition?_of_mem htables hnew
  rw [ThemeDraft.kindIn, if_neg hne] at hold'
  rw [ThemeDraft.kindIn, if_neg (hsame ▸ hne), ← hsame] at hnew'
  exact ⟨_, ⟨hdefault _ _ hold, hold'⟩, ⟨hdefault _ _ hnew, hnew'⟩⟩

/-- A property or shorthand with one name of a prelude in the place of another, in all the
objects of its value, where no object has both. The description lowers to the same
forest, or fails with the same error, and so a compiler makes the same sheet and the same
procedure of it. -/
theorem condition_names_interchangeable {calls : List ThemeCall} {theme : Theme}
    (hbuild : (ThemeCall.draft calls).build = .ok theme) {old new text text' : String}
    (hold : (old, text) ∈ calls.filterMap ThemeCall.condition?)
    (hnew : (new, text') ∈ calls.filterMap ThemeCall.condition?)
    (hsame : Text.trimmed text = Text.trimmed text') (hne : Text.trimmed text ≠ "")
    {d : StyleDescription} {name : String} {value : StyleValue}
    (hentry : (name, value) ∈ d.entries) (hname : ¬ Css.isCustomName name)
    (hone : value.NeverBoth theme old new) :
    lower theme (d.set name (value.renamed theme old new)) = lower theme d ∧
      ∀ emitter : CssEmitter,
        StyleCompiler.compile ⟨theme, emitter⟩ (d.set name (value.renamed theme old new)) =
          StyleCompiler.compile ⟨theme, emitter⟩ d := by
  obtain ⟨id, hold, hnew⟩ := exists_names_of_build hbuild hold hnew hsame hne
  have hvalue := StyleNode.distinct_of_mem d.distinct_keys hentry
  have hset := d.entries_set name (StyleValue.distinct_renamed value hvalue hone)
  have hlower : lower theme (d.set name (value.renamed theme old new)) = lower theme d := by
    rw [lower, lower, hset, Entries.mapM_insert (Entries.get?_of_mem d.distinct_names hentry)
      (Lowering.entry_renamed hold hnew hname value)]
  refine ⟨hlower, fun emitter => ?_⟩
  rw [StyleCompiler.compile, StyleCompiler.compile, hlower]

/-- Calls for a theme with two names for its first prelude. -/
def aliasCalls : List ThemeCall :=
  [.property "display" (.ofNames ["block", "flex"]), .condition "dark" ".dark &",
   .condition "wide" "@media (min-width: 60rem)", .condition "night" " .dark & "]

def aliasTheme : Theme where
  properties := [("display", .ofNames ["block", "flex"])]
  shorthands := []
  conditions := [("dark", .theme 0), ("wide", .theme 1), ("night", .theme 0)]
  preludes := [".dark &", "@media (min-width: 60rem)"]

/-- The outer object says `dark` and a nested one overrides it as `night`. The variant has
a tag `dark`. -/
def aliasValue : StyleValue :=
  .conditional
    [("default", .literal (.text "block")),
     ("dark", .literal (.text "flex")),
     ("isOpen", .conditional
       [("night", .literal (.text "block")), ("isWide", .literal (.text "flex"))]),
     ("shade", .conditional
       [("dark", .conditional [("isOpen", .literal (.text "flex"))])])]

/-- Each of its objects has one of the names at most. -/
theorem aliasValue_neverBoth : StyleValue.NeverBoth aliasTheme "dark" "night" aliasValue := by
  refine .conditional (by decide) (List.forall_mem_cons.2 ⟨.literal _, List.forall_mem_cons.2
    ⟨.literal _, List.forall_mem_cons.2 ⟨?_, List.forall_mem_singleton.2 ?_⟩⟩⟩)
  · exact .conditional (by decide)
      (List.forall_mem_cons.2 ⟨.literal _, List.forall_mem_singleton.2 (.literal _)⟩)
  · exact .conditional (by decide) (List.forall_mem_singleton.2 (.literal _))

theorem condition_names_interchangeable_night :
    ∃ f, lower aliasTheme (.ofList [("display", aliasValue)]) = .ok f ∧
      lower aliasTheme (.ofList [("display", .conditional
        [("default", .literal (.text "block")),
         ("night", .literal (.text "flex")),
         ("isOpen", .conditional
           [("night", .literal (.text "block")), ("isWide", .literal (.text "flex"))]),
         ("shade", .conditional
           [("dark", .conditional [("isOpen", .literal (.text "flex"))])])])]) = .ok f ∧
      f.tokens = ["aa", "aab", "aaa", "ab", "aa", "ab", "aa", "aab"] := by
  obtain ⟨h, -⟩ := @condition_names_interchangeable aliasCalls aliasTheme rfl "dark" "night"
    ".dark &" " .dark & " (by decide) (by decide) (by decide) (by decide)
    (.ofList [("display", aliasValue)]) "display" aliasValue List.mem_cons_self (by decide)
    aliasValue_neverBoth
  exact ⟨_, rfl, h, by decide +kernel⟩

end AtomicStyles
