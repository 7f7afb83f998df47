import Mathlib.Data.List.TakeWhile
import AtomicStyles.Proofs.BracketedValue
import AtomicStyles.Proofs.BuiltTheme
import AtomicStyles.Proofs.Literals
import AtomicStyles.Proofs.TokenIdentity
import AtomicStyles.Theme.Config

/-!
# Where blank values come from

A declaration with a blank value sets nothing, and most ways to a value rule it out:
brackets and custom properties refuse a blank text, a reference and a color with an
opacity have text of their own, and so has a number. A listed value is as blank as
the configuration makes it. What remains are the properties that take any text. They
pass a string on as it is, and a blank one too.

So if no text of the configuration is blank, the blank declarations of a forest are
the blank strings that the description gives to such a property, by itself or as the
type of a custom property. `blank_declaration_iff` says so in both directions.
-/

namespace AtomicStyles

namespace Text

/-- Something in the text is not blank. -/
def Visible (s : String) : Prop := ∃ c ∈ s.toList, isBlank c = false

theorem trim_eq_nil_iff {cs : List Char} : trim cs = [] ↔ ∀ c ∈ cs, isBlank c = true := by
  rw [trim, List.reverse_eq_nil_iff, List.dropWhile_eq_nil_iff]
  simp only [List.mem_reverse]
  constructor
  · intro h c hc
    rw [← List.takeWhile_append_dropWhile (p := isBlank) (l := cs)] at hc
    exact (List.mem_append.1 hc).elim List.mem_takeWhile_imp (h c)
  · intro h c hc
    exact h c ((List.dropWhile_suffix isBlank).mem hc)

theorem visible_iff {s : String} : Visible s ↔ trimmed s ≠ "" := by
  have hempty : trimmed s = "" ↔ trim s.toList = [] := by
    rw [trimmed, ← String.toList_inj, String.toList_ofList]
    rfl
  rw [Ne, hempty, trim_eq_nil_iff, Visible]
  simp

theorem isBlankText_iff {s : String} : isBlankText s ↔ ¬ Visible s := by
  simp [isBlankText, Visible]

theorem Visible.append_left {s : String} (h : Visible s) (t : String) : Visible (s ++ t) := by
  obtain ⟨c, hc, hvisible⟩ := h
  exact ⟨c, by rw [String.toList_append]; exact List.mem_append_left _ hc, hvisible⟩

theorem not_isBlank_of_isDigit {c : Char} (h : c.isDigit) : isBlank c = false := by
  have hdigit : 48 ≤ c.toNat ∧ c.toNat ≤ 57 := by
    simp only [Char.isDigit, Bool.and_eq_true, decide_eq_true_eq, UInt32.le_iff_toNat_le] at h
    exact h
  rw [← Bool.not_eq_true]
  intro hblank
  simp only [isBlank, Bool.or_eq_true, Bool.and_eq_true, decide_eq_true_iff, beq_iff_eq] at hblank
  omega

end Text

/-! ## Numbers have a text -/

namespace Binary64

open Text (isBlank)

theorem exists_figure (n : Nat) : ∃ c ∈ Nat.toDigits 10 n, isBlank c = false := by
  obtain ⟨c, hc⟩ := List.exists_mem_of_ne_nil (Nat.toDigits 10 n) Nat.toDigits_ne_nil
  have hdigit := Nat.isDigit_of_mem_toDigits (by decide) (by decide) hc
  exact ⟨c, hc, Text.not_isBlank_of_isDigit hdigit⟩

theorem exists_positional (d : Decimal) (ending : List Char) :
    ∃ c ∈ d.positional ending, isBlank c = false := by
  unfold Decimal.positional
  dsimp only
  split
  · obtain ⟨c, hc, hvisible⟩ := exists_figure d.digits
    exact ⟨c, List.mem_append_left _ (List.mem_append_left _ hc), hvisible⟩
  · split
    · exact ⟨'.', List.mem_append_right _ List.mem_cons_self, rfl⟩
    · exact ⟨'0', List.mem_cons_self, rfl⟩

theorem visible_signed (negative : Bool) {cs : List Char} (h : ∃ c ∈ cs, isBlank c = false) :
    Text.Visible (signed negative cs) := by
  obtain ⟨c, hc, hvisible⟩ := h
  refine ⟨c, ?_, hvisible⟩
  rw [signed, String.toList_ofList]
  split
  · exact List.mem_cons_of_mem _ hc
  · exact hc

theorem visible_name (x : Binary64) : Text.Visible x.name := by
  unfold name
  split
  · exact ⟨'N', by decide, rfl⟩
  · exact visible_signed _ ⟨'i', List.mem_cons_self, rfl⟩
  · split
    · split
      · exact visible_signed _ (exists_figure _)
      · exact visible_signed _ (exists_positional _ _)
    · exact visible_signed _ (exists_positional _ _)

end Binary64

/-! ## Values that resolve to a blank text -/

namespace PropertyConfig

/-- The CSS texts that the entry lists. -/
def valueTexts : PropertyConfig → List String
  | .listed items => items.map Literal.key
  | .detailed form => form.values.map (·.2)
  | .mapped entries => entries.map (·.2)

/-- The property takes any text for a value. -/
def TakesText : PropertyConfig → Prop
  | .detailed form => form.kind = .arbitrary
  | _ => False

end PropertyConfig

namespace PropertyDefinition

open Text (Visible)

variable {d : PropertyDefinition} {name css : String} {value : Literal} {fragment : Code.Fragment}

/-- The texts that a property lists, if it lists them. -/
def listing? (d : PropertyDefinition) : Option (Entries String) :=
  match d.values with
  | .enumerated values => some values
  | .color values => some values
  | .arbitrary _ => none

theorem mem_of_lookup {values : Entries String} {key : String}
    (h : lookup values name key = .ok (css, fragment)) : ∃ k, (k, css) ∈ values := by
  unfold lookup at h
  split at h
  · next position text hfind =>
      cases h
      exact ⟨key, List.mem_of_getElem? (Entries.getElem?_of_find? hfind)⟩
  · cases h

theorem visible_of_resolveColor {values : Entries String} {key : String}
    (hvalues : ∀ v ∈ values, Visible v.2)
    (h : resolveColor values name key = .ok (css, fragment)) : Visible css := by
  have hlisted {key : String} (h : lookup values name key = .ok (css, fragment)) :
      Visible css := by
    obtain ⟨k, hk⟩ := mem_of_lookup h
    exact hvalues _ hk
  unfold resolveColor at h
  dsimp only at h
  split at h
  · exact hlisted h
  · split at h
    · exact hlisted h
    · obtain ⟨⟨color, _⟩, -, h⟩ := bind_eq_ok_iff.1 h
      dsimp only at h
      split at h
      · cases h
        have hfirst : Visible "rgb(from " := ⟨'r', by decide, rfl⟩
        exact (((hfirst.append_left _).append_left _).append_left _).append_left _
      · cases h

theorem visible_of_resolveListed {values : Entries String} (hlisting : d.listing? = some values)
    (hvalues : ∀ v ∈ values, Visible v.2)
    (h : d.resolveListed name value = .ok (css, fragment)) : Visible css := by
  unfold listing? at hlisting
  unfold resolveListed at h
  cases hd : d.values with
  | enumerated vs =>
      rw [hd] at hlisting h
      cases hlisting
      obtain ⟨k, hk⟩ := mem_of_lookup h
      exact hvalues _ hk
  | color vs =>
      rw [hd] at hlisting h
      cases hlisting
      exact visible_of_resolveColor hvalues h
  | arbitrary resolver =>
      rw [hd] at hlisting
      cases hlisting

theorem visible_of_bracketed {rest : List Char} (h : Css.bracketed rest = .ok css) :
    Visible css := by
  unfold Css.bracketed at h
  split at h
  · obtain ⟨⟨⟩, hcheck, h⟩ := bind_eq_ok_iff.1 h
    cases h
    have hne : Text.trim rest.dropLast ≠ [] := by
      intro hnil
      rw [Css.checkValue, hnil] at hcheck
      cases hcheck
    rw [Text.visible_iff, Text.trimmed, String.toList_ofList, Text.trim_trim]
    simpa using hne
  · cases h

/-- A text that is not listed has something of its own. -/
theorem visible_or_listed (h : d.resolveValue name value = .ok (css, fragment)) :
    Visible css ∨ d.resolveListed name value = .ok (css, fragment) := by
  unfold resolveValue at h
  split at h
  · next raw =>
      split at h
      · cases h
        have hfirst : Visible "var(" := ⟨'v', by decide, rfl⟩
        exact .inl ((hfirst.append_left _).append_left _)
      · split at h
        · next rest hraw =>
            split at h
            · next text hbracketed =>
                cases h
                exact .inl (visible_of_bracketed hbracketed)
            · cases h
        · exact .inr h
  · exact .inr h

/-- A blank text is neither a reference nor in brackets. -/
theorem resolveValue_blank {s : String} (hs : ¬ Visible s) (d : PropertyDefinition)
    (name : String) : d.resolveValue name (.text s) = d.resolveListed name (.text s) := by
  have hfirst {c : Char} (hc : Text.isBlank c = false) : s.toList.head? ≠ some c :=
    fun h => hs ⟨c, List.mem_of_head? h, hc⟩
  refine resolveValue_listed (fun h => ?_) (hfirst (by decide)) d name
  obtain ⟨rest, hrest⟩ := List.isPrefixOf_iff_prefix.1 h
  exact hfirst (c := '-') (by decide) (by rw [← hrest]; rfl)

end PropertyDefinition

namespace PropertyConfig

open PropertyDefinition
open Text (Visible)

theorem values_targeted (form : DetailedProperty) :
    form.definition.values =
      (match form.kind with
        | .values => ofValues form.values
        | .color => ofColors form.values
        | .arbitrary => numeric (form.unit.getD "")).values := by
  unfold DetailedProperty.definition
  dsimp only
  split <;> rfl

theorem listing_definition {entry : PropertyConfig} (h : ¬ entry.TakesText) :
    ∃ values, entry.definition.listing? = some values ∧ ∀ v ∈ values, v.2 ∈ entry.valueTexts := by
  cases entry with
  | listed items =>
      refine ⟨_, rfl, fun v hv => ?_⟩
      obtain ⟨n, hn, rfl⟩ := List.mem_map.1 (Entries.mem_of_mem_ofList hv)
      exact hn
  | mapped entries =>
      exact ⟨_, rfl, fun v hv => List.mem_map.2 ⟨v, Entries.mem_of_mem_ofList hv, rfl⟩⟩
  | detailed form =>
      refine ⟨Entries.ofList form.values, ?_,
        fun v hv => List.mem_map.2 ⟨v, Entries.mem_of_mem_ofList hv, rfl⟩⟩
      rw [listing?, definition, values_targeted]
      cases hkind : form.kind with
      | values => rfl
      | color => rfl
      | arbitrary => exact absurd hkind h

theorem values_definition {entry : PropertyConfig} (h : entry.TakesText) :
    ∃ unit, entry.definition.values = (numeric unit).values := by
  cases entry with
  | listed items => cases h
  | mapped entries => cases h
  | detailed form =>
      refine ⟨form.unit.getD "", ?_⟩
      rw [definition, values_targeted]
      rw [show form.kind = .arbitrary from h]

theorem mapper_definition (form : DetailedProperty) :
    form.definition.mapper =
      if form.targets.isEmpty then none
      else some fun css => (form.targets.map Css.propertyName).map fun n => ⟨n, css⟩ := by
  unfold DetailedProperty.definition
  dsimp only
  split
  · cases form.kind <;> rfl
  · rfl

/-- Every declaration of a configured property sets the text, and there is one. -/
theorem declares_iff (entry : PropertyConfig) {name css s : String} :
    (∃ decl ∈ entry.definition.declarations name css, decl.value = s) ↔ css = s := by
  have hplain {d : PropertyDefinition} (h : d.mapper = none) :
      (∃ decl ∈ d.declarations name css, decl.value = s) ↔ css = s := by
    rw [declarations, h]
    simp
  cases entry with
  | listed items => exact hplain rfl
  | mapped entries => exact hplain rfl
  | detailed form =>
      by_cases htargets : form.targets.isEmpty
      · refine hplain ?_
        rw [definition, mapper_definition, if_pos htargets]
      · have hne : form.targets ≠ [] := fun hnil => htargets (List.isEmpty_iff.2 hnil)
        obtain ⟨target, htarget⟩ := List.exists_mem_of_ne_nil _ hne
        rw [definition, declarations, mapper_definition, if_neg htargets]
        dsimp only
        constructor
        · rintro ⟨decl, hdecl, hvalue⟩
          obtain ⟨n, -, rfl⟩ := List.mem_map.1 hdecl
          exact hvalue
        · intro hcss
          exact ⟨_, List.mem_map_of_mem (List.mem_map_of_mem htarget), hcss⟩

theorem resolves_blank_iff {entry : PropertyConfig}
    (hentry : ∀ text ∈ entry.valueTexts, Visible text) {s : String} (hs : ¬ Visible s)
    (name : String) (value : Literal) :
    (∃ fragment, entry.definition.resolveValue name value = .ok (s, fragment)) ↔
      entry.TakesText ∧ value = .text s := by
  constructor
  · rintro ⟨fragment, h⟩
    have hlisted := (visible_or_listed h).resolve_left hs
    by_cases htext : entry.TakesText
    · refine ⟨htext, ?_⟩
      obtain ⟨unit, hvalues⟩ := values_definition htext
      rw [resolveListed, hvalues] at hlisted
      cases value with
      | bool b => cases hlisted
      | number n =>
          cases hlisted
          exact absurd ((Binary64.visible_name n).append_left unit) hs
      | text raw =>
          cases hlisted
          rfl
    · obtain ⟨values, hlisting, hvalues⟩ := listing_definition htext
      have hvisible : ∀ v ∈ values, Visible v.2 := fun v hv => hentry _ (hvalues v hv)
      exact absurd (visible_of_resolveListed hlisting hvisible hlisted) hs
  · rintro ⟨htext, rfl⟩
    obtain ⟨unit, hvalues⟩ := values_definition htext
    refine ⟨.ofText s, ?_⟩
    rw [resolveValue_blank hs, resolveListed, hvalues]
    rfl

end PropertyConfig

/-! ## Values of a description -/

namespace ThemeConfig

/-- The CSS texts that a configuration lists for its properties. -/
def valueTexts (c : ThemeConfig) : List String :=
  c.properties.flatMap fun e => e.2.valueTexts

end ThemeConfig

namespace Lowering

/-- The property of the theme that resolves the values of a target. -/
def Target.property? : Target → Option (String × PropertyDefinition)
  | .themed _ name definition => some (name, definition)
  | .typed _ type definition => some (type, definition)
  | .raw _ => none

/-- The values of the target are those of a configured property that takes any
text. -/
def TakesText (c : ThemeConfig) (target : Target) : Prop :=
  ∃ p entry, target.property? = some p ∧ (p.1, entry) ∈ c.properties ∧ entry.TakesText

section

variable {c : ThemeConfig} {theme : Theme} {d : StyleDescription} {f : RuleForest}

theorem mem_properties_of_mem_allSettings {t : Target × StyleValue}
    (ht : t ∈ Meaning.allSettings theme d) {p : String × PropertyDefinition}
    (hp : t.1.property? = some p) : p ∈ theme.properties := by
  obtain ⟨target, value⟩ := t
  cases target with
  | themed id name definition =>
      cases hp
      exact List.mem_of_getElem? (property?_of_mem_allSettings ht)
  | typed name type definition =>
      cases hp
      obtain ⟨e, -, ht⟩ := List.mem_flatMap.1 ht
      unfold Meaning.settings at ht
      split at ht
      · split at ht
        · next setting hsetting =>
            obtain rfl := List.mem_singleton.1 ht
            obtain ⟨hraw, -, -⟩ | ⟨type', definition', htyped, -, hget⟩ := customTarget_ok hsetting
            · cases hraw
            · cases htyped
              exact Entries.mem_of_get? hget
        · cases ht
      · split at ht
        · obtain ⟨id, -, hid⟩ := List.mem_filterMap.1 ht
          obtain ⟨_, -, heq⟩ := Option.map_eq_some_iff.1 hid
          cases heq
        · cases ht
  | raw name => cases hp

theorem distinct_pass {known next : Entries PropertyDefinition}
    {es : List (String × PropertyDefinition)}
    (h : es.foldlM ThemeDraft.addProperty known = .ok next) (hknown : known.Distinct) :
    next.Distinct := by
  refine foldlM_ok_induction (P := fun known _ next => Entries.Distinct known → next.Distinct)
    (fun known => id) (fun known e next es last he hes hknown => hes ?_) h hknown
  obtain ⟨hnew, rfl⟩ := ThemeDraft.addProperty_ok_iff.1 he
  rw [← Entries.insert_of_not_mem hnew]
  exact Entries.distinct_insert hknown _ _

theorem properties_of_build (h : c.build = .ok theme) :
    theme.properties = c.properties.map (fun e => (e.1, e.2.definition)) ∧
      Entries.Distinct c.properties := by
  have hpass := (ThemeDraft.build_ok_iff.1 h).1
  have hproperties := ThemeDraft.properties_pass hpass
  have hdistinct := distinct_pass hpass Entries.distinct_nil
  rw [List.nil_append] at hproperties
  rw [hproperties, Entries.Distinct, Entries.keys, List.map_map] at hdistinct
  exact ⟨hproperties, hdistinct⟩

/-- A target that has a property has it from one entry of the configuration. -/
theorem exists_entry (hbuild : c.build = .ok theme) {t : Target × StyleValue}
    (ht : t ∈ Meaning.allSettings theme d) {p : String × PropertyDefinition}
    (hp : t.1.property? = some p) :
    ∃ entry, p.2 = entry.definition ∧ (p.1, entry) ∈ c.properties ∧
      (TakesText c t.1 ↔ entry.TakesText) := by
  obtain ⟨hproperties, hdistinct⟩ := properties_of_build hbuild
  have hmem := mem_properties_of_mem_allSettings ht hp
  rw [hproperties] at hmem
  obtain ⟨⟨name, entry⟩, he, rfl⟩ := List.mem_map.1 hmem
  refine ⟨entry, rfl, he, ?_, fun htext => ⟨_, entry, hp, he, htext⟩⟩
  rintro ⟨p', entry', hp', he', htext⟩
  cases hp.symm.trans hp'
  have hget := Entries.get?_of_mem hdistinct he
  rw [Entries.get?_of_mem hdistinct he'] at hget
  cases hget
  exact htext

/-- A blank text is the value of a leaf when the leaf is that text and the target
takes it. -/
theorem value_blank_iff (hvalues : ∀ text ∈ c.valueTexts, Text.Visible text)
    (hbuild : c.build = .ok theme) {t : Target × StyleValue}
    (ht : t ∈ Meaning.allSettings theme d) {s : String} (hs : ¬ Text.Visible s) {l : Literal} :
    (∃ css fragment, t.1.value l = .ok (css, fragment) ∧ ∃ decl ∈ t.1.declare css, decl.value = s) ↔
      TakesText c t.1 ∧ l = .text s := by
  have hvisible {name : String} {entry : PropertyConfig} (he : (name, entry) ∈ c.properties) :
      ∀ text ∈ entry.valueTexts, Text.Visible text :=
    fun text htext => hvalues text (List.mem_flatMap.2 ⟨_, he, htext⟩)
  obtain ⟨target, value⟩ := t
  cases target with
  | themed id name definition =>
      obtain ⟨entry, rfl, he, htakes⟩ := exists_entry hbuild ht rfl
      rw [htakes, ← PropertyConfig.resolves_blank_iff (hvisible he) hs name l]
      constructor
      · rintro ⟨css, fragment, hvalue, hdecl⟩
        obtain rfl := entry.declares_iff.1 hdecl
        exact ⟨fragment, hvalue⟩
      · rintro ⟨fragment, hvalue⟩
        exact ⟨s, fragment, hvalue, entry.declares_iff.2 rfl⟩
  | typed name type definition =>
      obtain ⟨entry, rfl, he, htakes⟩ := exists_entry hbuild ht rfl
      rw [htakes, ← PropertyConfig.resolves_blank_iff (hvisible he) hs type l]
      constructor
      · rintro ⟨css, fragment, hvalue, decl, hdecl, rfl⟩
        obtain ⟨⟨css', fragment'⟩, hvalue', heq⟩ := map_eq_ok_iff.1 hvalue
        cases heq
        obtain rfl := List.mem_singleton.1 hdecl
        exact ⟨fragment', hvalue'⟩
      · rintro ⟨fragment, hvalue⟩
        exact ⟨s, .ofText s, map_eq_ok_iff.2 ⟨_, hvalue, rfl⟩, _, List.mem_singleton.2 rfl, rfl⟩
  | raw name =>
      constructor
      · rintro ⟨css, fragment, hvalue, decl, hdecl, rfl⟩
        obtain rfl := List.mem_singleton.1 hdecl
        rw [Target.value] at hvalue
        split at hvalue
        · cases hvalue
        · next hkey =>
            cases hvalue
            exact absurd (Text.isBlankText_iff.2 hs) hkey
      · rintro ⟨⟨p, entry, hp, -⟩, -⟩
        cases hp

theorem mem_classes_iff (h : lower theme d = .ok f) {declarations : List Css.Declaration} :
    (∃ r ∈ f.classes, r.declarations = declarations) ↔
      ∃ t ∈ Meaning.allSettings theme d, ∃ l ∈ t.2.literals, ∃ css fragment,
        t.1.value l = .ok (css, fragment) ∧ declarations = t.1.declare css := by
  constructor
  · rintro ⟨r, hr, rfl⟩
    obtain ⟨t, ht, hfrom⟩ := mem_classes_lowered h hr
    obtain ⟨name, tree, leaf, css, fragment, htree, hleaf, hvalue, -, hdeclarations⟩ :=
      hfrom.exists_value
    have hl := (StyleNode.literals_of_normalize htree).1 ⟨leaf, hleaf, rfl⟩
    exact ⟨t, ht, leaf.2, hl, css, fragment, hvalue, hdeclarations⟩
  · rintro ⟨t, ht, l, hl, css, fragment, hvalue, rfl⟩
    obtain ⟨g, hg, name, tree, rules, htree, hrules, rfl⟩ := exists_of_forall₂_left (lower_ok h) ht
    obtain ⟨leaf, hleaf, rfl⟩ := (StyleNode.literals_of_normalize htree).2 hl
    obtain ⟨r, hr, resolved, hresolved, rfl⟩ :=
      exists_of_forall₂_left (allClasses_lowered tree hrules) hleaf
    rw [Target.resolve_eq, hvalue] at hresolved
    cases hresolved
    exact ⟨_, List.mem_flatMap.2 ⟨_, hg, hr⟩, rfl⟩

end

end Lowering

open Lowering

/-- In a forest made under a configuration without blank texts a declaration has a
blank value exactly if the description gives this very text to a property that takes
any. -/
theorem blank_declaration_iff {c : ThemeConfig} {theme : Theme} {d : StyleDescription}
    {f : RuleForest} (hvalues : ∀ text ∈ c.valueTexts, Text.trimmed text ≠ "")
    (hbuild : c.build = .ok theme) (h : lower theme d = .ok f) {s : String}
    (hs : Text.trimmed s = "") :
    (∃ r ∈ f.classes, ∃ decl ∈ r.declarations, decl.value = s) ↔
      ∃ t ∈ Meaning.allSettings theme d, TakesText c t.1 ∧ .text s ∈ t.2.literals := by
  have hblank : ¬ Text.Visible s := fun hvisible => Text.visible_iff.1 hvisible hs
  have hvisible : ∀ text ∈ c.valueTexts, Text.Visible text :=
    fun text htext => Text.visible_iff.2 (hvalues text htext)
  constructor
  · rintro ⟨r, hr, decl, hdecl, rfl⟩
    obtain ⟨t, ht, l, hl, css, fragment, hvalue, hdeclarations⟩ :=
      (mem_classes_iff h).1 ⟨r, hr, rfl⟩
    rw [hdeclarations] at hdecl
    obtain ⟨htakes, rfl⟩ := (value_blank_iff hvisible hbuild ht hblank).1
      ⟨css, fragment, hvalue, decl, hdecl, rfl⟩
    exact ⟨t, ht, htakes, hl⟩
  · rintro ⟨t, ht, htakes, hl⟩
    obtain ⟨css, fragment, hvalue, hdecl⟩ :=
      (value_blank_iff hvisible hbuild ht hblank).2 ⟨htakes, rfl⟩
    obtain ⟨r, hr, hdeclarations⟩ :=
      (mem_classes_iff h).2 ⟨t, ht, _, hl, css, fragment, hvalue, rfl⟩
    exact ⟨r, hr, hdeclarations ▸ hdecl⟩

/-- A configuration with one property that lists its values and one that takes any
text. -/
def spinConfig : ThemeConfig where
  properties :=
    [("display", .listed [.text "block"]), ("rotate", .detailed { kind := .arbitrary })]

def spinTheme : Theme where
  properties := [("display", .ofNames ["block"]), ("rotate", .numeric "")]
  shorthands := []
  conditions := []
  preludes := []

theorem spinConfig_build : spinConfig.build = .ok spinTheme := rfl

/-- A blank text that the state may choose. -/
def blankSpin : StyleDescription :=
  .ofList
    [("display", .literal (.text "block")),
     ("rotate", .conditional [("isOpen", .literal (.text " "))])]

theorem blank_declaration_spin :
    ∃ f, lower spinTheme blankSpin = .ok f ∧
      ∃ r ∈ f.classes, ∃ decl ∈ r.declarations, decl.value = " " := by
  obtain ⟨f, hf⟩ : ∃ f, lower spinTheme blankSpin = .ok f := ⟨_, rfl⟩
  have htexts : ∀ text ∈ spinConfig.valueTexts, Text.trimmed text ≠ "" := by decide
  refine ⟨f, hf, (blank_declaration_iff htexts spinConfig_build hf (by decide)).2 ?_⟩
  refine ⟨(.themed 1 "rotate" (.numeric ""), .conditional [("isOpen", .literal (.text " "))]),
    List.mem_cons_of_mem _ List.mem_cons_self, ?_, List.mem_singleton.2 rfl⟩
  exact ⟨("rotate", .numeric ""), .detailed { kind := .arbitrary }, rfl,
    List.mem_cons_of_mem _ List.mem_cons_self, rfl⟩

/-- All texts of the configuration are visible, and yet a class has a declaration
without a value. -/
theorem empty_value_emitted :
    (∀ text ∈ spinConfig.valueTexts, Text.trimmed text ≠ "") ∧
      spinConfig.build = .ok spinTheme ∧
      ∃ f, lower spinTheme (.ofList [("rotate", .literal (.text ""))]) = .ok f ∧
        f.classes.flatMap (·.declarations) = [⟨"rotate", ""⟩] :=
  ⟨by decide, rfl, _, rfl, rfl⟩

end AtomicStyles
