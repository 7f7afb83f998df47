import Mathlib.Data.Set.Function
import AtomicStyles.Proofs.LoweredClasses
import AtomicStyles.Proofs.Overlay

/-!
# Equal tokens mean equal rules

An emitter prints the first rule of each token and drops the others, so nothing
is lost only if rules with one token say the same. The token gives back the key
of its property, its conditions and the fragment of its value. What remains is
that key and fragment determine the declarations.

An indexed fragment is a position in the value list of its property, and the
position determines the text. A hashed fragment determines the text as long as
the hash tells apart the texts that were really hashed, and the same goes for
the names of custom properties. These are the two hypotheses of the main
statement, and they speak of the texts of the two descriptions at hand alone.
-/

namespace AtomicStyles

open Css (Declaration)
open Code (Fragment)

namespace PropertyDefinition

def textAt? (values : Entries String) (position : Nat) : Option String :=
  (values[position]?).map (·.2)

/-- The CSS text that a property lists at a position. -/
def listed? (d : PropertyDefinition) : Nat → Option String :=
  match d.values with
  | .enumerated values => textAt? values
  | .color values => textAt? values
  | .arbitrary _ => fun _ => none

/-- A fragment is the hash of the text, or the position at which `listed` has
it. -/
def Marks (listed : Nat → Option String) (css : String) (fragment : Fragment) : Prop :=
  fragment = .ofText css ∨ ∃ position, fragment = .indexed position ∧ listed position = some css

/-- Two texts with one fragment are one text, if the hash says so. -/
theorem Marks.text_eq {listed : Nat → Option String} {css css' : String} {fragment : Fragment}
    (h : Marks listed css fragment) (h' : Marks listed css' fragment)
    (hhash : fragment = .ofText css → fragment = .ofText css' → css = css') : css = css' := by
  obtain hc | ⟨p, hp, hat⟩ := h
  · obtain hc' | ⟨p', hp', -⟩ := h'
    · exact hhash hc hc'
    · rw [hc] at hp'
      cases hp'
  · obtain hc' | ⟨p', hp', hat'⟩ := h'
    · rw [hp] at hc'
      cases hc'
    · rw [hp] at hp'
      cases hp'
      exact Option.some.inj (hat.symm.trans hat')

theorem lookup_marks {values : Entries String} {name key css : String} {fragment : Fragment}
    (h : lookup values name key = .ok (css, fragment)) :
    Marks (textAt? values) css fragment := by
  unfold lookup at h
  split at h
  · rename_i position text hfind
    cases h
    exact .inr ⟨position, rfl, by rw [textAt?, Entries.getElem?_of_find? hfind]; rfl⟩
  · cases h

theorem openEnded_marks {listed : Nat → Option String} {text css : String} {fragment : Fragment}
    (h : (.ok (openEnded text) : Except StyleError _) = .ok (css, fragment)) :
    Marks listed css fragment := by
  cases h
  exact .inl rfl

theorem resolveColor_marks {values : Entries String} {name key css : String}
    {fragment : Fragment} (h : resolveColor values name key = .ok (css, fragment)) :
    Marks (textAt? values) css fragment := by
  unfold resolveColor at h
  dsimp only at h
  split at h
  · exact lookup_marks h
  · split at h
    · exact lookup_marks h
    · obtain ⟨⟨color, _⟩, -, h⟩ := bind_eq_ok_iff.1 h
      dsimp only at h
      split at h
      · exact openEnded_marks h
      · cases h

theorem resolveListed_marks {d : PropertyDefinition} {name : String} {value : Literal}
    {css : String} {fragment : Fragment} (h : d.resolveListed name value = .ok (css, fragment)) :
    Marks d.listed? css fragment := by
  unfold resolveListed at h
  unfold listed?
  cases hvalues : d.values with
  | enumerated values =>
      rw [hvalues] at h
      exact lookup_marks h
  | color values =>
      rw [hvalues] at h
      exact resolveColor_marks h
  | arbitrary resolver =>
      rw [hvalues] at h
      dsimp only at h
      split at h
      · exact openEnded_marks h
      · cases h

/-- Whichever way a value resolves, its fragment stands for its text. -/
theorem resolveValue_marks {d : PropertyDefinition} {name : String} {value : Literal}
    {css : String} {fragment : Fragment} (h : d.resolveValue name value = .ok (css, fragment)) :
    Marks d.listed? css fragment := by
  unfold resolveValue at h
  split at h
  · split at h
    · exact openEnded_marks h
    · split at h
      · split at h
        · exact openEnded_marks h
        · cases h
      · exact resolveListed_marks h
  · exact resolveListed_marks h

end PropertyDefinition

namespace Lowering

open PropertyDefinition (Marks)

/-- Resolves a leaf to its CSS text and fragment. -/
def Target.value (target : Target) (l : Literal) : Except StyleError (String × Fragment) :=
  match target with
  | .themed _ name definition => definition.resolveValue name l
  | .typed _ type definition =>
      (definition.resolveValue type l).map fun v => (v.1, .ofText v.1)
  | .raw name =>
      if Text.isBlankText l.key then .error (.invalidCustomProperty name .emptyValue)
      else .ok (l.key, .ofText l.key)

/-- The declarations that a target makes of a CSS text. -/
def Target.declare (target : Target) (css : String) : List Declaration :=
  match target with
  | .themed _ name definition => definition.declarations name css
  | .typed name _ _ => [⟨name, css⟩]
  | .raw name => [⟨name, css⟩]

/-- The CSS text that a target lists at a position. A custom property lists
none. -/
def Target.listed? (target : Target) : Nat → Option String :=
  match target with
  | .themed _ _ definition => definition.listed?
  | .typed _ _ _ => fun _ => none
  | .raw _ => fun _ => none

/-- The name that is hashed for the unit of a custom property. -/
def Target.hashedName? : Target → Option String
  | .themed _ _ _ => none
  | .typed name _ _ => some name
  | .raw name => some name

/-- All that is said of a custom property is said of its name. -/
theorem Target.of_hashedName? {target : Target} {name : String}
    (h : target.hashedName? = some name) :
    target.key = .ofText name ∧ (target.declare = fun css => [⟨name, css⟩]) ∧
      target.listed? = fun _ => none := by
  cases target with
  | themed id name' definition => cases h
  | typed name' type definition =>
      cases h
      exact ⟨rfl, rfl, rfl⟩
  | raw name' =>
      cases h
      exact ⟨rfl, rfl, rfl⟩

theorem Target.themed_or_hashed (target : Target) :
    (∃ id name definition, target = .themed id name definition) ∨
      ∃ name, target.hashedName? = some name := by
  cases target with
  | themed id name definition => exact .inl ⟨id, name, definition, rfl⟩
  | typed name type definition => exact .inr ⟨name, rfl⟩
  | raw name => exact .inr ⟨name, rfl⟩

theorem Target.resolve_eq (target : Target) (l : Literal) :
    target.resolve l = (target.value l).map fun v => ⟨target.declare v.1, v.2⟩ := by
  cases target with
  | themed id name definition =>
      rw [resolve, PropertyDefinition.resolve, value]
      cases definition.resolveValue name l <;> rfl
  | typed name type definition =>
      rw [resolve, value]
      cases definition.resolveValue type l <;> rfl
  | raw name =>
      rw [resolve, value]
      split <;> rfl

theorem Target.value_marks {target : Target} {l : Literal} {css : String} {fragment : Fragment}
    (h : target.value l = .ok (css, fragment)) : Marks target.listed? css fragment := by
  cases target with
  | themed id name definition => exact PropertyDefinition.resolveValue_marks h
  | typed name type definition =>
      obtain ⟨v, -, hv⟩ := map_eq_ok_iff.1 h
      cases hv
      exact .inl rfl
  | raw name =>
      rw [value] at h
      split at h
      · cases h
      · cases h
        exact .inl rfl

/-- A class of a setting, with the text that it sets. -/
theorem ComesFrom.exists_value {theme : Theme} {s : Target × StyleValue} {r : ClassRule}
    (h : ComesFrom theme s r) :
    ∃ name tree leaf css fragment, StyleNode.normalize theme name s.2 = .ok tree ∧
      leaf ∈ tree.leaves [] ∧ s.1.value leaf.2 = .ok (css, fragment) ∧
      r.token = Code.token s.1.key.unit r.conditions fragment ∧
      r.declarations = s.1.declare css := by
  obtain ⟨name, tree, leaf, htree, hleaf, resolved, hres, rfl⟩ := h
  rw [Target.resolve_eq] at hres
  obtain ⟨⟨css, fragment⟩, hvalue, rfl⟩ := map_eq_ok_iff.1 hres
  exact ⟨name, tree, leaf, css, fragment, htree, hleaf, hvalue,
    by rw [classRule, Target.unit_eq], rfl⟩

/-- What a description sets of the theme is as the theme defines it. -/
theorem property?_of_mem_allSettings {theme : Theme} {d : StyleDescription} {id : PropertyId}
    {name : String} {definition : PropertyDefinition} {value : StyleValue}
    (h : (.themed id name definition, value) ∈ Meaning.allSettings theme d) :
    theme.property? id = some (name, definition) := by
  obtain ⟨e, -, h⟩ := List.mem_flatMap.1 h
  unfold Meaning.settings at h
  split at h
  · split at h
    · rename_i setting hsetting
      rw [List.mem_singleton] at h
      subst h
      obtain ⟨hraw, -, -⟩ | ⟨type, definition', htyped, -, -⟩ := customTarget_ok hsetting
      · cases hraw
      · cases htyped
    · cases h
  · split at h
    · obtain ⟨id', -, hid⟩ := List.mem_filterMap.1 h
      obtain ⟨⟨name', definition'⟩, hp, heq⟩ := Option.map_eq_some_iff.1 hid
      cases heq
      exact hp
    · cases h

end Lowering

/-- The names of custom properties that are hashed when a description is
lowered. -/
def hashedNames (theme : Theme) (d : StyleDescription) : Set String :=
  fun name => ∃ s ∈ Meaning.allSettings theme d, s.1.hashedName? = some name

/-- The CSS texts that are hashed when a description is lowered: those of leaves
that no value list has. -/
def hashedTexts (theme : Theme) (d : StyleDescription) : Set String :=
  fun css => ∃ s ∈ Meaning.allSettings theme d, ∃ name tree leaf,
    StyleNode.normalize theme name s.2 = .ok tree ∧ leaf ∈ tree.leaves [] ∧
      s.1.value leaf.2 = .ok (css, .ofText css)

namespace Lowering

/-- Targets with one key declare alike and list the same, unless two hashed names
collide. -/
theorem declare_eq_of_key_eq {theme : Theme} {d e : StyleDescription}
    {s t : Target × StyleValue} (hs : s ∈ Meaning.allSettings theme d)
    (ht : t ∈ Meaning.allSettings theme e)
    (hnames : Set.InjOn hash32 (hashedNames theme d ∪ hashedNames theme e))
    (hkey : s.1.key = t.1.key) :
    s.1.declare = t.1.declare ∧ s.1.listed? = t.1.listed? := by
  obtain ⟨target, value⟩ := s
  obtain ⟨target', value'⟩ := t
  obtain ⟨id, name, definition, rfl⟩ | ⟨name, hname⟩ := target.themed_or_hashed
  · obtain ⟨id', name', definition', rfl⟩ | ⟨name', hname'⟩ := target'.themed_or_hashed
    · cases Fragment.indexed.inj hkey
      have hdefined := property?_of_mem_allSettings hs
      rw [property?_of_mem_allSettings ht] at hdefined
      cases hdefined
      exact ⟨rfl, rfl⟩
    · rw [(Target.of_hashedName? hname').1] at hkey
      cases hkey
  · obtain ⟨hk, hdeclare, hlisted⟩ := Target.of_hashedName? hname
    obtain ⟨id', name', definition', rfl⟩ | ⟨name', hname'⟩ := target'.themed_or_hashed
    · rw [hk] at hkey
      cases hkey
    · obtain ⟨hk', hdeclare', hlisted'⟩ := Target.of_hashedName? hname'
      rw [hk, hk'] at hkey
      obtain rfl := hnames (.inl ⟨_, hs, hname⟩) (.inr ⟨_, ht, hname'⟩)
        (Fragment.hashed.inj hkey)
      exact ⟨hdeclare.trans hdeclare'.symm, hlisted.trans hlisted'.symm⟩

end Lowering

/-- Two class rules with one token have the same conditions and the same
declarations, unless two of the names or two of the texts that were hashed for
them collide. -/
theorem rule_of_token {theme : Theme} {d e : StyleDescription} {f g : RuleForest}
    (hd : lower theme d = .ok f) (he : lower theme e = .ok g)
    (hnames : Set.InjOn hash32 (hashedNames theme d ∪ hashedNames theme e))
    (htexts : Set.InjOn hash32 (hashedTexts theme d ∪ hashedTexts theme e))
    {r s : ClassRule} (hr : r ∈ f.classes) (hs : s ∈ g.classes) (htoken : r.token = s.token) :
    r.conditions = s.conditions ∧ r.declarations = s.declarations := by
  obtain ⟨u, hu, hfrom⟩ := Lowering.mem_classes_lowered hd hr
  obtain ⟨v, hv, hfrom'⟩ := Lowering.mem_classes_lowered he hs
  obtain ⟨name, tree, leaf, css, fragment, htree, hleaf, hvalue, hrtoken, hdecl⟩ :=
    hfrom.exists_value
  obtain ⟨name', tree', leaf', css', fragment', htree', hleaf', hvalue', hstoken, hdecl'⟩ :=
    hfrom'.exists_value
  rw [hrtoken, hstoken] at htoken
  obtain ⟨hkey, hconditions, rfl⟩ := Code.token_injective htoken
  obtain ⟨hdeclare, hlisted⟩ := Lowering.declare_eq_of_key_eq hu hv hnames hkey
  -- the fragment is one; where it is a hash, the texts are told apart by it
  have hmarks := Lowering.Target.value_marks hvalue'
  rw [← hlisted] at hmarks
  have hcss : css = css' := by
    refine (Lowering.Target.value_marks hvalue).text_eq hmarks fun hhash hhash' => ?_
    have hmem : css ∈ hashedTexts theme d :=
      ⟨u, hu, name, tree, leaf, htree, hleaf, by rw [hvalue, hhash]⟩
    have hmem' : css' ∈ hashedTexts theme e :=
      ⟨v, hv, name', tree', leaf', htree', hleaf', by rw [hvalue', hhash']⟩
    exact htexts (.inl hmem) (.inr hmem') (Fragment.hashed.inj (hhash.symm.trans hhash'))
  exact ⟨hconditions, by rw [hdecl, hdecl', hdeclare, hcss]⟩

/-- A theme with one property, to give a custom property its type. -/
def tintTheme : Theme where
  properties := [("tint", .ofValues [("brand", "red")])]
  shorthands := []
  conditions := []
  preludes := []

theorem hashedTexts_literal {theme : Theme} {d : StyleDescription} {target : Lowering.Target}
    {l : Literal} (hd : Meaning.allSettings theme d = [(target, .literal l)]) {text : String}
    {fragment : Fragment} (hvalue : target.value l = .ok (text, fragment)) :
    hashedTexts theme d ⊆ {text} := by
  rintro css ⟨s, hs, name, tree, leaf, htree, hleaf, hcss⟩
  rw [hd, List.mem_singleton] at hs
  subst hs
  cases htree
  rw [StyleNode.leaves, List.mem_singleton] at hleaf
  rw [hleaf, hvalue] at hcss
  cases hcss
  rfl

theorem hashedNames_single {theme : Theme} {d : StyleDescription} {target : Lowering.Target}
    {value : StyleValue} (hd : Meaning.allSettings theme d = [(target, value)]) {name : String}
    (hname : target.hashedName? = some name) : hashedNames theme d ⊆ {name} := by
  rintro n ⟨s, hs, hn⟩
  rw [hd, List.mem_singleton] at hs
  subst hs
  rw [hname] at hn
  exact (Option.some.inj hn).symm

/-- A raw and a typed custom property of one name and text share one class. -/
theorem rule_of_token_raw_typed :
    ∃ f g r s,
      lower tintTheme (.ofList [("--c", .literal (.text "red"))]) = .ok f ∧
      lower tintTheme (.ofList [("--c", .conditional
        [("type", .literal (.text "tint")), ("value", .literal (.text "brand"))])]) = .ok g ∧
      r ∈ f.classes ∧ s ∈ g.classes ∧ r.token = s.token ∧
      r.conditions = s.conditions ∧ r.declarations = s.declarations := by
  have hd : Meaning.allSettings tintTheme (.ofList [("--c", .literal (.text "red"))]) =
      [(.raw "--c", .literal (.text "red"))] := rfl
  have he : Meaning.allSettings tintTheme (.ofList [("--c", .conditional
      [("type", .literal (.text "tint")), ("value", .literal (.text "brand"))])]) =
        [(.typed "--c" "tint" (.ofValues [("brand", "red")]), .literal (.text "brand"))] := rfl
  have hnames := (Set.injOn_singleton hash32 "--c").mono
    (Set.union_subset (hashedNames_single hd rfl) (hashedNames_single he rfl))
  have htexts := (Set.injOn_singleton hash32 "red").mono
    (Set.union_subset (hashedTexts_literal hd rfl) (hashedTexts_literal he rfl))
  refine ⟨_, _, _, _, rfl, rfl, List.mem_singleton.2 rfl, List.mem_singleton.2 rfl, rfl, ?_⟩
  exact rule_of_token rfl rfl hnames htexts (List.mem_singleton.2 rfl)
    (List.mem_singleton.2 rfl) rfl

end AtomicStyles
