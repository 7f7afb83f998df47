import AtomicStyles.Proofs.LayerOrder

/-!
# A theme may grow

Class tokens live in pages that were rendered long ago, so what a theme adds
must not disturb what it has. Further entries at the end of a theme leave every
ordinal as it was, and a description that lowered before lowers to the same
forest after, with one exception that cannot be avoided: a name that the
description uses for something else may be taken. A key that named a variant can
become a condition, and a property can be hidden by a shorthand.

The keys that are looked up as conditions are those of conditional objects. The
tags of a variant are not among them, and neither are the two keys of a typed
custom property.

A sheet names all layers of the theme in its first line, and that line grows.
Nothing else in it does.
-/

namespace AtomicStyles

/-! ## The names that a description uses -/

namespace StyleValue

mutual

/-- The keys of the conditional objects in a value, at any depth. -/
def conditionKeys (theme : Theme) : StyleValue → List String
  | .literal _ => []
  | .conditional entries => entryKeys theme entries

/-- The keys below the tags of a variant. -/
def variantKeys (theme : Theme) : StyleValue → List String
  | .literal _ => []
  | .conditional tags => tagKeys theme tags

/-- The keys of an object and of those below it. -/
def entryKeys (theme : Theme) : List (String × StyleValue) → List String
  | [] => []
  | (key, value) :: es =>
      key ::
        ((if StyleNode.isVariantKey theme key then variantKeys theme value
          else conditionKeys theme value) ++ entryKeys theme es)

/-- The keys of the objects that the tags lead to. -/
def tagKeys (theme : Theme) : List (String × StyleValue) → List String
  | [] => []
  | (_, value) :: es => conditionKeys theme value ++ tagKeys theme es

end

end StyleValue

/-- The value of an entry that is brought into normal form: that of the key `value`
for a typed custom property, and the whole value otherwise. -/
def Lowering.conditionalPart (name : String) (value : StyleValue) : StyleValue :=
  if Css.isCustomName name then
    match typedEntry? value with
    | some (_, inner) => inner
    | none => value
  else value

/-- The keys that lowering a description looks up as conditions. -/
def StyleDescription.conditionKeys (theme : Theme) (d : StyleDescription) : List String :=
  d.entries.flatMap fun e => (Lowering.conditionalPart e.1 e.2).conditionKeys theme

/-! ## Normal forms -/

namespace StyleNode

open StyleValue (conditionKeys variantKeys entryKeys tagKeys)

variable {t t' : Theme}

theorem isVariantKey_congr {key : String} (h : t'.condition? key = t.condition? key) :
    isVariantKey t' key = isVariantKey t key := by
  rw [isVariantKey, isVariantKey, h]

theorem forall_entryKeys {p : String → Prop} {key : String} {value : StyleValue}
    {es : List (String × StyleValue)} (h : ∀ k ∈ entryKeys t ((key, value) :: es), p k) :
    p key ∧
      (∀ k ∈ if isVariantKey t key then variantKeys t value else conditionKeys t value, p k) ∧
      ∀ k ∈ entryKeys t es, p k := by
  rw [entryKeys] at h
  obtain ⟨hkey, hrest⟩ := List.forall_mem_cons.1 h
  exact ⟨hkey, List.forall_mem_append.1 hrest⟩

theorem check_congr {property : String} {entries : List (String × StyleValue)}
    (h : ∀ key ∈ entryKeys t entries, t'.condition? key = t.condition? key) (found : Bool) :
    check t' property found entries = check t property found entries := by
  induction entries generalizing found with
  | nil => rfl
  | cons e es ih =>
      obtain ⟨hkey, -, hes⟩ := forall_entryKeys h
      rw [check, check, isVariantKey_congr hkey]
      simp only [ih hes]

mutual

/-- Themes that agree on the keys of a value give it the same normal form, whatever
it is handed. -/
theorem ofValue_congr {property : String} (value : StyleValue)
    (h : ∀ key ∈ value.conditionKeys t, t'.condition? key = t.condition? key) :
    ofValue t' property value = ofValue t property value := by
  funext scope
  match value with
  | .literal l => rw [ofValue, ofValue]
  | .conditional entries =>
      rw [conditionKeys] at h
      rw [ofValue, ofValue, check_congr h, arms_congr entries h]

theorem arms_congr {property : String} (entries : List (String × StyleValue))
    (h : ∀ key ∈ entryKeys t entries, t'.condition? key = t.condition? key) :
    arms t' property entries = arms t property entries := by
  match entries with
  | [] => rw [arms, arms]
  | (key, value) :: es =>
      obtain ⟨hkey, hvalue, hes⟩ := forall_entryKeys h
      rw [arms.eq_def, arms.eq_def t]
      dsimp only
      rw [hkey, arms_congr es hes]
      by_cases hvariant : isVariantKey t key
      · rw [if_pos hvariant] at hvalue
        obtain ⟨hdefault, hnone, hflag⟩ := isVariantKey_iff.1 hvariant
        rw [if_neg hdefault, if_neg hdefault, hnone, hflag]
        match value with
        | .literal l => rfl
        | .conditional tags =>
            rw [variantKeys] at hvalue
            dsimp only
            rw [tagArms_congr key tags hvalue]
            rfl
      · rw [if_neg hvariant] at hvalue
        rw [ofValue_congr value hvalue]
        -- under any other key there are no tags
        split
        · rfl
        · next hdefault =>
            split
            · rfl
            · rfl
            · next hnone =>
                cases hflag : isFlagName key with
                | true => rfl
                | false => exact absurd (isVariantKey_iff.2 ⟨hdefault, hnone, hflag⟩) hvariant

theorem tagArms_congr {property : String} (name : String) (tags : List (String × StyleValue))
    (h : ∀ key ∈ tagKeys t tags, t'.condition? key = t.condition? key) :
    tagArms t' property name tags = tagArms t property name tags := by
  match tags with
  | [] => rw [tagArms, tagArms]
  | (tag, value) :: es =>
      rw [tagKeys] at h
      obtain ⟨hvalue, hes⟩ := List.forall_mem_append.1 h
      rw [tagArms, tagArms, ofValue_congr value hvalue, tagArms_congr name es hes]

end

end StyleNode

/-! ## Lookups in a grown theme -/

namespace Theme.Grown

variable {t t' : Theme} {conditionNames shorthandNames : List String}

theorem propertyId? (h : t.Grown t' conditionNames shorthandNames) {name : String}
    {id : PropertyId} (hid : t.propertyId? name = some id) : t'.propertyId? name = some id := by
  obtain ⟨added, hadded⟩ := h.properties
  obtain ⟨hit, hfind, rfl⟩ := Option.map_eq_some_iff.1 hid
  rw [Theme.propertyId?, hadded, Entries.find?_append_of_some hfind]
  rfl

theorem property? (h : t.Grown t' conditionNames shorthandNames) {id : PropertyId}
    {p : String × PropertyDefinition} (hp : t.property? id = some p) :
    t'.property? id = some p := by
  obtain ⟨added, hadded⟩ := h.properties
  rw [Theme.property?, hadded, List.getElem?_append_left (List.getElem?_eq_some_iff.1 hp).1]
  exact hp

theorem get?_properties (h : t.Grown t' conditionNames shorthandNames) {name : String}
    {definition : PropertyDefinition} (hget : t.properties.get? name = some definition) :
    t'.properties.get? name = some definition := by
  obtain ⟨added, hadded⟩ := h.properties
  rw [hadded, Entries.get?_append, hget]
  rfl

theorem condition? (h : t.Grown t' conditionNames shorthandNames) {name : String}
    (hname : name ∉ conditionNames) : t'.condition? name = t.condition? name := by
  obtain ⟨added, hadded, rfl⟩ := h.conditions
  rw [Theme.condition?, hadded, Entries.get?_append, Entries.get?_eq_none_iff.2 hname]
  exact Option.or_none

/-- The name of a shorthand or property means what it meant, unless a new shorthand
takes it. -/
theorem expand (h : t.Grown t' conditionNames shorthandNames) {name : String}
    {ids : List PropertyId} (hids : t.expand name = .ok ids) (hname : name ∉ shorthandNames) :
    t'.expand name = .ok ids := by
  obtain ⟨added, hadded, rfl⟩ := h.shorthands
  have hget : t'.shorthands.get? name = t.shorthands.get? name := by
    rw [hadded, Entries.get?_append, Entries.get?_eq_none_iff.2 hname]
    exact Option.or_none
  unfold Theme.expand at hids ⊢
  rw [hget]
  split
  · next longhands hlonghands =>
      rw [hlonghands] at hids
      exact hids
  · next hnone =>
      rw [hnone] at hids
      dsimp only at hids
      split at hids
      · next id hid =>
          rw [h.propertyId? hid]
          exact hids
      · cases hids

theorem prelude? (h : t.Grown t' conditionNames shorthandNames) {id : ConditionId}
    (hid : id < t.preludes.length) : t'.prelude? id = t.prelude? id := by
  obtain ⟨added, hadded⟩ := h.preludes
  rw [Theme.prelude?, hadded, List.getElem?_append_left hid]
  rfl

/-! ## Lowering -/

theorem customTarget (h : t.Grown t' conditionNames shorthandNames) {name : String}
    {value inner : StyleValue} {target : Lowering.Target}
    (htarget : Lowering.customTarget t name value = .ok (target, inner)) :
    Lowering.customTarget t' name value = .ok (target, inner) := by
  obtain ⟨rfl, hentry, rfl⟩ | ⟨type, definition, rfl, hentry, htype⟩ :=
    Lowering.customTarget_ok htarget
  · rw [Lowering.customTarget, hentry]
  · rw [Lowering.customTarget, hentry]
    dsimp only
    rw [h.get?_properties htype]

end Theme.Grown

theorem Lowering.conditionalPart_of_customTarget {t : Theme} {name : String}
    {value inner : StyleValue} {target : Target} (hname : Css.isCustomName name)
    (h : customTarget t name value = .ok (target, inner)) :
    conditionalPart name value = inner := by
  obtain ⟨-, hentry, rfl⟩ | ⟨type, definition, -, hentry, -⟩ := customTarget_ok h
  · rw [conditionalPart, if_pos hname, hentry]
  · rw [conditionalPart, if_pos hname, hentry]

namespace Theme.Grown

variable {t t' : Theme} {conditionNames shorthandNames : List String}

theorem normalize (h : t.Grown t' conditionNames shorthandNames) (property : String)
    {value : StyleValue} (hvalue : ∀ name ∈ conditionNames, name ∉ value.conditionKeys t) :
    StyleNode.normalize t' property value = StyleNode.normalize t property value :=
  congrFun (StyleNode.ofValue_congr value fun key hkey =>
    h.condition? fun hname => hvalue key hname hkey) []

/-- An entry of a description keeps its groups. -/
theorem entry (h : t.Grown t' conditionNames shorthandNames) {name : String}
    {value : StyleValue} {groups : List PropertyRules}
    (hgroups : Lowering.entry t name value = .ok groups)
    (hvalue : ∀ key ∈ conditionNames, key ∉ (Lowering.conditionalPart name value).conditionKeys t)
    (hname : name ∉ shorthandNames) : Lowering.entry t' name value = .ok groups := by
  by_cases hcustom : Css.isCustomName name
  · obtain ⟨target, inner, tree, rules, htarget, htree, hrules, rfl⟩ :=
      (Lowering.entry_custom_ok_iff hcustom).1 hgroups
    rw [Lowering.conditionalPart_of_customTarget hcustom htarget] at hvalue
    rw [← h.normalize name hvalue] at htree
    exact (Lowering.entry_custom_ok_iff hcustom).2
      ⟨target, inner, tree, rules, h.customTarget htarget, htree, hrules, rfl⟩
  · obtain ⟨ids, tree, hids, htree, hlowered⟩ := (Lowering.entry_themed_ok_iff hcustom).1 hgroups
    rw [Lowering.conditionalPart, if_neg hcustom] at hvalue
    rw [← h.normalize name hvalue] at htree
    refine (Lowering.entry_themed_ok_iff hcustom).2
      ⟨ids, tree, h.expand hids hname, htree, hlowered.imp fun id g hg => ?_⟩
    obtain ⟨p, rules, hp, hrules, rfl⟩ := hg
    exact ⟨p, rules, h.property? hp, hrules, rfl⟩

/-- A description keeps its forest. -/
theorem lower (h : t.Grown t' conditionNames shorthandNames) {d : StyleDescription}
    {f : RuleForest} (hd : AtomicStyles.lower t d = .ok f)
    (hkeys : ∀ name ∈ conditionNames, name ∉ d.conditionKeys t)
    (hentries : ∀ name ∈ shorthandNames, name ∉ d.entries.keys) :
    AtomicStyles.lower t' d = .ok f := by
  obtain ⟨groups, hgroups, rfl⟩ := Lowering.lower_ok_iff.1 hd
  have hall := (List.forall₂_and_left _ _).2 ⟨fun e (he : e ∈ d.entries) => he, hgroups⟩
  refine Lowering.lower_ok_iff.2 ⟨groups, hall.imp fun e gs hgs => ?_, rfl⟩
  obtain ⟨he, hgs⟩ := hgs
  exact h.entry hgs (fun name hname hkey => hkeys name hname (List.mem_flatMap.2 ⟨e, he, hkey⟩))
    fun hname => hentries _ hname (List.mem_map_of_mem he)

/-! ## Writing -/

theorem openings (h : t.Grown t' conditionNames shorthandNames) {ids : List ConditionId}
    (hids : ∀ id ∈ ids, id < t.preludes.length) (level : Nat) :
    Sheet.openings t' level ids = Sheet.openings t level ids := by
  induction ids generalizing level with
  | nil => rfl
  | cons id ids ih =>
      obtain ⟨hid, hids⟩ := List.forall_mem_cons.1 hids
      rw [Sheet.openings, Sheet.openings, h.prelude? hid, ih hids]

/-- Below the first line a sheet stays as it is. -/
theorem body (h : t.Grown t' conditionNames shorthandNames) {rules : List ClassRule}
    (hrules : ∀ r ∈ rules, ∀ id ∈ r.conditions, id < t.preludes.length) :
    Sheet.body t' rules = Sheet.body t rules := by
  rw [Sheet.body, Sheet.body]
  refine congrArg String.join (List.map_congr_left fun b hb => ?_)
  obtain ⟨r, hr, hconditions⟩ := Sheet.exists_rule_of_block hb
  rw [Sheet.Block.text, Sheet.Block.text, h.openings (hconditions ▸ hrules r hr)]

end Theme.Grown

/-! ## The first line of a sheet -/

/-- The layers of a theme are declared in one line. -/
theorem Theme.layerDeclaration_one_line (t : Theme) : '\n' ∉ t.layerDeclaration.toList := by
  have hnames : '\n' ∉ (", ".intercalate t.layerNames).toList := fun hmem => by
    rcases t.mem_layerNames_text '\n' hmem with hunit | hcomma | hspace
    · exact absurd hunit (by decide)
    · exact absurd hcomma (by decide)
    · exact absurd hspace (by decide)
  rw [Theme.layerDeclaration, String.toList_append, String.toList_append]
  simp only [List.mem_append, not_or]
  exact ⟨⟨by decide, hnames⟩, by decide⟩

/-- Entries added at the end of a theme change no token. A description that lowered
before lowers to the same forest, with the same procedure, as long as no new
condition takes a key that it looks up and no new shorthand takes the name of an
entry. A new compiler writes the same sheet apart from its first line, which
declares the layers. -/
theorem theme_growth_keeps_tokens {calls more : List ThemeCall} {t t' : Theme}
    (ht : (ThemeCall.draft calls).build = .ok t)
    (ht' : (ThemeCall.draft (calls ++ more)).build = .ok t')
    {d : StyleDescription} {f : RuleForest} (hd : lower t d = .ok f)
    (hkeys : ∀ name ∈ ThemeCall.conditionNames more, name ∉ d.conditionKeys t)
    (hentries : ∀ name ∈ ThemeCall.shorthandNames more, name ∉ d.entries.keys) :
    lower t' d = .ok f ∧
    ∃ c style c' style',
      (StyleCompiler.new t).compile d = .ok (c, style) ∧
      (StyleCompiler.new t').compile d = .ok (c', style') ∧
      style.rules = f ∧ style'.rules = f ∧ style'.procedure = style.procedure ∧
      '\n' ∉ t.layerDeclaration.toList ∧ '\n' ∉ t'.layerDeclaration.toList ∧
      (style.css = "" ∧ style'.css = "" ∨
        ∃ body, style.css = t.layerDeclaration ++ "\n" ++ body ∧
          style'.css = t'.layerDeclaration ++ "\n" ++ body) := by
  have hgrown := Theme.grown_build ht ht'
  have hd' : lower t' d = .ok f := hgrown.lower hd hkeys hentries
  refine ⟨hd', (StyleCompiler.new t).after f, (StyleCompiler.new t).style f,
    (StyleCompiler.new t').after f, (StyleCompiler.new t').style f,
    StyleCompiler.compile_ok hd, StyleCompiler.compile_ok hd', rfl, rfl, rfl,
    t.layerDeclaration_one_line, t'.layerDeclaration_one_line, ?_⟩
  -- both emitters are new, so both sheets have the same rules
  let rules := (CssEmitter.empty.fresh f.classes).2
  show Sheet.text t rules = "" ∧ Sheet.text t' rules = "" ∨ _
  by_cases hrules : rules = []
  · exact .inl ⟨Sheet.text_eq_empty_iff.2 hrules, Sheet.text_eq_empty_iff.2 hrules⟩
  · have hrange := (Theme.inRange_build ht).classes hd
    have hbody : Sheet.body t' rules = Sheet.body t rules :=
      hgrown.body fun r hr => hrange r ((CssEmitter.fresh_sublist _ f.classes).subset hr)
    exact .inr ⟨_, Sheet.text_of_ne_nil t hrules, hbody ▸ Sheet.text_of_ne_nil t' hrules⟩

/-- Calls that add a property, a condition and a shorthand. -/
def boxAdditions : List ThemeCall :=
  [.condition "wide" "@media (min-width: 60rem)",
   .property "marginTop" (.ofValues [("none", "0")]),
   .shorthand "spacing" ["paddingTop", "marginTop"]]

/-- A box whose padding depends on a theme condition and on the tag of a variant. -/
def paddedBox : StyleDescription :=
  .ofList [("paddingY", .conditional
    [("default", .literal (.text "small")), ("dark", .literal (.text "large")),
     ("size", .conditional [("wide", .literal (.text "large"))])])]

/-- The condition `wide` is new, and the tag of that name stays a tag. -/
theorem theme_growth_keeps_tokens_box :
    (∃ t', (ThemeCall.draft (boxCalls ++ boxAdditions)).build = .ok t' ∧
      ∃ f, lower boxTheme paddedBox = .ok f ∧ lower t' paddedBox = .ok f ∧ f.tokens ≠ [] ∧
        t'.condition? "wide" = some (.theme 1)) ∧
    paddedBox.conditionKeys boxTheme = ["default", "dark", "size"] := by
  have hkeys : paddedBox.conditionKeys boxTheme = ["default", "dark", "size"] := rfl
  have hgrown : (ThemeCall.draft (boxCalls ++ boxAdditions)).build = .ok _ := rfl
  have hkept := theme_growth_keeps_tokens boxCalls_build hgrown (d := paddedBox) rfl
    (by decide) (by decide)
  exact ⟨⟨_, hgrown, _, rfl, hkept.1, by decide, rfl⟩, hkeys⟩

end AtomicStyles
