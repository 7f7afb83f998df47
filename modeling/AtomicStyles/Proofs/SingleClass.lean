import AtomicStyles.Proofs.LoweredClasses
import AtomicStyles.Proofs.NormalForm

/-!
# Every class can be described alone

A class of a forest is the leaf of some entry under some theme conditions. The
same literal, nested under the same conditions and nothing else, is again a
value of that entry. So each class has a description that gives it and no other
class of its property.

Two things have to be seen. The conditions of a leaf have names in the theme,
because each stands in the normal form only when a key of the description named
it. And nesting them in ascending order builds the list that they had.
-/

namespace AtomicStyles

open Lowering (Target)

/-- A condition of the theme can be written as the key of an object. -/
def Theme.Names (theme : Theme) (key : String) (id : ConditionId) : Prop :=
  key ≠ "default" ∧ theme.condition? key = some (.theme id)

/-- A condition that a description can write. Only those of the theme are in
question. -/
def BranchCondition.Named (theme : Theme) : BranchCondition → Prop
  | .theme id => ∃ key, theme.Names key id
  | _ => True

namespace StyleNode

open Meaning (Way ways handedDown undeclared waysSize)

/-! ## The conditions of a leaf have names -/

theorem named_entryWays {theme : Theme} {key : String} {value : StyleValue} {w : Way}
    (h : w ∈ Meaning.entryWays theme key value) : w.1.Named theme := by
  unfold Meaning.entryWays at h
  split at h
  · rw [List.mem_singleton.1 h]
    trivial
  · rename_i hdefault
    split at h
    · rename_i id hid
      rw [List.mem_singleton.1 h]
      exact ⟨key, hdefault, hid⟩
    · rw [List.mem_singleton.1 h]
      trivial
    · split at h
      · rw [List.mem_singleton.1 h]
        trivial
      · split at h
        · obtain ⟨t, -, rfl⟩ := List.mem_map.1 h
          dsimp only
          unfold Meaning.tagCondition
          split <;> trivial
        · cases h

theorem named_ways {theme : Theme} {entries : List (String × StyleValue)} {w : Way}
    (h : w ∈ ways theme entries) : w.1.Named theme := by
  obtain ⟨e, -, he⟩ := List.mem_flatMap.1 h
  exact named_entryWays he

/-- Whatever holds of the conditions of all ways holds of all conditions of a
normal form. The induction is on the size of the value and of what is handed to
it, as for the interpreter. -/
theorem each_ofValue {theme : Theme} {property : String} {p : BranchCondition → Prop}
    (hways : ∀ entries, ∀ w ∈ ways theme entries, p w.1) (size : Nat) :
    ∀ (value : StyleValue) (inherited : List Way) (tree : StyleNode),
      value.size + waysSize inherited ≤ size → (∀ w ∈ inherited, p w.1) →
      ofValue theme property value (settle theme property inherited) = .ok tree →
      tree.Each p := by
  induction size with
  | zero =>
      intro value inherited tree hsize
      cases value <;> rw [StyleValue.size] at hsize <;> omega
  | succ size ih =>
      intro value inherited tree hsize hinherited h
      cases value with
      | literal l =>
          rw [ofValue_literal_ok_iff.1 h]
          trivial
      | conditional entries =>
          rw [StyleValue.size] at hsize
          have hown := Meaning.waysSize_ways_le theme entries
          obtain ⟨-, bs, rest, hbs, hrest, rfl⟩ := ofValue_conditional_ok_iff.1 h
          refine eachBranch_iff.2 fun b hb => ?_
          rcases List.mem_append.1 hb with hb | hb
          · obtain ⟨w, hw, hc, hn⟩ := exists_of_forall₂_right hbs hb
            refine ⟨hc ▸ hways entries w hw, ?_⟩
            -- only a way that the state decides takes along what is handed down
            by_cases hd : w.1.isDynamic
            · rw [handedTo, if_pos hd] at hn
              have hlt := Meaning.waysSize_handedDown_lt hw hd inherited
              refine ih w.2 _ b.2 (by omega) (fun v hv => ?_) hn
              exact (mem_of_mem_handedDown hv).elim (hways entries v) (hinherited v)
            · rw [handedTo, if_neg hd] at hn
              have hlt := Meaning.size_lt_waysSize hw
              refine ih w.2 [] b.2 ?_ (by simp) hn
              rw [Meaning.waysSize_nil]
              omega
          · obtain ⟨w, hw, hc, hn⟩ := exists_of_forall₂_right hrest hb
            have hmem := (List.mem_filter.1 hw).1
            have hlt := Meaning.size_lt_waysSize hmem
            refine ⟨hc ▸ hinherited w hmem, ih w.2 [] b.2 ?_ (by simp) hn⟩
            rw [Meaning.waysSize_nil]
            omega

theorem named_within {theme : Theme} {c : BranchCondition} (h : c.Named theme)
    (active : List ConditionId) (hactive : ∀ id ∈ active, ∃ key, theme.Names key id) :
    ∀ id ∈ c.within active, ∃ key, theme.Names key id := by
  cases c with
  | theme id =>
      intro id' hid'
      rcases Lowering.mem_activate.1 hid' with rfl | hid'
      · exact h
      · exact hactive id' hid'
  | fallback => exact hactive
  | flag name => exact hactive
  | variant name tag => exact hactive

/-- The conditions that a leaf of a description stands under have names, in the
order of the conditions. -/
theorem exists_keys {theme : Theme} {property : String} {value : StyleValue} {tree : StyleNode}
    (h : normalize theme property value = .ok tree) {leaf : List ConditionId × Literal}
    (hleaf : leaf ∈ tree.leaves []) :
    ∃ keys, List.Forall₂ theme.Names keys leaf.1 := by
  have hnamed : tree.Each (BranchCondition.Named theme) :=
    each_ofValue (fun _ _ => named_ways) _ value [] tree (Nat.le_refl _) (by simp) h
  have hkeys : ∀ id ∈ leaf.1, ∃ key, theme.Names key id :=
    leaves_of_within (fun _ => named_within) tree hnamed (by simp) leaf hleaf
  generalize leaf.1 = ids at hkeys
  induction ids with
  | nil => exact ⟨[], .nil⟩
  | cons id ids ih =>
      obtain ⟨⟨key, hkey⟩, hids⟩ := List.forall_mem_cons.1 hkeys
      obtain ⟨keys, hrest⟩ := ih hids
      exact ⟨key :: keys, .cons hkey hrest⟩

end StyleNode

/-! ## A value under some conditions -/

/-- A value under keys, the first of them outermost. -/
def StyleValue.under (value : StyleValue) : List String → StyleValue
  | [] => value
  | key :: keys => .conditional [(key, under value keys)]

theorem StyleValue.typedEntry?_under (value : StyleValue) {keys : List String} (h : keys ≠ []) :
    Lowering.typedEntry? (value.under keys) = none := by
  cases keys with
  | nil => exact absurd rfl h
  | cons key keys =>
      rw [under, Lowering.typedEntry?]
      split
      · rw [if_neg (by simp)]
      · rfl

namespace StyleNode

/-- A normal form under theme conditions, the first of them outermost. -/
def under (tree : StyleNode) : List ConditionId → StyleNode
  | [] => tree
  | id :: ids => .branching [(.theme id, under tree ids)]

theorem normalize_theme_ok_iff {theme : Theme} {key : String} {id : ConditionId}
    (h : theme.Names key id) {property : String} {value : StyleValue} {tree : StyleNode} :
    normalize theme property (.conditional [(key, value)]) = .ok tree ↔
      ∃ inner, normalize theme property value = .ok inner ∧
        tree = .branching [(.theme id, inner)] := by
  obtain ⟨hdefault, hid⟩ := h
  have hways : Meaning.ways theme [(key, value)] = [(.theme id, value)] := by
    simp [Meaning.ways, Meaning.entryWays, hdefault, hid]
  have hcheck : check theme property (Entries.has [(key, value)] "default") [(key, value)] =
      .ok () := by
    simp [check, isVariantKey, hid]
  have hobject := @ofValue_conditional_ok_iff theme property [(key, value)] [] tree
  rw [hways] at hobject
  refine hobject.trans ⟨?_, ?_⟩
  · rintro ⟨-, bs, rest, hbs, hrest, rfl⟩
    obtain ⟨b, more, ⟨hc, hn⟩, hmore, rfl⟩ := List.forall₂_cons_left_iff.1 hbs
    rw [List.forall₂_nil_left_iff.1 hmore, List.forall₂_nil_left_iff.1 hrest]
    exact ⟨b.2, hn, congrArg (fun c => StyleNode.branching [(c, b.2)]) hc⟩
  · rintro ⟨inner, hinner, rfl⟩
    exact ⟨hcheck, [(.theme id, inner)], [], .cons ⟨rfl, hinner⟩ .nil, .nil, rfl⟩

/-- Conditions around a value stand around its normal form, and nothing else
changes. -/
theorem normalize_under_ok_iff {theme : Theme} {keys : List String} {ids : List ConditionId}
    (h : List.Forall₂ theme.Names keys ids) {property : String} {value : StyleValue}
    {tree : StyleNode} :
    normalize theme property (value.under keys) = .ok tree ↔
      ∃ inner, normalize theme property value = .ok inner ∧ tree = inner.under ids := by
  induction h generalizing tree with
  | nil => simp [StyleValue.under, under]
  | cons hkey _ ih =>
      rw [StyleValue.under, normalize_theme_ok_iff hkey]
      simp only [ih]
      constructor
      · rintro ⟨-, ⟨inner, hinner, rfl⟩, rfl⟩
        exact ⟨inner, hinner, rfl⟩
      · rintro ⟨inner, hinner, rfl⟩
        exact ⟨_, ⟨inner, hinner, rfl⟩, rfl⟩

end StyleNode

/-- A literal under keys, the first of them outermost. -/
def StyleValue.nested : List String → Literal → StyleValue
  | [], l => .literal l
  | key :: keys, l => .conditional [(key, nested keys l)]

theorem StyleValue.nested_eq_under (keys : List String) (l : Literal) :
    nested keys l = under (.literal l) keys := by
  induction keys with
  | nil => rfl
  | cons key keys ih => rw [nested, under, ih]

theorem StyleValue.nested_distinct (keys : List String) (l : Literal) :
    (nested keys l).Distinct := by
  induction keys with
  | nil => trivial
  | cons key keys ih => exact ⟨by simp [Entries.Distinct, Entries.keys], ih, trivial⟩

theorem StyleValue.typedEntry?_nested (keys : List String) (l : Literal) :
    Lowering.typedEntry? (nested keys l) = none := by
  by_cases h : keys = []
  · rw [h]
    rfl
  · rw [nested_eq_under, typedEntry?_under _ h]

namespace StyleNode

/-- A leaf under theme conditions, the first of them outermost. -/
def nested : List ConditionId → Literal → StyleNode
  | [], l => .leaf l
  | id :: ids, l => .branching [(.theme id, nested ids l)]

theorem nested_eq_under (ids : List ConditionId) (l : Literal) :
    nested ids l = under (.leaf l) ids := by
  induction ids with
  | nil => rfl
  | cons id ids ih => rw [nested, under, ih]

theorem normalize_nested {theme : Theme} {keys : List String} {ids : List ConditionId}
    (h : List.Forall₂ theme.Names keys ids) (property : String) (l : Literal) :
    normalize theme property (.nested keys l) = .ok (nested ids l) := by
  rw [StyleValue.nested_eq_under, nested_eq_under]
  exact (normalize_under_ok_iff h).2 ⟨.leaf l, ofValue_literal_ok_iff.2 rfl, rfl⟩

end StyleNode

namespace Lowering

theorem activate_of_lt {id : ConditionId} {active : List ConditionId}
    (h : ∀ c ∈ active, c < id) : activate id active = active ++ [id] := by
  induction active with
  | nil => rfl
  | cons c cs ih =>
      obtain ⟨hc, hcs⟩ := List.forall_mem_cons.1 h
      rw [activate, if_neg (Nat.not_lt.2 (Nat.le_of_lt hc)), if_neg (Nat.ne_of_gt hc), ih hcs,
        List.cons_append]

/-- Conditions nested in ascending order give one class under just these
conditions. -/
theorem node_nested {target : Target} {l : Literal} {resolved : ResolvedValue}
    (hres : target.resolve l = .ok resolved) (active : List ConditionId)
    {ids : List ConditionId} (h : (active ++ ids).Pairwise (· < ·)) :
    ∃ rules, node target active (.nested ids l) = .ok rules ∧
      Rule.allClasses rules = [classRule target (active ++ ids) resolved] := by
  induction ids generalizing active with
  | nil =>
      refine ⟨_, node_leaf_ok_iff.2 ⟨resolved, hres, rfl⟩, ?_⟩
      rw [allClasses_leafRule, List.append_nil]
  | cons id ids ih =>
      have hlt : ∀ c ∈ active, c < id := fun c hc =>
        (List.pairwise_append.1 h).2.2 c hc id List.mem_cons_self
      have hassoc : active ++ id :: ids = (active ++ [id]) ++ ids := by simp
      rw [hassoc] at h ⊢
      obtain ⟨rules, hrules, hclasses⟩ := ih _ h
      rw [StyleNode.nested, node]
      refine ⟨_, branches_cons_ok_iff.2 ⟨rules, [], ?_, rfl, rfl⟩, ?_⟩
      · rw [BranchCondition.within, activate_of_lt hlt]
        exact hrules
      · rw [allClasses_branchRule, hclasses]
        rfl

/-- A class is the only one of its property. -/
def Alone (r : ClassRule) (rules : List ClassRule) : Prop :=
  r ∈ rules ∧ ∀ s ∈ rules, Code.propertyUnit? s.token = Code.propertyUnit? r.token → s = r

theorem key_eq_of_propertyUnit? {s t : Target} {active : List ConditionId}
    {resolved resolved' : ResolvedValue}
    (h : Code.propertyUnit? (classRule s active resolved).token =
      Code.propertyUnit? (classRule t active resolved').token) : s.key = t.key := by
  rw [classRule, classRule, Target.unit_eq, Target.unit_eq, Code.propertyUnit?_token,
    Code.propertyUnit?_token, Option.some.injEq, String.ofList_inj] at h
  exact Code.unit_injective h

/-- The group of a property that holds one leaf and nothing else. -/
def HoldsLeaf (theme : Theme) (leaf : List ConditionId × Literal) (id : PropertyId)
    (g : PropertyRules) : Prop :=
  ∃ p resolved, theme.property? id = some p ∧
    (Target.themed id p.1 p.2).resolve leaf.2 = .ok resolved ∧
    Rule.allClasses g.rules = [classRule (.themed id p.1 p.2) leaf.1 resolved]

theorem lowered_leaf {theme : Theme} {tree : StyleNode} {leaf : List ConditionId × Literal}
    (hleaf : leaf ∈ tree.leaves []) {ids : List PropertyId} {groups : List PropertyRules}
    (h : List.Forall₂ (Lowered theme tree) ids groups) :
    ∃ singles,
      List.Forall₂ (Lowered theme (.nested leaf.1 leaf.2)) ids singles ∧
      List.Forall₂ (HoldsLeaf theme leaf) ids singles := by
  induction h with
  | nil => exact ⟨[], .nil, .nil⟩
  | cons hg _ ih =>
      obtain ⟨singles, hlowered, hholds⟩ := ih
      obtain ⟨p, rules, hp, hrules, rfl⟩ := hg
      obtain ⟨r, -, resolved, hres, -⟩ :=
        exists_of_forall₂_left (allClasses_lowered tree hrules) hleaf
      have hascending := StyleNode.leaves_ascending tree .nil leaf hleaf
      obtain ⟨own, hown, hclasses⟩ := node_nested hres [] hascending
      exact ⟨_, .cons ⟨p, own, hp, hown, rfl⟩ hlowered,
        .cons ⟨p, resolved, hp, hres, hclasses⟩ hholds⟩

/-- In the groups of one leaf a class is alone with its property. -/
theorem alone_of_holdsLeaf {theme : Theme} {leaf : List ConditionId × Literal}
    {ids : List PropertyId} {singles : List PropertyRules}
    (h : List.Forall₂ (HoldsLeaf theme leaf) ids singles) {id : PropertyId} (hid : id ∈ ids)
    {p : String × PropertyDefinition} (hp : theme.property? id = some p)
    {resolved : ResolvedValue} (hres : (Target.themed id p.1 p.2).resolve leaf.2 = .ok resolved) :
    Alone (classRule (.themed id p.1 p.2) leaf.1 resolved)
      (singles.flatMap fun g => Rule.allClasses g.rules) := by
  have same : ∀ g, HoldsLeaf theme leaf id g →
      Rule.allClasses g.rules = [classRule (.themed id p.1 p.2) leaf.1 resolved] := by
    rintro g ⟨p', resolved', hp', hres', hclasses⟩
    rw [hp] at hp'
    cases hp'
    rw [hres] at hres'
    cases hres'
    exact hclasses
  constructor
  · obtain ⟨g, hg, hholds⟩ := exists_of_forall₂_left h hid
    exact List.mem_flatMap.2 ⟨g, hg, by rw [same g hholds]; exact List.mem_singleton.2 rfl⟩
  · intro s hs hunit
    obtain ⟨g, hg, hs⟩ := List.mem_flatMap.1 hs
    obtain ⟨id', -, hholds⟩ := exists_of_forall₂_right h hg
    obtain ⟨p', resolved', hp', hres', hclasses⟩ := hholds
    rw [hclasses, List.mem_singleton] at hs
    rw [hs] at hunit
    cases Code.Fragment.indexed.inj (key_eq_of_propertyUnit? hunit)
    have hsame := same g ⟨p', resolved', hp', hres', hclasses⟩
    rw [hclasses, List.singleton_inj] at hsame
    rw [hs, hsame]

/-! ## An entry and a description for one class -/

/-- A value that gives an entry this class and no other of its property. -/
def Singled (theme : Theme) (name : String) (r : ClassRule) : Prop :=
  ∃ value groups, value.Distinct ∧ entry theme name value = .ok groups ∧
    Alone r (groups.flatMap fun g => Rule.allClasses g.rules)

theorem singled_themed {theme : Theme} {name : String} {value : StyleValue}
    {groups : List PropertyRules} (hname : ¬ Css.isCustomName name)
    (h : entry theme name value = .ok groups) {g : PropertyRules} (hg : g ∈ groups)
    {r : ClassRule} (hr : r ∈ Rule.allClasses g.rules) : Singled theme name r := by
  obtain ⟨ids, tree, hids, htree, hgroups⟩ := (entry_themed_ok_iff hname).1 h
  obtain ⟨id, hid, p, rules, hp, hrules, rfl⟩ := exists_of_forall₂_right hgroups hg
  obtain ⟨leaf, hleaf, resolved, hres, rfl⟩ :=
    exists_of_forall₂_right (allClasses_lowered tree hrules) hr
  obtain ⟨keys, hkeys⟩ := StyleNode.exists_keys htree hleaf
  obtain ⟨singles, hlowered, hholds⟩ := lowered_leaf hleaf hgroups
  refine ⟨.nested keys leaf.2, singles, StyleValue.nested_distinct keys leaf.2, ?_,
    alone_of_holdsLeaf hholds hid hp hres⟩
  exact (entry_themed_ok_iff hname).2
    ⟨ids, _, hids, StyleNode.normalize_nested hkeys name leaf.2, hlowered⟩

/-- A custom property takes any nested literal, raw or with the type that it
had. -/
theorem customTarget_nested {theme : Theme} {name : String} {value inner : StyleValue}
    {target : Target} (h : customTarget theme name value = .ok (target, inner))
    (keys : List String) (l : Literal) :
    ∃ single : StyleValue, single.Distinct ∧
      customTarget theme name single = .ok (target, .nested keys l) := by
  obtain ⟨rfl, -, -⟩ | ⟨type, definition, rfl, -, htype⟩ := customTarget_ok h
  · refine ⟨.nested keys l, StyleValue.nested_distinct keys l, ?_⟩
    rw [customTarget, StyleValue.typedEntry?_nested]
  · refine ⟨.conditional [("type", .literal (.text type)), ("value", .nested keys l)], ?_, ?_⟩
    · exact ⟨by simp [Entries.Distinct, Entries.keys], trivial,
        StyleValue.nested_distinct keys l, trivial⟩
    · have htyped : Lowering.typedEntry?
          (.conditional [("type", .literal (.text type)), ("value", .nested keys l)]) =
            some (.literal (.text type), .nested keys l) := rfl
      rw [customTarget, htyped]
      dsimp only
      rw [htype]

theorem singled_custom {theme : Theme} {name : String} {value : StyleValue}
    {groups : List PropertyRules} (hname : Css.isCustomName name)
    (h : entry theme name value = .ok groups) {g : PropertyRules} (hg : g ∈ groups)
    {r : ClassRule} (hr : r ∈ Rule.allClasses g.rules) : Singled theme name r := by
  obtain ⟨target, inner, tree, rules, htarget, htree, hrules, rfl⟩ :=
    (entry_custom_ok_iff hname).1 h
  rw [List.mem_singleton.1 hg] at hr
  obtain ⟨leaf, hleaf, resolved, hres, rfl⟩ :=
    exists_of_forall₂_right (allClasses_lowered tree hrules) hr
  obtain ⟨keys, hkeys⟩ := StyleNode.exists_keys htree hleaf
  obtain ⟨single, hdistinct, hsingle⟩ := customTarget_nested htarget keys leaf.2
  have hascending := StyleNode.leaves_ascending tree .nil leaf hleaf
  obtain ⟨own, hown, hclasses⟩ := node_nested hres [] hascending
  refine ⟨single, [groupRules target own], hdistinct, ?_, ?_⟩
  · exact (entry_custom_ok_iff hname).2 ⟨target, _, _, own, hsingle,
      StyleNode.normalize_nested hkeys name leaf.2, hown, rfl⟩
  · rw [List.flatMap_singleton, groupRules, hclasses]
    exact ⟨List.mem_singleton.2 rfl, fun s hs _ => List.mem_singleton.1 hs⟩

end Lowering

/-- The description with one entry. -/
def StyleDescription.single (name : String) (value : StyleValue) (h : value.Distinct) :
    StyleDescription :=
  ⟨[(name, value)], by simp [Entries.Distinct, Entries.keys], h, trivial⟩

/-- For each class of a forest there is a description that gives it and no other
class of its property. -/
theorem exists_single {theme : Theme} {d : StyleDescription} {f : RuleForest}
    (h : lower theme d = .ok f) {r : ClassRule} (hr : r ∈ f.classes) :
    ∃ e g, lower theme e = .ok g ∧ Lowering.Alone r g.classes := by
  obtain ⟨groups, hgroups, rfl⟩ := Lowering.lower_ok_iff.1 h
  obtain ⟨g, hg, hr⟩ := List.mem_flatMap.1 hr
  obtain ⟨own, hown, hg⟩ := List.mem_flatten.1 hg
  obtain ⟨⟨name, value⟩, -, hentry⟩ := exists_of_forall₂_right hgroups hown
  have hsingled : Lowering.Singled theme name r := by
    by_cases hname : Css.isCustomName name
    · exact Lowering.singled_custom hname hentry hg hr
    · exact Lowering.singled_themed hname hentry hg hr
  obtain ⟨single, singles, hdistinct, hsingle, halone⟩ := hsingled
  refine ⟨.single name single hdistinct, ⟨[singles].flatten⟩, ?_, ?_⟩
  · exact Lowering.lower_ok_iff.2 ⟨[singles], .cons hsingle .nil, rfl⟩
  · rw [RuleForest.classes, List.flatten_singleton]
    exact halone

end AtomicStyles
