import AtomicStyles.Proofs.BuiltTheme
import AtomicStyles.Proofs.Exchange
import AtomicStyles.Proofs.SingleClass
import AtomicStyles.Sheet.Emitter

/-!
# Conditions nested in any order

A value may stand under several theme conditions, one object inside the other. What
counts is which preludes these are. The order of nesting, a condition that is
written twice and the name that is chosen for a prelude leave no trace in the
classes, in the sheet or in what is selected.

Lowering is left with one number for each wrapper, and it collects them in an
ascending list on the way in (`activateAll_sort`). From there on the value under the
wrappers is lowered as if they were not there. The wrappers themselves hold no class
and none of them is ever chosen before the others, so the trees around the value may
differ in shape.
-/

namespace AtomicStyles

open Lowering (Target)

/-! ## Conditions by name -/

namespace ThemeDraft

theorem conditions_named {known next : Conditions} {es : List (String × String)}
    (h : es.foldlM addCondition known = .ok next) (hknown : "default" ∉ known.1.keys) :
    "default" ∉ next.1.keys := by
  refine foldlM_ok_induction
    (P := fun (known : Conditions) _ (next : Conditions) =>
      "default" ∉ known.1.keys → "default" ∉ next.1.keys)
    (fun known => id) (fun known e next es last he hes hknown => hes ?_) h hknown
  obtain ⟨kind, more, rfl, -⟩ := addCondition_ok he
  have hname : "default" ≠ e.1 := by
    intro heq
    rw [addCondition, if_pos heq.symm] at he
    cases he
  show "default" ∉ Entries.keys (known.1 ++ [(e.1, kind)])
  rw [Entries.keys, List.map_append]
  simpa [Entries.keys, hname] using hknown

/-- No condition of a theme that was built is called `default`, so each of its names
can be used as a key. -/
theorem names_of_condition? {draft : ThemeDraft} {theme : Theme} (h : draft.build = .ok theme)
    {key : String} {id : ConditionId} (hid : theme.condition? key = some (.theme id)) :
    theme.Names key id := by
  refine ⟨?_, hid⟩
  rintro rfl
  have hdefault := conditions_named (build_ok_iff.1 h).2.1 (by simp [Entries.keys])
  rw [Theme.condition?, Entries.get?_eq_none_iff.2 hdefault] at hid
  cases hid

end ThemeDraft

/-! ## A normal form under conditions -/

namespace Lowering

/-- Puts conditions into an ascending list, each once. -/
def activateAll (ids active : List ConditionId) : List ConditionId :=
  ids.foldl (fun active id => activate id active) active

theorem activateAll_sort (ids : List ConditionId) (active : Finset ConditionId) :
    activateAll ids (active.sort (· ≤ ·)) = (ids.toFinset ∪ active).sort (· ≤ ·) := by
  induction ids generalizing active with
  | nil => simp [activateAll]
  | cons id ids ih =>
      have hstep : activateAll (id :: ids) (active.sort (· ≤ ·)) =
          activateAll ids (activate id (active.sort (· ≤ ·))) := rfl
      rw [hstep, activate_sort, ih, List.toFinset_cons, Finset.union_insert,
        Finset.insert_union]

theorem activateAll_congr {ids ids' : List ConditionId} (h : ∀ id, id ∈ ids ↔ id ∈ ids') :
    activateAll ids [] = activateAll ids' [] := by
  have hset : ids.toFinset = ids'.toFinset := List.toFinset.ext h
  rw [← Finset.sort_empty (· ≤ ·), activateAll_sort, activateAll_sort, hset]

end Lowering

namespace StyleNode

theorem leaves_under (tree : StyleNode) (ids active : List ConditionId) :
    (tree.under ids).leaves active = tree.leaves (Lowering.activateAll ids active) := by
  induction ids generalizing active with
  | nil => rfl
  | cons id ids ih =>
      rw [under, leaves, branchLeaves, ih, branchLeaves, List.append_nil]
      rfl

/-- A branch that no state decides is followed when it is the only one. -/
theorem classes_under (state : RenderState) (target : Target) (tree : StyleNode)
    (ids : List ConditionId) (active : Finset ConditionId) :
    (tree.under ids).classes state target active =
      tree.classes state target (ids.toFinset ∪ active) := by
  induction ids generalizing active with
  | nil => simp [under]
  | cons id ids ih =>
      have hone : (tree.under (id :: ids)).classes state target active =
          (tree.under ids).classes state target (insert id active) := by
        rw [under, classes]
        simp [decided?, undecided, BranchCondition.holds, BranchCondition.isDynamic,
          BranchCondition.enter]
      rw [hone, ih, List.toFinset_cons, Finset.union_insert, Finset.insert_union]

end StyleNode

/-! ## The same set of conditions -/

/-- Two groups of one property have the same classes in the same order and select the
same. -/
structure PropertyRules.Alike (g g' : PropertyRules) : Prop extends g.SelectsAs g' where
  classes : Rule.allClasses g.rules = Rule.allClasses g'.rules

theorem PropertyRules.Alike.refl (g : PropertyRules) : g.Alike g :=
  ⟨.refl g, rfl⟩

namespace Lowering

theorem ClassOf.unique {target : Target} {leaf : List ConditionId × Literal} {r r' : ClassRule}
    (h : ClassOf target leaf r) (h' : ClassOf target leaf r') : r = r' := by
  obtain ⟨resolved, hres, rfl⟩ := h
  obtain ⟨resolved', hres', rfl⟩ := h'
  rw [Except.ok.inj (hres.symm.trans hres')]

/-- Normal forms with the same leaves and one meaning are lowered to groups that are
alike. -/
theorem alike_of_leaves {target : Target} {tree tree' : StyleNode} {rules : List Rule}
    (h : node target [] tree = .ok rules) (hleaves : tree.leaves [] = tree'.leaves [])
    (heq : ∀ state, tree.classes state target ∅ = tree'.classes state target ∅) :
    ∃ rules', node target [] tree' = .ok rules' ∧
      (groupRules target rules).Alike (groupRules target rules') := by
  obtain ⟨rules', h'⟩ : ∃ rules', node target [] tree' = .ok rules' := by
    rw [exists_node_ok_iff, ← hleaves]
    exact exists_node_ok_iff.1 ⟨rules, h⟩
  refine ⟨rules', h', selectsAs_of_classes h h' heq, ?_⟩
  have hclasses := allClasses_lowered tree h
  have hclasses' := allClasses_lowered tree' h'
  rw [← hleaves] at hclasses'
  have hunique : Relator.RightUnique (ClassOf target) := fun _ _ _ => ClassOf.unique
  exact List.right_unique_forall₂' hunique hclasses hclasses'

variable {theme : Theme} {keys keys' : List String} {ids ids' : List ConditionId}

theorem replaces_under (hkeys : List.Forall₂ theme.Names keys ids)
    (hkeys' : List.Forall₂ theme.Names keys' ids') (hsame : ∀ id, id ∈ ids ↔ id ∈ ids')
    (value : StyleValue) :
    Replaces theme PropertyRules.Alike (value.under keys) (value.under keys') := by
  intro name tree htree
  obtain ⟨inner, hinner, rfl⟩ := (StyleNode.normalize_under_ok_iff hkeys).1 htree
  refine ⟨inner.under ids', (StyleNode.normalize_under_ok_iff hkeys').2 ⟨inner, hinner, rfl⟩,
    fun target rules hrules => alike_of_leaves hrules ?_ fun state => ?_⟩
  · rw [StyleNode.leaves_under, StyleNode.leaves_under, activateAll_congr hsame]
  · rw [StyleNode.classes_under, StyleNode.classes_under, List.toFinset.ext hsame]

/-- A custom property under conditions is raw, whatever its value looks like. Without
conditions both values are the same. -/
theorem entryReplaces_under (hkeys : List.Forall₂ theme.Names keys ids)
    (hkeys' : List.Forall₂ theme.Names keys' ids') (hsame : ∀ id, id ∈ ids ↔ id ∈ ids')
    (name : String) (value : StyleValue) :
    EntryReplaces theme PropertyRules.Alike (name, value.under keys) (name, value.under keys') := by
  have hnil : keys = [] ↔ keys' = [] := by
    rw [← List.length_eq_zero_iff, ← List.length_eq_zero_iff, hkeys.length_eq, hkeys'.length_eq,
      List.length_eq_zero_iff, List.length_eq_zero_iff, List.eq_nil_iff_forall_not_mem,
      List.eq_nil_iff_forall_not_mem]
    simp only [hsame]
  -- a typed entry can only be recognized where there is no wrapper
  by_cases h : keys = []
  · rw [h, hnil.1 h]
    exact .refl PropertyRules.Alike.refl _
  · refine ⟨rfl, fun _ => replaces_under hkeys hkeys' hsame value,
      fun _ target inner htarget => ?_⟩
    dsimp only at htarget ⊢
    rw [customTarget, StyleValue.typedEntry?_under value h] at htarget
    rw [customTarget, StyleValue.typedEntry?_under value (mt hnil.2 h)]
    cases htarget
    exact ⟨_, rfl, replaces_under hkeys hkeys' hsame value⟩

theorem lower_under (hkeys : List.Forall₂ theme.Names keys ids)
    (hkeys' : List.Forall₂ theme.Names keys' ids') (hsame : ∀ id, id ∈ ids ↔ id ∈ ids')
    {before after : List (String × StyleValue)} {name : String} {value : StyleValue}
    {d e : StyleDescription} (hd : d.entries = before ++ (name, value.under keys) :: after)
    (he : e.entries = before ++ (name, value.under keys') :: after) {f : RuleForest}
    (hf : lower theme d = .ok f) :
    ∃ g, lower theme e = .ok g ∧ List.Forall₂ PropertyRules.Alike f.groups g.groups := by
  have hother : ∀ es : List (String × StyleValue),
      List.Forall₂ (EntryReplaces theme PropertyRules.Alike) es es := fun es =>
    List.forall₂_same.2 fun e _ => .refl PropertyRules.Alike.refl e
  refine lower_replaced ?_ hf
  rw [hd, he]
  exact List.rel_append (hother before)
    (.cons (entryReplaces_under hkeys hkeys' hsame name value) (hother after))

end Lowering

theorem RuleForest.classes_congr {f g : RuleForest}
    (h : List.Forall₂ PropertyRules.Alike f.groups g.groups) : f.classes = g.classes := by
  rw [classes, classes, List.flatMap_def, List.flatMap_def,
    map_eq_map_iff_forall₂.2 (h.imp fun _ _ hg => hg.classes)]

/-- A value under conditions with names from one list or from another, when both name
the same set of preludes. Either both descriptions lower or none. The classes of the
forests are the same and stand in the same order, an emitter writes the same sheet
for both and the procedures select the same. -/
theorem nested_conditions_as_set {draft : ThemeDraft} {theme : Theme}
    (hbuild : draft.build = .ok theme) {keys keys' : List String} {ids ids' : List ConditionId}
    (hkeys : List.Forall₂ (fun key id => theme.condition? key = some (.theme id)) keys ids)
    (hkeys' : List.Forall₂ (fun key id => theme.condition? key = some (.theme id)) keys' ids')
    (hsame : ∀ id, id ∈ ids ↔ id ∈ ids') {before after : List (String × StyleValue)}
    {name : String} {value : StyleValue} {d e : StyleDescription}
    (hd : d.entries = before ++ (name, value.under keys) :: after)
    (he : e.entries = before ++ (name, value.under keys') :: after) :
    ((∃ f, lower theme d = .ok f) ↔ ∃ g, lower theme e = .ok g) ∧
      ∀ f g, lower theme d = .ok f → lower theme e = .ok g →
        f.classes = g.classes ∧
        (∀ emitter : CssEmitter, emitter.emit theme f = emitter.emit theme g) ∧
        ∀ state, (SelectionProcedure.ofForest f).select state =
          (SelectionProcedure.ofForest g).select state := by
  have hnames := hkeys.imp fun _ _ => ThemeDraft.names_of_condition? hbuild
  have hnames' := hkeys'.imp fun _ _ => ThemeDraft.names_of_condition? hbuild
  refine ⟨⟨?_, ?_⟩, fun f g hf hg => ?_⟩
  · rintro ⟨f, hf⟩
    obtain ⟨g, hg, -⟩ := Lowering.lower_under hnames hnames' hsame hd he hf
    exact ⟨g, hg⟩
  · rintro ⟨g, hg⟩
    obtain ⟨f, hf, -⟩ :=
      Lowering.lower_under hnames' hnames (fun id => (hsame id).symm) he hd hg
    exact ⟨f, hf⟩
  · obtain ⟨g', hg', halike⟩ := Lowering.lower_under hnames hnames' hsame hd he hf
    obtain rfl := Except.ok.inj (hg.symm.trans hg')
    have hclasses := RuleForest.classes_congr halike
    refine ⟨hclasses, fun emitter => ?_, select_congr (halike.imp fun _ _ hg => hg.toSelectsAs)⟩
    rw [CssEmitter.emit, CssEmitter.emit, hclasses]

/-- The conditions of `smallDraft` and a second name for its first prelude. -/
def nightDraft : ThemeDraft := smallDraft.condition "night" ".dark &"

/-- What `nightDraft` becomes. -/
def nightTheme : Theme :=
  { smallTheme with conditions := smallTheme.conditions ++ [("night", .theme 0)] }

/-- An object with a theme condition, a flag and a variant of its own. -/
def nightValue : StyleValue :=
  .conditional
    [("default", .literal (.text "block")),
     ("isOpen", .conditional [("dark", .literal (.text "flex"))]),
     ("size", .conditional [("large", .conditional [("hover", .literal (.text "flex"))])])]

theorem nested_conditions_as_set_night :
    ∃ f g,
      lower nightTheme (.ofList [("display", nightValue.under ["wide", "dark", "wide"])]) = .ok f ∧
      lower nightTheme (.ofList [("display", nightValue.under ["night", "wide"])]) = .ok g ∧
      f.classes = g.classes ∧ f.tokens = ["aaba", "aabb", "aaba", "aabcb", "aaba"] ∧
      ∀ state, (SelectionProcedure.ofForest f).select state =
        (SelectionProcedure.ofForest g).select state := by
  obtain ⟨-, h⟩ := @nested_conditions_as_set nightDraft nightTheme rfl ["wide", "dark", "wide"]
    ["night", "wide"] [1, 0, 1] [0, 1] (.cons rfl (.cons rfl (.cons rfl .nil)))
    (.cons rfl (.cons rfl .nil)) (by simp) [] [] "display" nightValue
    (.ofList [("display", nightValue.under ["wide", "dark", "wide"])])
    (.ofList [("display", nightValue.under ["night", "wide"])]) rfl rfl
  obtain ⟨hclasses, -, hselect⟩ := h _ _ rfl rfl
  exact ⟨_, _, rfl, rfl, hclasses, by decide +kernel, hselect⟩

end AtomicStyles
