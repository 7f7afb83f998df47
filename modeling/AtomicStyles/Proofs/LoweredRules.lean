import AtomicStyles.Proofs.Meaning
import AtomicStyles.Proofs.Success

/-!
# The rules that lowering makes

Lowering walks the normal form once and wraps each branch into one rule. The
lemmas here say everything a step of that walk can do: a leaf becomes one class
rule, a branch becomes a wrapper around the rules of its subtree, and an entry
of a description becomes one group for each setting. Every law of lowered
forests starts from them and never opens `Lowering.branches` again.

Lowering keeps the active theme conditions as an ascending list. `sort_insert`
says that this list is a finite set in disguise, which is how the rest of the
theory speaks of it.
-/

namespace AtomicStyles

open Lowering (Target)

/-- The render-state condition of a branch. -/
def BranchCondition.runtime? : BranchCondition → Option RuntimeCondition
  | .flag name => some (.flag name)
  | .variant name tag => some (.variant name tag)
  | _ => none

/-- The selector of the rule around a branch. -/
def BranchCondition.selector : BranchCondition → Selector
  | .theme id => .prelude id
  | _ => .group

/-- The layer of the rule around a branch, inside ascending conditions. -/
def BranchCondition.layer (active : List ConditionId) : BranchCondition → Option ConditionId
  | .theme id => some id
  | _ => active.getLast?

/-- The ascending conditions inside a branch. -/
def BranchCondition.within (active : List ConditionId) : BranchCondition → List ConditionId
  | .theme id => Lowering.activate id active
  | _ => active

namespace Lowering

/-- The class of a resolved literal. -/
def classRule (target : Target) (active : List ConditionId) (resolved : ResolvedValue) :
    ClassRule :=
  ⟨Code.token target.unit active resolved.fragment, active, resolved.declarations⟩

/-- The rule of a class. -/
def leafRule (r : ClassRule) : Rule :=
  .leaf (.class r.token r.conditions) r.conditions.getLast? none r.declarations

/-- The rule around the rules of a branch. -/
def branchRule (active : List ConditionId) (c : BranchCondition) (children : List Rule) : Rule :=
  .nested c.selector (c.layer active) c.runtime? children

theorem node_leaf_ok_iff {target : Target} {active : List ConditionId} {l : Literal}
    {rules : List Rule} :
    node target active (.leaf l) = .ok rules ↔
      ∃ resolved, target.resolve l = .ok resolved ∧
        rules = [leafRule (classRule target active resolved)] := by
  rw [node, map_eq_ok_iff]
  constructor
  · rintro ⟨r, hr, rfl⟩
    obtain ⟨resolved, hres, hrule⟩ := bind_eq_ok_iff.1 hr
    exact ⟨resolved, hres, by rw [← Except.ok.inj hrule]; rfl⟩
  · rintro ⟨resolved, hres, rfl⟩
    exact ⟨_, bind_eq_ok_iff.2 ⟨resolved, hres, rfl⟩, rfl⟩

theorem branches_nil_ok_iff {target : Target} {active : List ConditionId}
    {rules : List Rule} : branches target active [] = .ok rules ↔ rules = [] := by
  rw [branches]
  exact ⟨fun h => (Except.ok.inj h).symm, fun h => congrArg Except.ok h.symm⟩

theorem branches_cons (target : Target) (active : List ConditionId) (c : BranchCondition)
    (n : StyleNode) (bs : List (BranchCondition × StyleNode)) :
    branches target active ((c, n) :: bs) =
      (do
        let children ← node target (c.within active) n
        let rest ← branches target active bs
        return branchRule active c children :: rest) := by
  rw [branches.eq_def]
  cases c with
  | fallback =>
      dsimp only [BranchCondition.within]
      cases node target active n <;> rfl
  | theme id =>
      dsimp only [BranchCondition.within]
      cases node target (activate id active) n <;> rfl
  | flag name =>
      dsimp only [BranchCondition.within]
      cases node target active n <;> rfl
  | variant name tag =>
      dsimp only [BranchCondition.within]
      cases node target active n <;> rfl

theorem branches_cons_ok_iff {target : Target} {active : List ConditionId}
    {c : BranchCondition} {n : StyleNode} {bs : List (BranchCondition × StyleNode)}
    {rules : List Rule} :
    branches target active ((c, n) :: bs) = .ok rules ↔
      ∃ children rest, node target (c.within active) n = .ok children ∧
        branches target active bs = .ok rest ∧
        rules = branchRule active c children :: rest := by
  rw [branches_cons, bind_eq_ok_iff]
  constructor
  · rintro ⟨children, hc, hrest⟩
    obtain ⟨rest, hr, hb⟩ := bind_eq_ok_iff.1 hrest
    exact ⟨children, rest, hc, hr, (Except.ok.inj hb).symm⟩
  · rintro ⟨children, rest, hc, hr, rfl⟩
    exact ⟨children, hc, bind_eq_ok_iff.2 ⟨rest, hr, rfl⟩⟩

/-! ## The active conditions as a set -/

theorem mem_activate {id c : ConditionId} {active : List ConditionId} :
    c ∈ activate id active ↔ c = id ∨ c ∈ active := by
  induction active with
  | nil => simp [activate]
  | cons a as ih =>
      rw [activate]
      split
      · simp
      · split
        · rename_i heq
          simp [heq]
        · rw [List.mem_cons, ih, List.mem_cons]
          tauto

theorem activate_sorted (id : ConditionId) {active : List ConditionId}
    (h : active.Pairwise (· < ·)) : (activate id active).Pairwise (· < ·) := by
  induction active with
  | nil => simp [activate]
  | cons a as ih =>
      obtain ⟨ha, has⟩ := List.pairwise_cons.1 h
      rw [activate]
      split
      · rename_i hlt
        refine List.pairwise_cons.2 ⟨?_, h⟩
        intro c hc
        rcases List.mem_cons.1 hc with rfl | hc
        · exact hlt
        · exact Nat.lt_trans hlt (ha c hc)
      · split
        · exact h
        · rename_i hle hne
          refine List.pairwise_cons.2 ⟨?_, ih has⟩
          intro c hc
          rcases mem_activate.1 hc with rfl | hc
          · exact Nat.lt_of_le_of_ne (Nat.not_lt.1 hle) (Ne.symm hne)
          · exact ha c hc

/-- Putting a condition into the ascending list of a set is adding it to the
set. -/
theorem activate_sort (id : ConditionId) (active : Finset ConditionId) :
    activate id (active.sort (· ≤ ·)) = (insert id active).sort (· ≤ ·) := by
  have hsorted := activate_sorted id (Finset.sortedLT_sort active).pairwise
  refine List.Perm.eq_of_pairwise ?_ hsorted
    (Finset.sortedLT_sort (insert id active)).pairwise ?_
  · intro a b _ _ hab hba
    exact absurd hba (Nat.lt_asymm hab)
  · refine (List.perm_ext_iff_of_nodup (hsorted.imp Nat.ne_of_lt)
      (Finset.sort_nodup _ _)).2 fun c => ?_
    rw [mem_activate, Finset.mem_sort, Finset.mem_sort, Finset.mem_insert]

theorem within_sort (c : BranchCondition) (active : Finset ConditionId) :
    c.within (active.sort (· ≤ ·)) = (c.enter active).sort (· ≤ ·) := by
  cases c with
  | theme id => exact activate_sort id active
  | fallback => rfl
  | flag name => rfl
  | variant name tag => rfl

/-! ## Entries and descriptions -/

/-- The group of a target whose rules are known. -/
def groupRules (target : Target) (rules : List Rule) : PropertyRules :=
  ⟨String.ofList target.unit, target.name, rules⟩

theorem group_ok_iff {target : Target} {tree : StyleNode} {g : PropertyRules} :
    group target tree = .ok g ↔
      ∃ rules, node target [] tree = .ok rules ∧ g = groupRules target rules := by
  rw [group, bind_eq_ok_iff]
  constructor
  · rintro ⟨rules, hrules, hg⟩
    exact ⟨rules, hrules, (Except.ok.inj hg).symm⟩
  · rintro ⟨rules, hrules, rfl⟩
    exact ⟨rules, hrules, rfl⟩

/-- A custom property is raw, unless its value is a typed entry whose type the
theme knows. -/
theorem customTarget_ok {theme : Theme} {name : String} {value inner : StyleValue}
    {target : Target} (h : customTarget theme name value = .ok (target, inner)) :
    (target = .raw name ∧ typedEntry? value = none ∧ inner = value) ∨
      ∃ type definition, target = .typed name type definition ∧
        typedEntry? value = some (.literal (.text type), inner) ∧
        theme.properties.get? type = some definition := by
  unfold customTarget at h
  split at h
  · rename_i hentry
    cases h
    exact .inl ⟨rfl, hentry, rfl⟩
  · rename_i type value' hentry
    split at h
    · rename_i definition htype
      cases h
      exact .inr ⟨type, definition, rfl, hentry, htype⟩
    · cases h
  · cases h

theorem entry_custom_ok_iff {theme : Theme} {name : String} {value : StyleValue}
    {groups : List PropertyRules} (hname : Css.isCustomName name) :
    entry theme name value = .ok groups ↔
      ∃ target inner tree rules, customTarget theme name value = .ok (target, inner) ∧
        StyleNode.normalize theme name inner = .ok tree ∧
        node target [] tree = .ok rules ∧ groups = [groupRules target rules] := by
  rw [entry, if_pos hname, bind_eq_ok_iff]
  constructor
  · rintro ⟨⟨target, inner⟩, htarget, h⟩
    obtain ⟨tree, htree, h⟩ := bind_eq_ok_iff.1 h
    obtain ⟨g, hg, h⟩ := bind_eq_ok_iff.1 h
    obtain ⟨rules, hrules, rfl⟩ := group_ok_iff.1 hg
    exact ⟨target, inner, tree, rules, htarget, htree, hrules, (Except.ok.inj h).symm⟩
  · rintro ⟨target, inner, tree, rules, htarget, htree, hrules, rfl⟩
    exact ⟨(target, inner), htarget, bind_eq_ok_iff.2 ⟨tree, htree,
      bind_eq_ok_iff.2 ⟨_, group_ok_iff.2 ⟨rules, hrules, rfl⟩, rfl⟩⟩⟩

/-- The group that a property of the theme gets from a normal form. -/
def Lowered (theme : Theme) (tree : StyleNode) (id : PropertyId) (g : PropertyRules) : Prop :=
  ∃ p rules, theme.property? id = some p ∧ node (.themed id p.1 p.2) [] tree = .ok rules ∧
    g = groupRules (.themed id p.1 p.2) rules

theorem themeTarget_group_ok_iff {theme : Theme} {name : String} {tree : StyleNode}
    {id : PropertyId} {g : PropertyRules} :
    (do
      let target ← themeTarget theme name id
      group target tree) = .ok g ↔ Lowered theme tree id g := by
  rw [bind_eq_ok_iff]
  unfold themeTarget
  constructor
  · rintro ⟨target, htarget, hg⟩
    obtain ⟨rules, hrules, rfl⟩ := group_ok_iff.1 hg
    split at htarget
    · rename_i n definition hp
      cases htarget
      exact ⟨(n, definition), rules, hp, hrules, rfl⟩
    · cases htarget
  · rintro ⟨⟨n, definition⟩, rules, hp, hrules, rfl⟩
    refine ⟨.themed id n definition, ?_, group_ok_iff.2 ⟨rules, hrules, rfl⟩⟩
    rw [hp]

theorem entry_themed_ok_iff {theme : Theme} {name : String} {value : StyleValue}
    {groups : List PropertyRules} (hname : ¬ Css.isCustomName name) :
    entry theme name value = .ok groups ↔
      ∃ ids tree, theme.expand name = .ok ids ∧
        StyleNode.normalize theme name value = .ok tree ∧
        List.Forall₂ (Lowered theme tree) ids groups := by
  rw [entry, if_neg hname, bind_eq_ok_iff]
  constructor
  · rintro ⟨ids, hids, h⟩
    obtain ⟨tree, htree, h⟩ := bind_eq_ok_iff.1 h
    exact ⟨ids, tree, hids, htree,
      (mapM_eq_ok_iff.1 h).imp fun _ _ => themeTarget_group_ok_iff.1⟩
  · rintro ⟨ids, tree, hids, htree, h⟩
    exact ⟨ids, hids, bind_eq_ok_iff.2 ⟨tree, htree,
      mapM_eq_ok_iff.2 (h.imp fun _ _ => themeTarget_group_ok_iff.2)⟩⟩

/-- The group that a setting of a description becomes: its value in normal form,
lowered for its target. -/
def GroupOf (theme : Theme) (s : Target × StyleValue) (g : PropertyRules) : Prop :=
  ∃ name tree rules, StyleNode.normalize theme name s.2 = .ok tree ∧
    node s.1 [] tree = .ok rules ∧ g = groupRules s.1 rules

theorem themed_ok {theme : Theme} {name : String} {value : StyleValue} {tree : StyleNode}
    {ids : List PropertyId} {groups : List PropertyRules}
    (htree : StyleNode.normalize theme name value = .ok tree)
    (h : List.Forall₂ (Lowered theme tree) ids groups) :
    List.Forall₂ (GroupOf theme)
      (ids.filterMap fun id =>
        (theme.property? id).map fun p => (Target.themed id p.1 p.2, value)) groups := by
  induction h with
  | nil => exact .nil
  | cons hg _ ih =>
      obtain ⟨p, rules, hp, hrules, rfl⟩ := hg
      rw [List.filterMap_cons, hp]
      exact .cons ⟨name, tree, rules, htree, hrules, rfl⟩ ih

theorem entry_ok {theme : Theme} {name : String} {value : StyleValue}
    {groups : List PropertyRules} (h : entry theme name value = .ok groups) :
    List.Forall₂ (GroupOf theme) (Meaning.settings theme name value) groups := by
  unfold Meaning.settings
  by_cases hname : Css.isCustomName name
  · obtain ⟨target, inner, tree, rules, htarget, htree, hrules, rfl⟩ :=
      (entry_custom_ok_iff hname).1 h
    rw [if_pos hname, htarget]
    exact .cons ⟨name, tree, rules, htree, hrules, rfl⟩ .nil
  · obtain ⟨ids, tree, hids, htree, hgroups⟩ := (entry_themed_ok_iff hname).1 h
    rw [if_neg hname, hids]
    exact themed_ok htree hgroups

theorem forall₂_flatMap {α β γ : Type} {R : β → γ → Prop} {f : α → List β} {xs : List α}
    {yss : List (List γ)} (h : List.Forall₂ (fun x ys => List.Forall₂ R (f x) ys) xs yss) :
    List.Forall₂ R (xs.flatMap f) yss.flatten := by
  induction h with
  | nil => exact .nil
  | cons hx _ ih =>
      rw [List.flatMap_cons, List.flatten_cons]
      exact List.rel_append hx ih

theorem lower_ok_iff {theme : Theme} {d : StyleDescription} {f : RuleForest} :
    lower theme d = .ok f ↔
      ∃ groups, List.Forall₂ (fun e gs => entry theme e.1 e.2 = .ok gs) d.entries groups ∧
        f = ⟨groups.flatten⟩ := by
  rw [lower, bind_eq_ok_iff]
  constructor
  · rintro ⟨groups, hgroups, hf⟩
    exact ⟨groups, mapM_eq_ok_iff.1 hgroups, (Except.ok.inj hf).symm⟩
  · rintro ⟨groups, hgroups, rfl⟩
    exact ⟨groups, mapM_eq_ok_iff.2 hgroups, rfl⟩

/-- A description that lowers gives one group for each setting, in declared
order. -/
theorem lower_ok {theme : Theme} {d : StyleDescription} {f : RuleForest}
    (h : lower theme d = .ok f) :
    List.Forall₂ (GroupOf theme) (Meaning.allSettings theme d) f.groups := by
  obtain ⟨groups, hgroups, rfl⟩ := lower_ok_iff.1 h
  exact forall₂_flatMap (hgroups.imp fun _ _ => entry_ok)

end Lowering

end AtomicStyles
