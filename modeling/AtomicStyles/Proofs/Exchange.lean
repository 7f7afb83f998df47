import AtomicStyles.Proofs.LoweredClasses
import AtomicStyles.Proofs.SelectedMeaning

/-!
# One value in the place of another

Some changes to a value leave what it lowers to the same in all that matters. What
matters differs from law to law, so it is a relation between groups of rules here.
When a value can be replaced without losing this relation, so can it as an entry of
a description, and the forests have groups that are related one by one.

A replacement must not make the lowering fail. Whether a normal form lowers is a
matter of its leaves alone (`exists_node_ok_iff`), which spares every such law the
walk through the rules.
-/

namespace AtomicStyles

namespace Lowering

section

variable {target : Target}

mutual

theorem node_total (tree : StyleNode) {active : List ConditionId}
    (h : ∀ leaf ∈ tree.leaves active, ∃ resolved, target.resolve leaf.2 = .ok resolved) :
    ∃ rules, node target active tree = .ok rules := by
  match tree with
  | .leaf l =>
      obtain ⟨resolved, hres⟩ := h (active, l) (List.mem_singleton.2 rfl)
      exact ⟨_, node_leaf_ok_iff.2 ⟨resolved, hres, rfl⟩⟩
  | .branching bs =>
      rw [node]
      exact branches_total bs h

theorem branches_total (bs : List (BranchCondition × StyleNode)) {active : List ConditionId}
    (h : ∀ leaf ∈ StyleNode.branchLeaves active bs,
      ∃ resolved, target.resolve leaf.2 = .ok resolved) :
    ∃ rules, branches target active bs = .ok rules := by
  match bs with
  | [] => exact ⟨[], branches_nil_ok_iff.2 rfl⟩
  | (c, n) :: bs =>
      rw [StyleNode.branchLeaves] at h
      obtain ⟨children, hchildren⟩ :=
        node_total n fun leaf hleaf => h leaf (List.mem_append_left _ hleaf)
      obtain ⟨rest, hrest⟩ :=
        branches_total bs fun leaf hleaf => h leaf (List.mem_append_right _ hleaf)
      exact ⟨_, branches_cons_ok_iff.2 ⟨children, rest, hchildren, hrest, rfl⟩⟩

end

/-- A normal form lowers when all its leaves resolve. -/
theorem exists_node_ok_iff {tree : StyleNode} {active : List ConditionId} :
    (∃ rules, node target active tree = .ok rules) ↔
      ∀ leaf ∈ tree.leaves active, ∃ resolved, target.resolve leaf.2 = .ok resolved := by
  refine ⟨fun ⟨rules, hrules⟩ leaf hleaf => ?_, node_total tree⟩
  obtain ⟨r, -, resolved, hres, -⟩ :=
    exists_of_forall₂_left (allClasses_lowered tree hrules) hleaf
  exact ⟨resolved, hres⟩

end

/-! ## Values, entries and descriptions -/

/-- What a value is lowered to for some target, another one is lowered to as well, up
to a relation between groups. -/
def Replaces (theme : Theme) (R : PropertyRules → PropertyRules → Prop)
    (value value' : StyleValue) : Prop :=
  ∀ name tree, StyleNode.normalize theme name value = .ok tree →
    ∃ tree', StyleNode.normalize theme name value' = .ok tree' ∧
      ∀ target rules, node target [] tree = .ok rules →
        ∃ rules', node target [] tree' = .ok rules' ∧
          R (groupRules target rules) (groupRules target rules')

/-- The same for the value of an entry. A custom property may hold the value that
counts inside a typed entry. -/
structure EntryReplaces (theme : Theme) (R : PropertyRules → PropertyRules → Prop)
    (e e' : String × StyleValue) : Prop where
  name : e.1 = e'.1
  themed : ¬ Css.isCustomName e.1 → Replaces theme R e.2 e'.2
  custom : Css.isCustomName e.1 → ∀ target inner, customTarget theme e.1 e.2 = .ok (target, inner) →
    ∃ inner', customTarget theme e.1 e'.2 = .ok (target, inner') ∧ Replaces theme R inner inner'

section

variable {theme : Theme} {R : PropertyRules → PropertyRules → Prop}

theorem Replaces.refl (hR : ∀ g, R g g) (value : StyleValue) : Replaces theme R value value :=
  fun _ tree htree => ⟨tree, htree, fun _ rules hrules => ⟨rules, hrules, hR _⟩⟩

theorem EntryReplaces.refl (hR : ∀ g, R g g) (e : String × StyleValue) :
    EntryReplaces theme R e e :=
  ⟨rfl, fun _ => .refl hR _, fun _ _ inner h => ⟨inner, h, .refl hR inner⟩⟩

theorem lowered_replaced {tree tree' : StyleNode}
    (h : ∀ target rules, node target [] tree = .ok rules →
      ∃ rules', node target [] tree' = .ok rules' ∧
        R (groupRules target rules) (groupRules target rules'))
    {ids : List PropertyId} {groups : List PropertyRules}
    (hgroups : List.Forall₂ (Lowered theme tree) ids groups) :
    ∃ groups', List.Forall₂ (Lowered theme tree') ids groups' ∧
      List.Forall₂ R groups groups' := by
  induction hgroups with
  | nil => exact ⟨[], .nil, .nil⟩
  | cons hg _ ih =>
      obtain ⟨p, rules, hp, hrules, rfl⟩ := hg
      obtain ⟨rules', hrules', hR⟩ := h _ _ hrules
      obtain ⟨groups', hgroups', hall⟩ := ih
      exact ⟨_, .cons ⟨p, rules', hp, hrules', rfl⟩ hgroups', .cons hR hall⟩

theorem entry_replaced {e e' : String × StyleValue} (h : EntryReplaces theme R e e')
    {groups : List PropertyRules} (hentry : entry theme e.1 e.2 = .ok groups) :
    ∃ groups', entry theme e'.1 e'.2 = .ok groups' ∧ List.Forall₂ R groups groups' := by
  rw [← h.name]
  by_cases hname : Css.isCustomName e.1
  · obtain ⟨target, inner, tree, rules, htarget, htree, hrules, rfl⟩ :=
      (entry_custom_ok_iff hname).1 hentry
    obtain ⟨inner', htarget', hinner⟩ := h.custom hname target inner htarget
    obtain ⟨tree', htree', hreplace⟩ := hinner _ tree htree
    obtain ⟨rules', hrules', hR⟩ := hreplace target rules hrules
    exact ⟨[groupRules target rules'], (entry_custom_ok_iff hname).2
      ⟨target, inner', tree', rules', htarget', htree', hrules', rfl⟩, .cons hR .nil⟩
  · obtain ⟨ids, tree, hids, htree, hgroups⟩ := (entry_themed_ok_iff hname).1 hentry
    obtain ⟨tree', htree', hreplace⟩ := h.themed hname _ tree htree
    obtain ⟨groups', hgroups', hR⟩ := lowered_replaced hreplace hgroups
    exact ⟨groups', (entry_themed_ok_iff hname).2 ⟨ids, tree', hids, htree', hgroups'⟩, hR⟩

theorem entries_replaced {es es' : List (String × StyleValue)}
    (h : List.Forall₂ (EntryReplaces theme R) es es') {groups : List (List PropertyRules)}
    (hes : List.Forall₂ (fun e gs => entry theme e.1 e.2 = .ok gs) es groups) :
    ∃ groups', List.Forall₂ (fun e gs => entry theme e.1 e.2 = .ok gs) es' groups' ∧
      List.Forall₂ R groups.flatten groups'.flatten := by
  induction h generalizing groups with
  | nil =>
      rw [List.forall₂_nil_left_iff.1 hes]
      exact ⟨[], .nil, .nil⟩
  | cons he _ ih =>
      obtain ⟨first, rest, hfirst, hrest, rfl⟩ := List.forall₂_cons_left_iff.1 hes
      obtain ⟨first', hfirst', hR⟩ := entry_replaced he hfirst
      obtain ⟨rest', hrest', hall⟩ := ih hrest
      exact ⟨first' :: rest', .cons hfirst' hrest', List.rel_append hR hall⟩

/-- A description whose entries are replaced lowers to groups that are related. -/
theorem lower_replaced {d d' : StyleDescription}
    (h : List.Forall₂ (EntryReplaces theme R) d.entries d'.entries) {f : RuleForest}
    (hf : lower theme d = .ok f) :
    ∃ f', lower theme d' = .ok f' ∧ List.Forall₂ R f.groups f'.groups := by
  obtain ⟨groups, hgroups, rfl⟩ := lower_ok_iff.1 hf
  obtain ⟨groups', hgroups', hR⟩ := entries_replaced h hgroups
  exact ⟨⟨groups'.flatten⟩, lower_ok_iff.2 ⟨groups', hgroups', rfl⟩, hR⟩

end

end Lowering

/-! ## What groups select -/

/-- Two groups are of one property and give the same classes under every state. -/
structure PropertyRules.SelectsAs (g g' : PropertyRules) : Prop where
  unit : g.unit = g'.unit
  run : ∀ state,
    Node.runAll state (Node.ofRules g.rules) = Node.runAll state (Node.ofRules g'.rules)

theorem PropertyRules.SelectsAs.refl (g : PropertyRules) : g.SelectsAs g :=
  ⟨rfl, fun _ => rfl⟩

/-- Normal forms of one meaning are lowered to groups that select the same. -/
theorem Lowering.selectsAs_of_classes {target : Target} {tree tree' : StyleNode}
    {rules rules' : List Rule} (h : node target [] tree = .ok rules)
    (h' : node target [] tree' = .ok rules')
    (heq : ∀ state, tree.classes state target ∅ = tree'.classes state target ∅) :
    (groupRules target rules).SelectsAs (groupRules target rules') := by
  rw [← Finset.sort_empty (· ≤ ·)] at h h'
  refine ⟨rfl, fun state => ?_⟩
  show Node.runAll state (Node.ofRules rules) = Node.runAll state (Node.ofRules rules')
  rw [runAll_lowered state tree h, runAll_lowered state tree' h', heq state]

theorem contributions_congr {f f' : RuleForest}
    (h : List.Forall₂ PropertyRules.SelectsAs f.groups f'.groups) (state : RenderState) :
    (SelectionProcedure.ofForest f).groups.map (SelectionProcedure.contribution state) =
      (SelectionProcedure.ofForest f').groups.map (SelectionProcedure.contribution state) := by
  rw [SelectionProcedure.ofForest, SelectionProcedure.ofForest, List.map_map, List.map_map,
    map_eq_map_iff_forall₂]
  exact h.imp fun _ _ hg => Prod.ext hg.unit (hg.run state)

/-- Forests whose groups select the same select the same class list. -/
theorem select_congr {f f' : RuleForest}
    (h : List.Forall₂ PropertyRules.SelectsAs f.groups f'.groups) (state : RenderState) :
    (SelectionProcedure.ofForest f).select state =
      (SelectionProcedure.ofForest f').select state := by
  obtain ⟨heffective, -⟩ :=
    SelectionProcedure.effective_deciding state (SelectionProcedure.ofForest f).groups
  obtain ⟨heffective', -⟩ :=
    SelectionProcedure.effective_deciding state (SelectionProcedure.ofForest f').groups
  rw [SelectionProcedure.select, SelectionProcedure.select, SelectionProcedure.selected,
    SelectionProcedure.selected, heffective, heffective', contributions_congr h state]

end AtomicStyles
