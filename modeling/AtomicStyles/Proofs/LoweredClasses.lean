import AtomicStyles.Proofs.LoweredRules
import AtomicStyles.Proofs.UnitCode

/-!
# Where the classes of a lowered forest come from

A leaf of a normal form stands under some theme conditions, and lowering makes
one class of it. So the classes of a forest are the leaves of the normal forms
of its description, in order, and whatever holds of each leaf holds of each
class. `mem_classes_lowered` is the way from a class back to its leaf, and the
laws about tokens and conditions are read off there.
-/

namespace AtomicStyles

open Lowering (Target)

namespace StyleNode

mutual

/-- The leaves of a normal form, each with the ascending theme conditions that
it stands under. -/
def leaves (active : List ConditionId) : StyleNode → List (List ConditionId × Literal)
  | .leaf l => [(active, l)]
  | .branching bs => branchLeaves active bs

def branchLeaves (active : List ConditionId) :
    List (BranchCondition × StyleNode) → List (List ConditionId × Literal)
  | [] => []
  | (c, n) :: bs => leaves (c.within active) n ++ branchLeaves active bs

end

mutual

/-- All conditions of a normal form have a property. -/
def Each (p : BranchCondition → Prop) : StyleNode → Prop
  | .leaf _ => True
  | .branching bs => EachBranch p bs

def EachBranch (p : BranchCondition → Prop) : List (BranchCondition × StyleNode) → Prop
  | [] => True
  | (c, n) :: bs => p c ∧ n.Each p ∧ EachBranch p bs

end

theorem eachBranch_iff {p : BranchCondition → Prop} {bs : List (BranchCondition × StyleNode)} :
    EachBranch p bs ↔ ∀ b ∈ bs, p b.1 ∧ b.2.Each p := by
  induction bs with
  | nil => simp [EachBranch]
  | cons b bs ih => rw [EachBranch, ih, List.forall_mem_cons, and_assoc]

mutual

theorem each_of_forall {p : BranchCondition → Prop} (h : ∀ c, p c) (tree : StyleNode) :
    tree.Each p := by
  match tree with
  | .leaf l => trivial
  | .branching bs => exact eachBranch_of_forall h bs

theorem eachBranch_of_forall {p : BranchCondition → Prop} (h : ∀ c, p c)
    (bs : List (BranchCondition × StyleNode)) : EachBranch p bs := by
  match bs with
  | [] => trivial
  | (c, n) :: bs => exact ⟨h c, each_of_forall h n, eachBranch_of_forall h bs⟩

end

section

variable {p : List ConditionId → Prop} {q : BranchCondition → Prop}

mutual

/-- What every branch hands on from the conditions around it to those inside it
reaches the leaves. -/
theorem leaves_of_within (hwithin : ∀ c, q c → ∀ active, p active → p (c.within active))
    (tree : StyleNode) (h : tree.Each q) {active : List ConditionId} (hactive : p active) :
    ∀ leaf ∈ tree.leaves active, p leaf.1 := by
  match tree with
  | .leaf l =>
      intro leaf hleaf
      rw [leaves, List.mem_singleton] at hleaf
      rw [hleaf]
      exact hactive
  | .branching bs =>
      rw [leaves]
      exact branchLeaves_of_within hwithin bs h hactive

theorem branchLeaves_of_within (hwithin : ∀ c, q c → ∀ active, p active → p (c.within active))
    (bs : List (BranchCondition × StyleNode)) (h : EachBranch q bs)
    {active : List ConditionId} (hactive : p active) :
    ∀ leaf ∈ branchLeaves active bs, p leaf.1 := by
  match bs with
  | [] => simp [branchLeaves]
  | (c, n) :: bs =>
      obtain ⟨hc, hn, hbs⟩ := h
      rw [branchLeaves]
      intro leaf hleaf
      rcases List.mem_append.1 hleaf with hleaf | hleaf
      · exact leaves_of_within hwithin n hn (hwithin c hc active hactive) leaf hleaf
      · exact branchLeaves_of_within hwithin bs hbs hactive leaf hleaf

end

end

theorem within_ascending (c : BranchCondition) (active : List ConditionId)
    (h : active.Pairwise (· < ·)) : (c.within active).Pairwise (· < ·) := by
  cases c with
  | theme id => exact Lowering.activate_sorted id h
  | fallback => exact h
  | flag name => exact h
  | variant name tag => exact h

theorem leaves_ascending (tree : StyleNode) {active : List ConditionId}
    (h : active.Pairwise (· < ·)) : ∀ leaf ∈ tree.leaves active, leaf.1.Pairwise (· < ·) :=
  leaves_of_within (fun c _ active => within_ascending c active) tree
    (each_of_forall (fun _ => trivial) tree) h

end StyleNode

namespace Lowering

/-- The fragment whose unit starts the tokens of a target. -/
def Target.key : Target → Code.Fragment
  | .themed id _ _ => .indexed id
  | .typed name _ _ => .ofText name
  | .raw name => .ofText name

theorem Target.unit_eq (target : Target) : target.unit = target.key.unit := by
  cases target <;> rfl

/-- The class that a target gets from a leaf. -/
def ClassOf (target : Target) (leaf : List ConditionId × Literal) (r : ClassRule) : Prop :=
  ∃ resolved, target.resolve leaf.2 = .ok resolved ∧ r = classRule target leaf.1 resolved

theorem allClasses_leafRule (r : ClassRule) : Rule.allClasses [leafRule r] = [r] := by
  rfl

theorem allClasses_branchRule (active : List ConditionId) (c : BranchCondition)
    (children rest : List Rule) :
    Rule.allClasses (branchRule active c children :: rest) =
      Rule.allClasses children ++ Rule.allClasses rest := by
  rw [branchRule, Rule.allClasses, Rule.classes]

mutual

/-- Lowering makes one class of each leaf. -/
theorem allClasses_lowered {target : Target} {active : List ConditionId} {rules : List Rule}
    (tree : StyleNode) (h : node target active tree = .ok rules) :
    List.Forall₂ (ClassOf target) (tree.leaves active) (Rule.allClasses rules) := by
  match tree with
  | .leaf l =>
      obtain ⟨resolved, hres, rfl⟩ := node_leaf_ok_iff.1 h
      rw [StyleNode.leaves, allClasses_leafRule]
      exact .cons ⟨resolved, hres, rfl⟩ .nil
  | .branching bs =>
      rw [node] at h
      rw [StyleNode.leaves]
      exact allClasses_loweredBranches bs h

theorem allClasses_loweredBranches {target : Target} {active : List ConditionId}
    {rules : List Rule} (bs : List (BranchCondition × StyleNode))
    (h : branches target active bs = .ok rules) :
    List.Forall₂ (ClassOf target) (StyleNode.branchLeaves active bs)
      (Rule.allClasses rules) := by
  match bs with
  | [] =>
      obtain rfl := branches_nil_ok_iff.1 h
      exact .nil
  | (c, n) :: bs =>
      obtain ⟨children, rest, hn, hbs, rfl⟩ := branches_cons_ok_iff.1 h
      rw [StyleNode.branchLeaves, allClasses_branchRule]
      exact List.rel_append (allClasses_lowered n hn) (allClasses_loweredBranches bs hbs)

end

/-- A class rule comes from a leaf of one of the settings of the description. -/
def ComesFrom (theme : Theme) (s : Target × StyleValue) (r : ClassRule) : Prop :=
  ∃ name tree leaf, StyleNode.normalize theme name s.2 = .ok tree ∧
    leaf ∈ tree.leaves [] ∧ ClassOf s.1 leaf r

theorem mem_classes_group {theme : Theme} {s : Target × StyleValue} {g : PropertyRules}
    (h : GroupOf theme s g) {r : ClassRule} (hr : r ∈ Rule.allClasses g.rules) :
    ComesFrom theme s r := by
  obtain ⟨name, tree, rules, htree, hrules, rfl⟩ := h
  obtain ⟨leaf, hleaf, hclass⟩ := exists_of_forall₂_right (allClasses_lowered tree hrules) hr
  exact ⟨name, tree, leaf, htree, hleaf, hclass⟩

/-- Every class of a lowered forest comes from a leaf of a setting. -/
theorem mem_classes_lowered {theme : Theme} {d : StyleDescription} {f : RuleForest}
    (h : lower theme d = .ok f) {r : ClassRule} (hr : r ∈ f.classes) :
    ∃ s ∈ Meaning.allSettings theme d, ComesFrom theme s r := by
  obtain ⟨g, hg, hr⟩ := List.mem_flatMap.1 hr
  obtain ⟨s, hs, hgroup⟩ := exists_of_forall₂_right (lower_ok h) hg
  exact ⟨s, hs, mem_classes_group hgroup hr⟩

theorem ComesFrom.conditions_ascending {theme : Theme} {s : Target × StyleValue} {r : ClassRule}
    (h : ComesFrom theme s r) : r.conditions.Pairwise (· < ·) := by
  obtain ⟨name, tree, leaf, -, hleaf, resolved, -, rfl⟩ := h
  exact StyleNode.leaves_ascending tree .nil leaf hleaf

/-- The token of a class is made of the key of its target, its conditions and
the fragment of its value. -/
theorem ComesFrom.token_eq {theme : Theme} {s : Target × StyleValue} {r : ClassRule}
    (h : ComesFrom theme s r) :
    ∃ value, r.token = Code.token s.1.key.unit r.conditions value := by
  obtain ⟨name, tree, leaf, -, -, resolved, -, rfl⟩ := h
  exact ⟨resolved.fragment, by rw [classRule, Target.unit_eq]⟩

end Lowering

/-- A text that can stand as one class of a class list. -/
def IsClassName (token : String) : Prop :=
  token ≠ "" ∧ ∀ c ∈ token.toList, Text.isSeparator c = false

theorem isClassName_token (key : Code.Fragment) (conditions : List ConditionId)
    (value : Code.Fragment) : IsClassName (Code.token key.unit conditions value) := by
  rw [Code.token_eq_ofList]
  constructor
  · intro h
    have hnil := congrArg String.toList h
    rw [String.toList_ofList, Code.tokenUnits, List.cons_append, List.flatMap_cons] at hnil
    exact Code.unit_ne_nil key (List.append_eq_nil_iff.1 hnil).1
  · intro c hc
    rw [String.toList_ofList] at hc
    obtain ⟨u, -, hu⟩ := List.mem_flatMap.1 hc
    exact Code.not_isSeparator_of_isUnitChar (Code.unit_isUnitChar u c hu)

/-- Every token of a lowered forest can stand as a class of a class list. -/
theorem isClassName_of_mem_tokens {theme : Theme} {d : StyleDescription} {f : RuleForest}
    (h : lower theme d = .ok f) {token : String} (ht : token ∈ f.tokens) :
    IsClassName token := by
  obtain ⟨r, hr, rfl⟩ := List.mem_map.1 ht
  obtain ⟨s, -, hfrom⟩ := Lowering.mem_classes_lowered h hr
  obtain ⟨value, htoken⟩ := hfrom.token_eq
  rw [htoken]
  exact isClassName_token s.1.key r.conditions value

end AtomicStyles
