import AtomicStyles.Proofs.ClassList
import AtomicStyles.Proofs.LoweredRules
import AtomicStyles.Proofs.NormalForm

/-!
# Selection computes the meaning of a description

A description goes through three passes before it selects anything: it is
brought into normal form, lowered to rules, and read as decision nodes. The
main statement says that what the last pass selects is what the interpreter of
`Meaning.lean` finds in the description itself, for every state.

The chain is cut at the normal form, which gets a meaning of its own. Lowering
keeps that meaning by an induction over the tree. Normalizing keeps it by an
induction along the interpreter: a scope of the normalizer is always the
normal forms of the ways that the interpreter hands down, taken with nothing
handed to them, and that is the invariant which carries the induction.
-/

namespace AtomicStyles

open Lowering (Target)

theorem BranchCondition.runtime?_isNone (c : BranchCondition) :
    c.runtime?.isNone = !c.isDynamic := by
  cases c <;> rfl

theorem BranchCondition.enter_of_isDynamic {c : BranchCondition} (h : c.isDynamic)
    (active : Finset ConditionId) : c.enter active = active := by
  cases c with
  | fallback => rfl
  | theme id => simp [BranchCondition.isDynamic] at h
  | flag name => rfl
  | variant name tag => rfl

/-! ## The meaning of a normal form -/

namespace StyleNode

mutual

/-- The classes of a normal form under a state, inside the active theme
conditions. -/
def classes (state : RenderState) (target : Target) (active : Finset ConditionId) :
    StyleNode → List String
  | .leaf l => Meaning.literalClasses target active l
  | .branching bs =>
      (decided? state target active bs).getD (undecided state target active bs)

/-- The classes of the first branch that the state satisfies. -/
def decided? (state : RenderState) (target : Target) (active : Finset ConditionId) :
    List (BranchCondition × StyleNode) → Option (List String)
  | [] => none
  | (c, n) :: bs =>
      if c.holds state then some (classes state target (c.enter active) n)
      else decided? state target active bs

/-- The classes of the branches that no state decides. -/
def undecided (state : RenderState) (target : Target) (active : Finset ConditionId) :
    List (BranchCondition × StyleNode) → List String
  | [] => []
  | (c, n) :: bs =>
      if c.isDynamic then undecided state target active bs
      else classes state target (c.enter active) n ++ undecided state target active bs

end

end StyleNode

/-! ## Lowering keeps the meaning -/

namespace Node

theorem run_branchRule (state : RenderState) (active : List ConditionId) (c : BranchCondition)
    (children : List Rule) :
    run state (ofRule (Lowering.branchRule active c children)) =
      runAll state (ofRules children) :=
  run_nested state _ _ _ children

theorem isChosen_branchRule (state : RenderState) (active : List ConditionId)
    (c : BranchCondition) (children : List Rule) :
    (ofRule (Lowering.branchRule active c children)).isChosen state = c.holds state := by
  cases c <;> rfl

theorem condition_branchRule (active : List ConditionId) (c : BranchCondition)
    (children : List Rule) :
    (ofRule (Lowering.branchRule active c children)).condition = c.runtime? := by
  rfl

theorem runAll_leafRule (state : RenderState) (r : ClassRule) :
    runAll state (ofRules [Lowering.leafRule r]) = [r.token] := by
  rfl

end Node

mutual

/-- The nodes of a lowered normal form select what the normal form means. -/
theorem runAll_lowered (state : RenderState) {target : Target} {active : Finset ConditionId}
    {rules : List Rule} (tree : StyleNode)
    (h : Lowering.node target (active.sort (· ≤ ·)) tree = .ok rules) :
    Node.runAll state (Node.ofRules rules) = tree.classes state target active := by
  match tree with
  | .leaf l =>
      obtain ⟨resolved, hres, rfl⟩ := Lowering.node_leaf_ok_iff.1 h
      rw [Node.runAll_leafRule, StyleNode.classes, Meaning.literalClasses, hres]
      rfl
  | .branching bs =>
      rw [Lowering.node] at h
      obtain ⟨hchosen, hrest⟩ := runBranches_lowered state bs h
      rw [StyleNode.classes, Node.runAll, hchosen, hrest]

theorem runBranches_lowered (state : RenderState) {target : Target}
    {active : Finset ConditionId} {rules : List Rule} (bs : List (BranchCondition × StyleNode))
    (h : Lowering.branches target (active.sort (· ≤ ·)) bs = .ok rules) :
    Node.chosen? state (Node.ofRules rules) = StyleNode.decided? state target active bs ∧
      Node.unconditional state (Node.ofRules rules) =
        StyleNode.undecided state target active bs := by
  match bs with
  | [] =>
      obtain rfl := Lowering.branches_nil_ok_iff.1 h
      exact ⟨rfl, rfl⟩
  | (c, n) :: bs =>
      obtain ⟨children, rest, hn, hbs, rfl⟩ := Lowering.branches_cons_ok_iff.1 h
      rw [Lowering.within_sort] at hn
      have hchildren := runAll_lowered state n hn
      obtain ⟨hchosen, hrest⟩ := runBranches_lowered state bs hbs
      constructor
      · rw [Node.ofRules, Node.chosen?, StyleNode.decided?, Node.isChosen_branchRule,
          Node.run_branchRule, hchildren, hchosen]
      · rw [Node.ofRules, Node.unconditional, StyleNode.undecided, Node.condition_branchRule,
          BranchCondition.runtime?_isNone, Node.run_branchRule, hchildren, hrest]
        cases c.isDynamic <;> rfl

end

/-! ## Normalizing keeps the meaning -/

namespace StyleNode

open Meaning (Way ways handedDown undeclared follow followAll)

section

variable {theme : Theme} {property : String} {state : RenderState} {target : Target}
  {active : Finset ConditionId}

theorem decided?_eq_none {bs : List (BranchCondition × StyleNode)}
    (h : ∀ b ∈ bs, ¬ b.1.holds state) : decided? state target active bs = none := by
  induction bs with
  | nil => rfl
  | cons b bs ih =>
      obtain ⟨hb, hbs⟩ := List.forall_mem_cons.1 h
      rw [decided?, if_neg hb]
      exact ih hbs

theorem undecided_append (bs cs : List (BranchCondition × StyleNode)) :
    undecided state target active (bs ++ cs) =
      undecided state target active bs ++ undecided state target active cs := by
  induction bs with
  | nil => rfl
  | cons b bs ih =>
      rw [List.cons_append, undecided, undecided, ih]
      split
      · rfl
      · rw [List.append_assoc]

/-- The branch that decides is that of the way that is followed. -/
theorem decided?_branchOf {handed ws : List Way} {w : Way}
    {bs : List (BranchCondition × StyleNode)}
    (h : List.Forall₂ (BranchOf theme property handed) ws bs)
    (hw : ws.find? (fun w => w.1.holds state) = some w)
    (rest : List (BranchCondition × StyleNode)) :
    ∃ b, BranchOf theme property handed w b ∧
      decided? state target active (bs ++ rest) =
        some (b.2.classes state target (w.1.enter active)) := by
  induction h with
  | nil => cases hw
  | @cons v b ws bs hb _ ih =>
      rw [List.cons_append, decided?, hb.1]
      by_cases hv : v.1.holds state
      · simp only [List.find?_cons, hv, Option.some.injEq] at hw
        subst hw
        exact ⟨b, hb, by rw [if_pos hv]⟩
      · simp only [List.find?_cons, hv] at hw
        rw [if_neg hv]
        exact ih hw

theorem undecided_branchOf (state : RenderState) (target : Target)
    (active : Finset ConditionId) {handed ws : List Way}
    {bs : List (BranchCondition × StyleNode)}
    (h : List.Forall₂ (BranchOf theme property handed) ws bs) :
    ∃ cs, List.Forall₂ (SettledOf theme property) (ws.filter fun w => !w.1.isDynamic) cs ∧
      undecided state target active bs = undecided state target active cs := by
  induction h with
  | nil => exact ⟨[], .nil, rfl⟩
  | @cons w b ws bs hb _ ih =>
      obtain ⟨cs, hcs, heq⟩ := ih
      rw [undecided, hb.1]
      by_cases hw : w.1.isDynamic
      · refine ⟨cs, ?_, ?_⟩
        · rw [List.filter_cons_of_neg (by simp [hw])]
          exact hcs
        · rw [if_pos hw, heq]
      · refine ⟨b :: cs, ?_, ?_⟩
        · rw [List.filter_cons_of_pos (by simp [hw])]
          exact .cons ((branchOf_static_iff hw).1 hb) hcs
        · rw [undecided, hb.1, heq]

theorem forall_condition {R : Way → BranchCondition × StyleNode → Prop} {ws : List Way}
    {bs : List (BranchCondition × StyleNode)} (h : List.Forall₂ R ws bs)
    (hR : ∀ w b, R w b → b.1 = w.1) {p : BranchCondition → Prop}
    (hws : ∀ w ∈ ws, p w.1) : ∀ b ∈ bs, p b.1 := by
  induction h with
  | nil => simp
  | cons hb _ ih =>
      obtain ⟨hw, hrest⟩ := List.forall_mem_cons.1 hws
      refine List.forall_mem_cons.2 ⟨?_, ih hrest⟩
      rw [hR _ _ hb]
      exact hw

end

/-- Normalizing a value inside what is handed to it keeps its meaning. -/
def KeepsMeaning (theme : Theme) (property : String) (state : RenderState) (target : Target)
    (active : Finset ConditionId) (value : StyleValue) (inherited : List Way) : Prop :=
  ∀ tree, (∀ w ∈ inherited, ¬ w.1.isDynamic) →
    ofValue theme property value (settle theme property inherited) = .ok tree →
    tree.classes state target active = follow theme state target active value inherited

/-- Normalizing several ways with nothing handed to them keeps their meaning. -/
def KeepMeaning (theme : Theme) (property : String) (state : RenderState) (target : Target)
    (active : Finset ConditionId) (ws : List Way) : Prop :=
  ∀ bs, (∀ w ∈ ws, ¬ w.1.isDynamic) → List.Forall₂ (SettledOf theme property) ws bs →
    undecided state target active bs = followAll theme state target active ws

theorem declared_static (own : List Way) : ∀ w ∈ Meaning.declared own, ¬ w.1.isDynamic := by
  intro w hw
  obtain ⟨c, value⟩ := w
  rcases List.mem_append.1 hw with hw | hw
  · have hc := List.find?_some (Option.mem_toList.1 hw)
    have hc : c = .fallback := by simpa using hc
    rw [hc]
    simp [BranchCondition.isDynamic]
  · have hc : c.isTheme := (List.mem_filter.1 hw).2
    cases c <;> simp [BranchCondition.isTheme, BranchCondition.isDynamic] at hc ⊢

theorem handedDown_static (own : List Way) {inherited : List Way}
    (h : ∀ w ∈ inherited, ¬ w.1.isDynamic) :
    ∀ w ∈ handedDown own inherited, ¬ w.1.isDynamic := by
  intro w hw
  rcases List.mem_append.1 hw with hw | hw
  · exact declared_static own w hw
  · exact h w (List.mem_filter.1 hw).1

theorem undecided_static (own : List Way) {inherited : List Way}
    (h : ∀ w ∈ inherited, ¬ w.1.isDynamic) :
    ∀ w ∈ Meaning.undecided own inherited, ¬ w.1.isDynamic := by
  intro w hw
  rcases List.mem_append.1 hw with hw | hw
  · simpa using (List.mem_filter.1 hw).2
  · exact h w (List.mem_filter.1 hw).1

theorem not_holds_of_static {c : BranchCondition} (h : ¬ c.isDynamic) (state : RenderState) :
    ¬ c.holds state := fun hc => h (Meaning.isDynamic_of_holds hc)

section

variable {theme : Theme} {property : String} {state : RenderState} {target : Target}
  {active : Finset ConditionId} {inherited : List Way} {entries : List (String × StyleValue)}

/-- The state satisfies a way: its branch decides, and it is handed the same. -/
theorem keepsMeaning_followed {w : Way}
    (hw : (ways theme entries).find? (fun w => w.1.holds state) = some w)
    (ih : KeepsMeaning theme property state target active w.2
      (handedDown (ways theme entries) inherited)) :
    KeepsMeaning theme property state target active (.conditional entries) inherited := by
  intro tree hstatic h
  obtain ⟨-, bs, rest, hbs, -, rfl⟩ := ofValue_conditional_ok_iff.1 h
  obtain ⟨b, hb, hdecided⟩ := decided?_branchOf hbs hw rest
  have hdyn : w.1.isDynamic := Meaning.isDynamic_of_holds (by simpa using List.find?_some hw)
  rw [BranchOf, handedTo, if_pos hdyn] at hb
  rw [classes, hdecided, BranchCondition.enter_of_isDynamic hdyn, Option.getD_some,
    ih b.2 (handedDown_static _ hstatic) hb.2, follow, hw]

/-- The state satisfies no way: all branches that no state decides are followed,
the object's own and those that it takes over. -/
theorem keepsMeaning_undecided
    (hw : (ways theme entries).find? (fun w => w.1.holds state) = none)
    (ih : KeepMeaning theme property state target active
      (Meaning.undecided (ways theme entries) inherited)) :
    KeepsMeaning theme property state target active (.conditional entries) inherited := by
  intro tree hstatic h
  obtain ⟨-, bs, rest, hbs, hrest, rfl⟩ := ofValue_conditional_ok_iff.1 h
  have hnone : decided? state target active (bs ++ rest) = none := by
    refine decided?_eq_none fun b hb => ?_
    rcases List.mem_append.1 hb with hb | hb
    · exact forall_condition (p := fun c => ¬ c.holds state) hbs (fun _ _ h => h.1)
        (List.find?_eq_none.1 hw) b hb
    · exact forall_condition (p := fun c => ¬ c.holds state) hrest (fun _ _ h => h.1)
        (fun w hw => not_holds_of_static (hstatic w (List.mem_filter.1 hw).1) state) b hb
  obtain ⟨cs, hcs, hundecided⟩ := undecided_branchOf state target active hbs
  rw [classes, hnone, Option.getD_none, undecided_append, hundecided, ← undecided_append,
    ih (cs ++ rest) (undecided_static _ hstatic) (List.rel_append hcs hrest), follow, hw]

end

/-- Normalizing keeps the meaning of every value. -/
theorem classes_normal (theme : Theme) (property : String) (state : RenderState)
    (target : Target) (active : Finset ConditionId) (value : StyleValue)
    (inherited : List Way) :
    KeepsMeaning theme property state target active value inherited := by
  refine Meaning.follow.induct theme state (KeepsMeaning theme property state target)
    (KeepMeaning theme property state target) ?literal ?followed ?undecided ?nil ?cons
    active value inherited
  case literal =>
    intro active inherited l tree _ h
    rw [ofValue_literal_ok_iff.1 h, classes, follow]
  case followed =>
    intro active inherited entries w hw ih
    exact keepsMeaning_followed hw ih
  case undecided =>
    intro active inherited entries hw ih
    exact keepsMeaning_undecided hw ih
  case nil =>
    intro active bs _ h
    rw [List.forall₂_nil_left_iff.1 h, undecided, followAll]
  case cons =>
    intro active w ws ih ihs bs hstatic h
    obtain ⟨b, bs, hb, hbs, rfl⟩ := List.forall₂_cons_left_iff.1 h
    obtain ⟨hw, hws⟩ := List.forall_mem_cons.1 hstatic
    rw [undecided, hb.1, if_neg hw, followAll, ih b.2 (by simp) hb.2, ihs bs hws hbs]

end StyleNode

/-! ## Groups and descriptions -/

namespace SelectionProcedure

/-- What a group contributes under a state, with the unit of its property. -/
def contribution (state : RenderState) (g : PropertyGroup) : String × List String :=
  (g.property, Node.runAll state g.nodes)

/-- Going through the groups from the last to the first, a procedure keeps those
that decide, and it has noted the units of the groups that gave a class. -/
theorem effective_deciding (state : RenderState) (groups : List PropertyGroup) :
    (effective state groups).1 = Meaning.deciding (groups.map (contribution state)) ∧
      ∀ unit, (effective state groups).2.contains unit =
        (groups.map (contribution state)).any fun later => later.1 == unit && !later.2.isEmpty := by
  induction groups with
  | nil => exact ⟨rfl, fun _ => rfl⟩
  | cons g gs ih =>
      obtain ⟨htokens, hdecided⟩ := ih
      rw [effective, List.map_cons]
      dsimp only
      rw [contribution, Meaning.deciding, ← hdecided]
      cases hg : (effective state gs).2.contains g.property with
      | true =>
          rw [if_pos rfl, if_pos rfl]
          refine ⟨htokens, fun unit => ?_⟩
          rw [List.any_cons, hdecided]
          by_cases hunit : g.property = unit
          · rw [← hunit, ← hdecided, hg, Bool.or_true]
          · simp [hunit]
      | false =>
          rw [if_neg Bool.false_ne_true, if_neg Bool.false_ne_true]
          cases hown : Node.runAll state g.nodes with
          | nil =>
              refine ⟨htokens, fun unit => ?_⟩
              rw [List.any_cons, hdecided]
              simp
          | cons t ts =>
              refine ⟨by rw [htokens], fun unit => ?_⟩
              rw [List.any_cons, List.contains_cons, hdecided, Bool.beq_comm]
              simp

end SelectionProcedure

theorem contribution_lowered {theme : Theme} (state : RenderState) {s : Target × StyleValue}
    {g : PropertyRules} (h : Lowering.GroupOf theme s g) :
    (String.ofList s.1.unit, Meaning.follow theme state s.1 ∅ s.2 []) =
      SelectionProcedure.contribution state ⟨g.unit, Node.ofRules g.rules⟩ := by
  obtain ⟨name, tree, rules, htree, hrules, rfl⟩ := h
  have hrun : Node.runAll state (Node.ofRules rules) = tree.classes state s.1 ∅ := by
    refine runAll_lowered state tree ?_
    rw [Finset.sort_empty]
    exact hrules
  have hmeaning := StyleNode.classes_normal theme name state s.1 ∅ s.2 [] tree (by simp) htree
  rw [SelectionProcedure.contribution, Lowering.groupRules, ← hmeaning, ← hrun]

theorem contributions_lowered {theme : Theme} {d : StyleDescription} {f : RuleForest}
    (h : lower theme d = .ok f) (state : RenderState) :
    (SelectionProcedure.ofForest f).groups.map (SelectionProcedure.contribution state) =
      (Meaning.allSettings theme d).map fun s =>
        (String.ofList s.1.unit, Meaning.follow theme state s.1 ∅ s.2 []) := by
  rw [SelectionProcedure.ofForest, List.map_map]
  have hall := (Lowering.lower_ok h).imp fun _ _ => contribution_lowered state
  exact (map_eq_map_iff_forall₂.2 hall).symm

/-- The tokens that a procedure selects are the classes that the description
means. -/
theorem selected_lowered {theme : Theme} {d : StyleDescription} {f : RuleForest}
    (h : lower theme d = .ok f) (state : RenderState) :
    (SelectionProcedure.ofForest f).selected state = Meaning.classes theme state d := by
  obtain ⟨hdeciding, -⟩ :=
    SelectionProcedure.effective_deciding state (SelectionProcedure.ofForest f).groups
  rw [SelectionProcedure.selected, firsts_eq_eraseDups, hdeciding, contributions_lowered h state]
  rfl

/-- Normalizing, lowering and selecting together give the class list that a
description means, under every state. -/
theorem select_eq_classList {theme : Theme} {d : StyleDescription} {f : RuleForest}
    (h : lower theme d = .ok f) (state : RenderState) :
    (SelectionProcedure.ofForest f).select state = Meaning.classList theme state d := by
  rw [SelectionProcedure.select_eq_intercalate h state, selected_lowered h state]
  rfl

/-- An object under a flag sees the fallback of the object around it. Its own
value under `dark` stands first. -/
theorem select_eq_classList_inherited_default :
    ∃ f,
      lower smallTheme (.ofList [("display", .conditional
        [("default", .literal (.text "block")),
         ("isOpen", .conditional [("dark", .literal (.text "flex"))])])]) = .ok f ∧
      (SelectionProcedure.ofForest f).select (RenderState.empty.flag "isOpen" true) =
        Meaning.classList smallTheme (RenderState.empty.flag "isOpen" true)
          (.ofList [("display", .conditional
            [("default", .literal (.text "block")),
             ("isOpen", .conditional [("dark", .literal (.text "flex"))])])]) ∧
      (SelectionProcedure.ofForest f).select (RenderState.empty.flag "isOpen" true) =
        "aab aa" :=
  ⟨_, rfl, select_eq_classList rfl _, by decide +kernel⟩

end AtomicStyles
