import AtomicStyles.Proofs.LoweredClasses

/-!
# The preludes around a rule

Lowering carries the active theme conditions down the normal form as an
ascending list. The list is gone when the forest is done. What is left of it is
what each rule has recorded, and the prelude rules that stand around it. So the
two have to agree, and this file says how far they do.

The invariant goes along the path from the top of a group to a rule: the rules
at the end of the path were lowered under the preludes of the path, put in order
and each taken once. A class rule makes its conditions and its token of that
list, and there nothing goes wrong. A layer is recorded in two places. Inside a
prelude it is the last condition of the list, which is the greatest. The prelude
itself records its own condition, and that is not the greatest when a smaller
condition is nested under a greater one.
-/

namespace AtomicStyles

open Lowering (Target)

def Selector.prelude? : Selector → Option ConditionId
  | .prelude id => some id
  | _ => none

theorem Selector.prelude?_eq_some_iff {selector : Selector} {id : ConditionId} :
    selector.prelude? = some id ↔ selector = .prelude id := by
  cases selector <;> simp [prelude?]

namespace Rule

def selector : Rule → Selector
  | leaf selector _ _ _ => selector
  | nested selector _ _ _ => selector

def layer : Rule → Option ConditionId
  | leaf _ layer _ _ => layer
  | nested _ layer _ _ => layer

/-- The conditions of the preludes among some rules, in the order of the rules. -/
def preludes (rules : List Rule) : List ConditionId :=
  rules.filterMap fun r => r.selector.prelude?

/-- A rule stands among some rules or below them, inside the rules of `above`, of
which the outermost is the first. -/
inductive Path : List Rule → List Rule → Rule → Prop
  | top {rules : List Rule} {r : Rule} (h : r ∈ rules) : Path rules [] r
  | inside {rules children above : List Rule} {r : Rule} {selector : Selector}
      {layer : Option ConditionId} {condition : Option RuntimeCondition}
      (h : nested selector layer condition children ∈ rules) (hp : Path children above r) :
      Path rules (nested selector layer condition children :: above) r

theorem preludes_concat (above : List Rule) (r : Rule) :
    preludes (above ++ [r]) = preludes above ++ r.selector.prelude?.toList := by
  rw [preludes, List.filterMap_append]
  cases hr : r.selector.prelude? <;> simp [preludes, hr]

/-- The innermost rule around a rule is on the path as well. -/
theorem Path.parent {rules outer : List Rule} {parent r : Rule}
    (h : Path rules (outer ++ [parent]) r) : Path rules outer parent := by
  generalize habove : outer ++ [parent] = above at h
  induction h generalizing outer with
  | top _ => simp at habove
  | inside hmem _ ih =>
      cases outer with
      | nil =>
          obtain ⟨rfl, -⟩ := List.cons.inj habove
          exact .top hmem
      | cons o outer =>
          obtain ⟨rfl, hrest⟩ := List.cons.inj habove
          exact .inside hmem (ih hrest)

end Rule

namespace Lowering

/-! ## The active conditions along a path -/

/-- The active conditions inside some rules, which are given from the outside to
the inside. -/
def activeInside (active : List ConditionId) (above : List Rule) : List ConditionId :=
  (Rule.preludes above).foldl (fun active id => activate id active) active

theorem activeInside_cons (active : List ConditionId) (r : Rule) (above : List Rule) :
    activeInside active (r :: above) =
      activeInside (r.selector.prelude?.elim active fun id => activate id active) above := by
  rw [activeInside, Rule.preludes, List.filterMap_cons]
  cases r.selector.prelude? with
  | none => rfl
  | some id => rfl

/-- Entering a branch is entering the rule around it. -/
theorem within_eq_prelude? (active : List ConditionId) (c : BranchCondition) :
    c.within active = c.selector.prelude?.elim active fun id => activate id active := by
  cases c <;> rfl

theorem activeInside_branchRule (active : List ConditionId) (c : BranchCondition)
    (children above : List Rule) :
    activeInside active (branchRule active c children :: above) =
      activeInside (c.within active) above := by
  rw [activeInside_cons, within_eq_prelude?]
  rfl

theorem mem_activeInside {active : List ConditionId} {above : List Rule} {id : ConditionId} :
    id ∈ activeInside active above ↔ id ∈ active ∨ id ∈ Rule.preludes above := by
  rw [activeInside]
  induction Rule.preludes above generalizing active with
  | nil => simp
  | cons c ids ih =>
      rw [List.foldl_cons, ih, mem_activate, List.mem_cons]
      tauto

theorem activeInside_ascending {active : List ConditionId} (h : active.Pairwise (· < ·))
    (above : List Rule) : (activeInside active above).Pairwise (· < ·) := by
  rw [activeInside]
  induction Rule.preludes above generalizing active with
  | nil => exact h
  | cons c ids ih => exact ih (activate_sorted c h)

/-! ## What stands at the end of a path -/

/-- A branch becomes one rule, around those of its own normal form. -/
theorem mem_branches {target : Target} {active : List ConditionId}
    {bs : List (BranchCondition × StyleNode)} {rules : List Rule} {r : Rule}
    (h : branches target active bs = .ok rules) (hr : r ∈ rules) :
    ∃ c n children, (c, n) ∈ bs ∧ node target (c.within active) n = .ok children ∧
      r = branchRule active c children := by
  induction bs generalizing rules with
  | nil =>
      rw [branches_nil_ok_iff.1 h] at hr
      cases hr
  | cons b bs ih =>
      obtain ⟨c, n⟩ := b
      obtain ⟨children, rest, hn, hbs, rfl⟩ := branches_cons_ok_iff.1 h
      rcases List.mem_cons.1 hr with rfl | hr
      · exact ⟨c, n, children, List.mem_cons_self, hn, rfl⟩
      · obtain ⟨c', n', children', hmem, hrest⟩ := ih hbs hr
        exact ⟨c', n', children', List.mem_cons_of_mem _ hmem, hrest⟩

/-- A rule that lowering has made of a normal form is the class of its leaf, or
stands around the rules of one of its branches. -/
theorem mem_node {target : Target} {active : List ConditionId} {tree : StyleNode}
    {rules : List Rule} {r : Rule} (h : node target active tree = .ok rules) (hr : r ∈ rules) :
    (∃ value resolved, tree = .leaf value ∧ target.resolve value = .ok resolved ∧
        r = leafRule (classRule target active resolved)) ∨
      ∃ bs c n children, tree = .branching bs ∧ (c, n) ∈ bs ∧
        node target (c.within active) n = .ok children ∧ r = branchRule active c children := by
  cases tree with
  | leaf value =>
      obtain ⟨resolved, hres, rfl⟩ := node_leaf_ok_iff.1 h
      exact .inl ⟨value, resolved, rfl, hres, List.mem_singleton.1 hr⟩
  | branching bs =>
      rw [node] at h
      obtain ⟨c, n, children, hmem, hn, hrule⟩ := mem_branches h hr
      exact .inr ⟨bs, c, n, children, rfl, hmem, hn, hrule⟩

theorem leaves_subset_branchLeaves {active : List ConditionId} {c : BranchCondition}
    {n : StyleNode} {bs : List (BranchCondition × StyleNode)} (h : (c, n) ∈ bs) :
    n.leaves (c.within active) ⊆ StyleNode.branchLeaves active bs := by
  induction bs with
  | nil => cases h
  | cons b bs ih =>
      obtain ⟨c', n'⟩ := b
      rw [StyleNode.branchLeaves]
      rcases List.mem_cons.1 h with heq | h
      · cases heq
        exact List.subset_append_left _ _
      · exact List.Subset.trans (ih h) (List.subset_append_right _ _)

/-- The rules at the end of a path are those of a part of the normal form, lowered
under the preludes of the path. -/
theorem lowered_at_path {target : Target} {active : List ConditionId} {tree : StyleNode}
    {rules above : List Rule} {r : Rule} (h : node target active tree = .ok rules)
    (hp : Rule.Path rules above r) :
    ∃ part siblings, node target (activeInside active above) part = .ok siblings ∧
      r ∈ siblings ∧ part.leaves (activeInside active above) ⊆ tree.leaves active := by
  induction hp generalizing tree active with
  | @top rules r hr => exact ⟨tree, rules, h, hr, List.Subset.refl _⟩
  | inside hmem _ ih =>
      obtain ⟨value, resolved, -, -, hleaf⟩ | ⟨bs, c, n, children, rfl, hc, hn, hrule⟩ :=
        mem_node h hmem
      · -- a class rule has nothing below it
        cases hleaf
      · cases hrule
        obtain ⟨part, siblings, hpart, hr, hleaves⟩ := ih hn
        rw [← activeInside_branchRule active c _] at hpart hleaves
        refine ⟨part, siblings, hpart, hr, List.Subset.trans hleaves ?_⟩
        rw [StyleNode.leaves]
        exact leaves_subset_branchLeaves hc

/-- What lowering has made of a rule's place: the class of a leaf, or the rule around
a branch. -/
theorem rule_at_path {target : Target} {tree : StyleNode} {rules above : List Rule} {r : Rule}
    (h : node target [] tree = .ok rules) (hp : Rule.Path rules above r) :
    (∃ value resolved, (activeInside [] above, value) ∈ tree.leaves [] ∧
        target.resolve value = .ok resolved ∧
        r = leafRule (classRule target (activeInside [] above) resolved)) ∨
      ∃ c children, r = branchRule (activeInside [] above) c children := by
  obtain ⟨part, siblings, hpart, hr, hleaves⟩ := lowered_at_path h hp
  obtain ⟨value, resolved, rfl, hres, hrule⟩ | ⟨bs, c, n, children, -, -, -, hrule⟩ :=
    mem_node hpart hr
  · exact .inl ⟨value, resolved, hleaves (List.mem_singleton.2 rfl), hres, hrule⟩
  · exact .inr ⟨c, children, hrule⟩

end Lowering

/-! ## Layers -/

/-- The last of an ascending list is the greatest of all lists with the same
members. -/
theorem getLast?_eq_max? {ids others : List ConditionId} (h : ids.Pairwise (· < ·))
    (hmem : ∀ id, id ∈ ids ↔ id ∈ others) : ids.getLast? = others.max? := by
  cases ids using List.reverseRecOn with
  | nil =>
      have hnil : others = [] :=
        List.eq_nil_iff_forall_not_mem.2 fun id hid => List.not_mem_nil ((hmem id).2 hid)
      rw [hnil]
      rfl
  | append_singleton ids id =>
      obtain ⟨-, -, hlast⟩ := List.pairwise_append.1 h
      rw [List.getLast?_concat]
      symm
      refine List.max?_eq_some_iff.2 ⟨(hmem id).1 (by simp), ?_⟩
      intro other hother
      rcases List.mem_append.1 ((hmem other).2 hother) with hother | hother
      · exact Nat.le_of_lt (hlast other hother id (List.mem_singleton_self id))
      · exact Nat.le_of_eq (List.mem_singleton.1 hother)

theorem getLast?_activeInside (above : List Rule) :
    (Lowering.activeInside [] above).getLast? = (Rule.preludes above).max? :=
  getLast?_eq_max? (Lowering.activeInside_ascending .nil above) fun id => by
    rw [Lowering.mem_activeInside]
    simp

section

variable {theme : Theme} {d : StyleDescription} {f : RuleForest} {g : PropertyRules}
  {above : List Rule} {r : Rule}

/-- A prelude records its own condition, and every other rule the greatest of the
preludes around it. -/
theorem layer_at_path (h : lower theme d = .ok f) (hg : g ∈ f.groups)
    (hp : Rule.Path g.rules above r) :
    r.layer = r.selector.prelude?.elim (Rule.preludes above).max? some := by
  obtain ⟨s, -, name, tree, rules, -, hrules, rfl⟩ :=
    exists_of_forall₂_right (Lowering.lower_ok h) hg
  rw [← getLast?_activeInside]
  obtain ⟨value, resolved, -, -, rfl⟩ | ⟨c, children, rfl⟩ := Lowering.rule_at_path hrules hp
  · rfl
  · cases c <;> rfl

/-- A layer is that of some prelude on the path. -/
theorem layer_mem_preludes (h : lower theme d = .ok f) (hg : g ∈ f.groups)
    (hp : Rule.Path g.rules above r) {id : ConditionId} (hlayer : r.layer = some id) :
    id ∈ Rule.preludes (above ++ [r]) := by
  rw [layer_at_path h hg hp] at hlayer
  rw [Rule.preludes_concat]
  cases hr : r.selector.prelude? with
  | none =>
      rw [hr] at hlayer
      exact List.mem_append_left _ (List.max?_mem hlayer)
  | some own =>
      rw [hr] at hlayer
      obtain rfl : own = id := Option.some.inj hlayer
      exact List.mem_append_right _ (List.mem_singleton_self own)

end

theorem max?_concat_eq_some_iff {ids : List ConditionId} {own : ConditionId} :
    (ids ++ [own]).max? = some own ↔ ∀ id ∈ ids, id ≤ own := by
  rw [List.max?_eq_some_iff]
  simp [or_imp, forall_and]

/-- A prelude records its own condition. Every other rule records the greatest
condition of the preludes on the path down to it, and `none` when there are none. So a
layer is the greatest on its path unless it is that of a prelude inside a greater one,
and it is below the layer around it only if it is that of a prelude with a smaller
condition. -/
theorem layer_of_rule {theme : Theme} {d : StyleDescription} {f : RuleForest}
    (h : lower theme d = .ok f) {g : PropertyRules} (hg : g ∈ f.groups) {above : List Rule}
    {r : Rule} (hp : Rule.Path g.rules above r) :
    (∀ id, r.selector = .prelude id → r.layer = some id) ∧
    ((∀ id, r.selector ≠ .prelude id) → r.layer = (Rule.preludes (above ++ [r])).max?) ∧
    (r.layer = (Rule.preludes (above ++ [r])).max? ↔
      ∀ id, r.selector = .prelude id → ∀ outer ∈ Rule.preludes above, outer ≤ id) ∧
    ∀ outer parent, above = outer ++ [parent] → ∀ p, parent.layer = some p →
      ((∃ id, r.layer = some id ∧ p ≤ id) ↔ ∀ id, r.selector = .prelude id → p ≤ id) := by
  have hlayer := layer_at_path h hg hp
  cases hr : r.selector.prelude? with
  | none =>
      have hno : ∀ id, r.selector ≠ .prelude id := fun id hid => by
        rw [Selector.prelude?_eq_some_iff.2 hid] at hr
        cases hr
      have hpath : Rule.preludes (above ++ [r]) = Rule.preludes above := by
        rw [Rule.preludes_concat, hr]
        exact List.append_nil _
      rw [hr] at hlayer
      rw [hpath]
      refine ⟨fun id hid => absurd hid (hno id), fun _ => hlayer,
        iff_of_true hlayer fun id hid => absurd hid (hno id), ?_⟩
      intro outer parent habove p hlayer'
      refine iff_of_true ?_ fun id hid => absurd hid (hno id)
      -- the layer of the parent is that of one of the preludes around the rule
      have hmem : p ∈ Rule.preludes above := by
        rw [habove] at hp ⊢
        exact layer_mem_preludes h hg hp.parent hlayer'
      obtain ⟨greatest, hgreatest⟩ :=
        Option.ne_none_iff_exists'.1 (List.max?_eq_none_iff.not.2 (List.ne_nil_of_mem hmem))
      exact ⟨greatest, hlayer.trans hgreatest, (List.max?_eq_some_iff.1 hgreatest).2 p hmem⟩
  | some own =>
      have hown : r.selector = .prelude own := Selector.prelude?_eq_some_iff.1 hr
      have hpath : Rule.preludes (above ++ [r]) = Rule.preludes above ++ [own] := by
        rw [Rule.preludes_concat, hr]
        rfl
      have hlayer : r.layer = some own := by rw [hlayer, hr]; rfl
      rw [hpath, hown, hlayer]
      refine ⟨fun id hid => congrArg some (Selector.prelude.inj hid),
        fun hno => absurd rfl (hno own), ?_, ?_⟩
      · rw [eq_comm, max?_concat_eq_some_iff]
        simp
      · intro outer parent _ p _
        simp

/-- A value under `wide`, which is nested under `dark` and that under `hover`, with a
flag in between. -/
def nestedDisplay : StyleDescription :=
  .ofList [("display", .conditional
    [("hover", .conditional [("dark", .conditional [("isOpen", .conditional
      [("wide", .literal (.text "flex")), ("hover", .literal (.text "block"))])])])])]

/-- The flag under `dark` is in the layer of `hover`, and so above the layer of its
parent. -/
theorem layer_of_rule_nested :
    ∃ f g hover dark flag, lower smallTheme nestedDisplay = .ok f ∧ g ∈ f.groups ∧
      Rule.Path g.rules [hover, dark] flag ∧ flag.selector = .group ∧
      Rule.preludes [hover, dark, flag] = [2, 0] ∧ flag.layer = [2, 0].max? ∧
      dark.layer = some 0 ∧ ∃ id, flag.layer = some id ∧ 0 ≤ id := by
  obtain ⟨f, g, hover, dark, flag, hf, hg, hp, hgroup, hpreludes, hdark⟩ :
      ∃ f g hover dark flag, lower smallTheme nestedDisplay = .ok f ∧ g ∈ f.groups ∧
        Rule.Path g.rules [hover, dark] flag ∧ flag.selector = .group ∧
        Rule.preludes [hover, dark, flag] = [2, 0] ∧ dark.layer = some 0 :=
    ⟨_, _, _, _, _, rfl, List.mem_cons_self,
      .inside List.mem_cons_self (.inside List.mem_cons_self (.top List.mem_cons_self)),
      rfl, rfl, rfl⟩
  have hno : ∀ id, flag.selector ≠ .prelude id := by
    intro id
    rw [hgroup]
    exact Selector.noConfusion
  obtain ⟨-, hplain, -, hparent⟩ := layer_of_rule hf hg hp
  exact ⟨f, g, hover, dark, flag, hf, hg, hp, hgroup, hpreludes, hpreludes ▸ hplain hno, hdark,
    (hparent [hover] dark rfl 0 hdark).2 fun id hid => absurd hid (hno id)⟩

/-- The prelude of `dark` is inside that of `hover` and records the lower layer. -/
theorem layer_below_parent :
    ∃ f g hover dark, smallDraft.build = .ok smallTheme ∧
      lower smallTheme nestedDisplay = .ok f ∧ g ∈ f.groups ∧
      Rule.Path g.rules [hover] dark ∧ (Rule.preludes [hover, dark]).max? = some 2 ∧
      hover.layer = some 2 ∧ dark.layer = some 0 :=
  ⟨_, _, _, _, rfl, rfl, List.mem_cons_self,
    .inside List.mem_cons_self (.top List.mem_cons_self), rfl, rfl, rfl⟩

/-! ## Tokens -/

/-- A group starts its tokens with its unit. Under its class rules stand, in ascending
order and once each, the conditions of the preludes around them. The token comes apart
into the unit of the group, the units of these conditions, and the unit of the
fragment that the leaf has resolved to, which is one unit. -/
theorem token_layout {theme : Theme} {d : StyleDescription} {f : RuleForest}
    (h : lower theme d = .ok f) :
    List.Forall₂ (fun s g =>
      g.unit = String.ofList s.1.unit ∧
      ∀ above token conditions layer condition declarations,
        Rule.Path g.rules above (.leaf (.class token conditions) layer condition declarations) →
        conditions.Pairwise (· < ·) ∧
        (∀ id, id ∈ conditions ↔ id ∈ Rule.preludes above) ∧
        ∃ name tree value resolved, StyleNode.normalize theme name s.2 = .ok tree ∧
          (conditions, value) ∈ tree.leaves [] ∧ s.1.resolve value = .ok resolved ∧
          declarations = resolved.declarations ∧
          Code.parseToken? token =
            some
              { property := g.unit
                conditions := String.ofList (conditions.flatMap Code.ordinalUnit)
                value := String.ofList resolved.fragment.unit } ∧
          Code.units? resolved.fragment.unit = some [resolved.fragment.unit])
      (Meaning.allSettings theme d) f.groups := by
  refine (Lowering.lower_ok h).imp ?_
  rintro s g ⟨name, tree, rules, htree, hrules, rfl⟩
  refine ⟨rfl, ?_⟩
  intro above token conditions layer condition declarations hp
  obtain ⟨value, resolved, hleaf, hres, hrule⟩ | ⟨c, children, hrule⟩ :=
    Lowering.rule_at_path hrules hp
  · cases hrule
    refine ⟨Lowering.activeInside_ascending .nil above, fun id => ?_,
      name, tree, value, resolved, htree, hleaf, hres, rfl, ?_, ?_⟩
    · show id ∈ Lowering.activeInside [] above ↔ _
      rw [Lowering.mem_activeInside]
      simp
    · show Code.parseToken? (Code.token s.1.unit _ _) = some ⟨String.ofList s.1.unit, _, _⟩
      rw [Lowering.Target.unit_eq]
      exact Code.parseToken?_token s.1.key _ resolved.fragment
    · simpa using Code.units?_flatMap [resolved.fragment]
  · -- a rule around a branch is no class
    cases hrule

/-- Under `hover` twice, around `dark` and inside it: the class has the condition
once. -/
theorem token_layout_repeated :
    ∃ f g above layer condition declarations, lower smallTheme nestedDisplay = .ok f ∧
      f.groups = [g] ∧ Rule.preludes above = [2, 0, 2] ∧
      Rule.Path g.rules above (.leaf (.class "aaca" [0, 2]) layer condition declarations) ∧
      (∀ id, id ∈ [0, 2] ↔ id ∈ [2, 0, 2]) ∧
      ∃ value, Code.parseToken? "aaca" = some ⟨g.unit, "ac", value⟩ := by
  obtain ⟨f, g, above, layer, condition, declarations, hf, hg, hpreludes, hp⟩ :
      ∃ f g above layer condition declarations, lower smallTheme nestedDisplay = .ok f ∧
        f.groups = [g] ∧ Rule.preludes above = [2, 0, 2] ∧
        Rule.Path g.rules above
          (.leaf (.class "aaca" [0, 2]) layer condition declarations) :=
    ⟨_, _, _, _, _, _, rfl, rfl, rfl,
      .inside List.mem_cons_self (.inside List.mem_cons_self (.inside List.mem_cons_self
        (.inside (List.mem_cons_of_mem _ List.mem_cons_self) (.top List.mem_cons_self))))⟩
  have hlayout := token_layout hf
  rw [hg] at hlayout
  obtain ⟨s, settings, ⟨-, hclass⟩, -, -⟩ := List.forall₂_cons_right_iff.1 hlayout
  obtain ⟨-, hconditions, -, -, -, resolved, -, -, -, -, hparts, -⟩ :=
    hclass _ _ _ _ _ _ hp
  rw [hpreludes] at hconditions
  exact ⟨f, g, above, layer, condition, declarations, hf, hg, hpreludes, hp, hconditions,
    _, hparts⟩

end AtomicStyles
