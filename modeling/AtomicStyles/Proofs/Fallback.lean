import AtomicStyles.Proofs.NearestFallback
import AtomicStyles.Proofs.Override

/-!
# A fallback always applies

A fallback is written so that a property has a value whatever the state is. This
is not clear from how states are decided: as soon as a flag is on, the object
that holds the fallback is left, and an object nested under the flag may have no
branch that the state satisfies.

What saves it is that every object that can be reached through flags and tags has
one fallback among its branches, as `NearestFallback.lean` shows. So whichever
object the state ends in gives one class under no theme condition, that of its
fallback. All its other classes stand under a theme condition.
-/

namespace AtomicStyles

open Lowering (Target)
open ClassList (blockOf)

/-! ## Classes under no theme condition -/

/-- Whether a class stands under no theme condition. -/
def Code.isUnconditional (token : String) : Bool :=
  (parseToken? token).any fun parts => parts.conditions == ""

theorem Code.isUnconditional_token (key : Fragment) (conditions : List Nat) (value : Fragment) :
    isUnconditional (token key.unit conditions value) = conditions.isEmpty := by
  rw [isUnconditional, parseToken?_token]
  cases conditions with
  | nil => rfl
  | cons c cs => simp [ordinalUnit]

theorem BranchCondition.within_of_isDynamic {c : BranchCondition} (h : c.isDynamic)
    (active : List ConditionId) : c.within active = active := by
  cases c with
  | fallback => rfl
  | theme id => simp [BranchCondition.isDynamic] at h
  | flag name => rfl
  | variant name tag => rfl

namespace StyleNode

section

variable {state : RenderState} {target : Target} {active : Finset ConditionId}

theorem literalClasses_ok {l : Literal} {resolved : ResolvedValue}
    (h : target.resolve l = .ok resolved) :
    Meaning.literalClasses target active l =
      [Code.token target.key.unit (active.sort (· ≤ ·)) resolved.fragment] := by
  rw [Meaning.literalClasses, h, ← Lowering.Target.unit_eq]
  rfl

theorem filter_literalClasses_nonempty (hactive : active.Nonempty) (l : Literal) :
    (Meaning.literalClasses target active l).filter Code.isUnconditional = [] := by
  cases h : target.resolve l with
  | error e =>
      rw [Meaning.literalClasses, h]
      rfl
  | ok resolved =>
      have hsort : (active.sort (· ≤ ·)).isEmpty = false := by
        rw [List.isEmpty_eq_false_iff_exists_mem]
        obtain ⟨id, hid⟩ := hactive
        exact ⟨id, (Finset.mem_sort _).2 hid⟩
      rw [literalClasses_ok h, List.filter_singleton, Code.isUnconditional_token, hsort]
      rfl

theorem enter_nonempty (hactive : active.Nonempty) (c : BranchCondition) :
    (c.enter active).Nonempty := by
  cases c with
  | theme id => exact Finset.insert_nonempty id active
  | fallback => exact hactive
  | flag name => exact hactive
  | variant name tag => exact hactive

mutual

theorem filter_classes_nonempty (state : RenderState) (target : Target)
    {active : Finset ConditionId} (hactive : active.Nonempty) (tree : StyleNode) :
    (tree.classes state target active).filter Code.isUnconditional = [] := by
  match tree with
  | .leaf l => exact filter_literalClasses_nonempty hactive l
  | .branching bs =>
      obtain ⟨hdecided, hundecided⟩ := filter_branches_nonempty state target hactive bs
      rw [classes]
      cases hout : decided? state target active bs with
      | none => exact hundecided
      | some out => exact hdecided out hout

theorem filter_branches_nonempty (state : RenderState) (target : Target)
    {active : Finset ConditionId} (hactive : active.Nonempty)
    (bs : List (BranchCondition × StyleNode)) :
    (∀ out, decided? state target active bs = some out →
        out.filter Code.isUnconditional = []) ∧
      (undecided state target active bs).filter Code.isUnconditional = [] := by
  match bs with
  | [] =>
      refine ⟨?_, rfl⟩
      intro out hout
      cases hout
  | (c, n) :: bs =>
      have hn := filter_classes_nonempty state target (enter_nonempty hactive c) n
      obtain ⟨hdecided, hundecided⟩ := filter_branches_nonempty state target hactive bs
      constructor
      · intro out hout
        rw [decided?] at hout
        split at hout
        · rw [← Option.some.inj hout]
          exact hn
        · exact hdecided out hout
      · rw [undecided]
        split
        · exact hundecided
        · rw [List.filter_append, hn, hundecided, List.nil_append]

end

/-- When no state decides, the classes under no theme condition are those of the
fallbacks. -/
theorem filter_undecided (bs : List (BranchCondition × StyleNode)) :
    (undecided state target ∅ bs).filter Code.isUnconditional =
      (fallbacks bs).flatMap fun b => (b.2.classes state target ∅).filter Code.isUnconditional := by
  induction bs with
  | nil => rfl
  | cons b bs ih =>
      obtain ⟨c, n⟩ := b
      rw [undecided, fallbacks_cons]
      cases c with
      | fallback =>
          rw [if_neg (by simp [BranchCondition.isDynamic]), if_pos rfl, List.filter_append, ih,
            List.flatMap_cons]
          rfl
      | theme id =>
          have hn := filter_classes_nonempty state target
            (Finset.insert_nonempty id (∅ : Finset ConditionId)) n
          rw [if_neg (by simp [BranchCondition.isDynamic]), if_neg (by simp), List.filter_append,
            BranchCondition.enter, hn, List.nil_append, ih]
      | flag name =>
          have hdyn : (BranchCondition.flag name).isDynamic := rfl
          rw [if_pos hdyn, if_neg (by simp), ih]
      | variant name tag =>
          have hdyn : (BranchCondition.variant name tag).isDynamic := rfl
          rw [if_pos hdyn, if_neg (by simp), ih]

/-- A target resolves every literal of a normal form. -/
def Resolves (target : Target) (leaves : List (List ConditionId × Literal)) : Prop :=
  ∀ leaf ∈ leaves, ∃ resolved, target.resolve leaf.2 = .ok resolved

theorem filter_classes_leaf {l : Literal} {resolved : ResolvedValue}
    (h : target.resolve l = .ok resolved) :
    ∃ token, ((StyleNode.leaf l).classes state target ∅).filter Code.isUnconditional = [token] := by
  refine ⟨Code.token target.key.unit [] resolved.fragment, ?_⟩
  rw [classes, literalClasses_ok h, List.filter_singleton, Code.isUnconditional_token,
    Finset.sort_empty]
  rfl

theorem mem_branchLeaves_fallback {bs : List (BranchCondition × StyleNode)} {l : Literal}
    (h : (BranchCondition.fallback, StyleNode.leaf l) ∈ bs) : ([], l) ∈ branchLeaves [] bs := by
  induction bs with
  | nil => cases h
  | cons b bs ih =>
      obtain ⟨c, n⟩ := b
      rw [branchLeaves]
      rcases List.mem_cons.1 h with heq | h
      · cases heq
        exact List.mem_append_left _ (List.mem_singleton.2 rfl)
      · exact List.mem_append_right _ (ih h)

mutual

/-- Whatever the state, a grounded normal form gives one class under no theme
condition. -/
theorem filter_classes_grounded (state : RenderState) {target : Target} (tree : StyleNode)
    (hground : tree.Grounded) (hres : Resolves target (tree.leaves [])) :
    ∃ token, (tree.classes state target ∅).filter Code.isUnconditional = [token] := by
  match tree with
  | .leaf l =>
      obtain ⟨resolved, h⟩ := hres ([], l) (List.mem_singleton.2 rfl)
      exact filter_classes_leaf h
  | .branching bs =>
      obtain ⟨⟨l, hl⟩, hinner⟩ := hground
      rw [leaves] at hres
      rw [classes]
      cases hout : decided? state target ∅ bs with
      | some out => exact filter_decided_grounded state bs hinner hres out hout
      | none =>
          have hmem : (BranchCondition.fallback, StyleNode.leaf l) ∈ bs := by
            refine (mem_fallbacks.1 ?_).1
            rw [hl]
            exact List.mem_singleton.2 rfl
          obtain ⟨resolved, h⟩ := hres _ (mem_branchLeaves_fallback hmem)
          rw [Option.getD_none, filter_undecided, hl, List.flatMap_singleton]
          exact filter_classes_leaf h

theorem filter_decided_grounded (state : RenderState) {target : Target}
    (bs : List (BranchCondition × StyleNode)) (hground : EachGrounded bs)
    (hres : Resolves target (branchLeaves [] bs)) (out : List String)
    (hout : decided? state target ∅ bs = some out) :
    ∃ token, out.filter Code.isUnconditional = [token] := by
  match bs with
  | [] => cases hout
  | (c, n) :: bs =>
      obtain ⟨hn, hbs⟩ := hground
      rw [branchLeaves] at hres
      rw [decided?] at hout
      split at hout
      · next hholds =>
          have hdyn := Meaning.isDynamic_of_holds hholds
          rw [← Option.some.inj hout, BranchCondition.enter_of_isDynamic hdyn]
          refine filter_classes_grounded state n (hn hdyn) fun leaf hleaf => ?_
          rw [← BranchCondition.within_of_isDynamic hdyn []] at hleaf
          exact hres leaf (List.mem_append_left _ hleaf)
      · exact filter_decided_grounded state bs hbs
          (fun leaf hleaf => hres leaf (List.mem_append_right _ hleaf)) out hout

end

end

end StyleNode

/-! ## The class of a fallback -/

/-- An entry with the name sets the property, by itself or as a shorthand. -/
def Theme.Sets (theme : Theme) (name : String) (id : PropertyId) : Prop :=
  ¬ Css.isCustomName name ∧ ∃ ids, theme.expand name = .ok ids ∧ id ∈ ids

section

variable {theme : Theme} {d : StyleDescription} {f : RuleForest} {id : PropertyId}

theorem sets_of_mem_allSettings {s : Target × StyleValue} (hs : s ∈ Meaning.allSettings theme d)
    (hkey : s.1.key = .indexed id) : ∃ e ∈ d.entries, theme.Sets e.1 id ∧ s.2 = e.2 := by
  obtain ⟨e, he, hs⟩ := List.mem_flatMap.1 hs
  refine ⟨e, he, ?_⟩
  unfold Meaning.settings at hs
  split at hs
  · split at hs
    · next setting hsetting =>
        obtain ⟨target, inner⟩ := setting
        rw [List.mem_singleton.1 hs] at hkey
        obtain ⟨hraw, -, -⟩ | ⟨type, definition, htyped, -, -⟩ := Lowering.customTarget_ok hsetting
        · rw [hraw] at hkey
          cases hkey
        · rw [htyped] at hkey
          cases hkey
    · cases hs
  · next hname =>
      split at hs
      · next ids hids =>
          obtain ⟨id', hid', hs⟩ := List.mem_filterMap.1 hs
          obtain ⟨p, -, rfl⟩ := Option.map_eq_some_iff.1 hs
          cases hkey
          exact ⟨⟨hname, ids, hids, hid'⟩, rfl⟩
      · cases hs

theorem exists_setting (h : lower theme d = .ok f) {e : String × StyleValue} (he : e ∈ d.entries)
    (hsets : theme.Sets e.1 id) :
    ∃ s ∈ Meaning.allSettings theme d, s.1.key = .indexed id := by
  obtain ⟨hname, ids, hids, hid⟩ := hsets
  obtain ⟨groups, hgroups, -⟩ := Lowering.lower_ok_iff.1 h
  obtain ⟨own, -, hown⟩ := exists_of_forall₂_left hgroups he
  obtain ⟨ids', tree, hids', -, hlowered⟩ := (Lowering.entry_themed_ok_iff hname).1 hown
  obtain rfl : ids = ids' := Except.ok.inj (hids.symm.trans hids')
  obtain ⟨g, -, p, rules, hp, -, -⟩ := exists_of_forall₂_left hlowered hid
  refine ⟨(.themed id p.1 p.2, e.2), List.mem_flatMap.2 ⟨e, he, ?_⟩, rfl⟩
  rw [Meaning.settings, if_neg hname, hids]
  exact List.mem_filterMap.2 ⟨id, hid, by rw [hp]; rfl⟩

theorem unit_of_groupOf {s : Target × StyleValue} {g : PropertyRules}
    (h : Lowering.GroupOf theme s g) : g.unit = String.ofList s.1.unit := by
  obtain ⟨name, tree, rules, -, -, rfl⟩ := h
  rfl

theorem exists_contribution (h : lower theme d = .ok f) {e : String × StyleValue}
    (he : e ∈ d.entries) (hsets : theme.Sets e.1 id) (state : RenderState) :
    ∃ c ∈ contributions f state, c.1 = String.ofList (Code.ordinalUnit id) := by
  obtain ⟨s, hs, hkey⟩ := exists_setting h he hsets
  obtain ⟨g, hg, hgroup⟩ := exists_of_forall₂_left (Lowering.lower_ok h) hs
  refine ⟨_, List.mem_map.2 ⟨_, List.mem_map.2 ⟨g, hg, rfl⟩, rfl⟩, ?_⟩
  show g.unit = _
  rw [unit_of_groupOf hgroup, Lowering.Target.unit_eq, hkey]
  rfl

/-- Of the entries that give classes of a key, one decides it. -/
theorem exists_decider {es : Entries (List String)} {e : String × List String} (he : e ∈ es)
    (hne : e.2 ≠ []) :
    ∃ last ∈ es, last.1 = e.1 ∧ Entries.get? (deciders es) e.1 = some last.2 := by
  have hgives : e ∈ es.filter (gives e.1) := by
    refine List.mem_filter.2 ⟨he, ?_⟩
    rw [gives_own]
    simpa using hne
  obtain ⟨last, hlast⟩ :=
    Option.isSome_iff_exists.1 (List.getLast?_isSome.2 (List.ne_nil_of_mem hgives))
  obtain ⟨hmem, hkey⟩ := List.mem_filter.1 (List.mem_of_getLast? hlast)
  rw [gives, Bool.and_eq_true, beq_iff_eq] at hkey
  exact ⟨last, hmem, hkey.1, by rw [get?_deciders, hlast]; rfl⟩

theorem filter_contribution_grounded {s : Target × StyleValue} {g : PropertyRules}
    (h : Lowering.GroupOf theme s g) (hcovered : StyleNode.Covered theme s.2 [])
    (state : RenderState) :
    ∃ token,
      (Node.runAll state (Node.ofRules g.rules)).filter Code.isUnconditional = [token] := by
  obtain ⟨name, tree, rules, htree, hrules, rfl⟩ := h
  have hrun : Node.runAll state (Node.ofRules rules) = tree.classes state s.1 ∅ := by
    refine runAll_lowered state tree ?_
    rw [Finset.sort_empty]
    exact hrules
  have hres : StyleNode.Resolves s.1 (tree.leaves []) := by
    intro leaf hleaf
    obtain ⟨r, -, resolved, hres, -⟩ :=
      exists_of_forall₂_left (Lowering.allClasses_lowered tree hrules) hleaf
    exact ⟨resolved, hres⟩
  rw [Lowering.groupRules, hrun]
  exact StyleNode.filter_classes_grounded state tree
    (StyleNode.grounded_ofValue hcovered htree) hres

theorem filter_eraseDups_singleton {p : String → Bool} {ts : List String} {t : String}
    (h : ts.filter p = [t]) : ts.eraseDups.filter p = [t] := by
  rw [filter_eraseDups, h]
  simp [List.eraseDups_cons]

/-- An entry that is the only one for its property covers all groups of the
property. -/
theorem filter_contributions (h : lower theme d = .ok f) {name : String} {value : StyleValue}
    (hentry : (name, value) ∈ d.entries)
    (honly : ∀ e ∈ d.entries, theme.Sets e.1 id → e.1 = name)
    (hcovered : StyleNode.Covered theme value []) (state : RenderState)
    {e : String × List String} (he : e ∈ contributions f state)
    (hunit : e.1 = String.ofList (Code.ordinalUnit id)) :
    ∃ token, e.2.filter Code.isUnconditional = [token] := by
  obtain ⟨pg, hpg, rfl⟩ := List.mem_map.1 he
  obtain ⟨g, hg, rfl⟩ := List.mem_map.1 hpg
  obtain ⟨s, hs, hgroup⟩ := exists_of_forall₂_right (Lowering.lower_ok h) hg
  have hkey : s.1.key = .indexed id := by
    refine Code.unit_injective ?_
    rw [← Lowering.Target.unit_eq]
    exact String.ofList_inj.1 ((unit_of_groupOf hgroup).symm.trans hunit)
  obtain ⟨e, he, hsets, hvalue⟩ := sets_of_mem_allSettings hs hkey
  have hsame : e.2 = value := by
    have hget := Entries.get?_of_mem d.distinct_names hentry
    rw [← honly e he hsets, Entries.get?_of_mem d.distinct_names he] at hget
    exact Option.some.inj hget
  rw [← hsame, ← hvalue] at hcovered
  exact filter_contribution_grounded hgroup hcovered state

end

/-- A property that one entry sets, by an object with a fallback of its own, has one
class under no theme condition in every state, as long as all fallbacks of the object
are literals. -/
theorem fallback_selected {theme : Theme} {d : StyleDescription} {f : RuleForest}
    (h : lower theme d = .ok f) {id : PropertyId} {name : String}
    {entries : List (String × StyleValue)} (hentry : (name, .conditional entries) ∈ d.entries)
    (hsets : theme.Sets name id) (honly : ∀ e ∈ d.entries, theme.Sets e.1 id → e.1 = name)
    (hfallback : Meaning.DeclaresFallback theme entries)
    (hliteral : ∀ value, Meaning.Offers theme (.conditional entries) (.fallback, value) →
      ∃ l, value = .literal l)
    (state : RenderState) :
    ∃ token,
      (ofProperty (String.ofList (Code.ordinalUnit id))
        ((SelectionProcedure.ofForest f).select state)).filter Code.isUnconditional = [token] := by
  have hcovered : StyleNode.Covered theme (.conditional entries) [] := by
    refine ⟨StyleNode.distinct_of_mem d.distinct_keys hentry, by simp, ?_, by simp, ?_⟩
    · rintro ⟨c, value⟩ hoffers rfl
      exact hliteral value hoffers
    · intro _ heq
      cases heq
      obtain ⟨w, hw, hcondition⟩ := Meaning.exists_fallback hfallback
      rw [Meaning.fallbacks_handedDown]
      split
      · exact ⟨_, rfl⟩
      · next hnone => exact absurd hcondition (by simpa using List.find?_eq_none.1 hnone w hw)
  have hall := fun e he hunit =>
    filter_contributions h hentry honly hcovered state (e := e) he hunit
  -- the last contribution to the property decides, and there is one
  obtain ⟨first, hfirst, hunit⟩ := exists_contribution h hentry hsets state
  have hne : first.2 ≠ [] := by
    obtain ⟨token, htoken⟩ := hall first hfirst hunit
    intro hnil
    simp [hnil] at htoken
  obtain ⟨last, hlast, hkey, hget⟩ := exists_decider hfirst hne
  rw [hunit] at hkey hget
  obtain ⟨token, htoken⟩ := hall last hlast hkey
  refine ⟨token, ?_⟩
  rw [select_eq_listOf h, ofProperty_listOf (grouping_blocksOf (keyed_contributions h state))
    fun b hb => propertyUnit?_of_mem_blocksOf (keyed_contributions h state) hb, blockOf,
    get?_blocksOf, hget]
  exact filter_eraseDups_singleton htoken

/-- The value of a property whose fallback is that of a variant. Below the tag `large`
an open element declares nothing. -/
def sizedDisplay : List (String × StyleValue) :=
  [("size", .conditional
      [("large", .conditional [("dark", .literal (.text "flex")), ("isOpen", .conditional [])]),
       ("default", .literal (.text "block"))]),
   ("hover", .literal (.text "flex"))]

theorem fallback_selected_inherited :
    ∃ f, lower smallTheme (.ofList [("display", .conditional sizedDisplay)]) = .ok f ∧
      (SelectionProcedure.ofForest f).select
        ((RenderState.empty.variant "size" "large").flag "isOpen" true) = "aab aa acb" ∧
      ∀ state, ∃ token,
        (ofProperty "a" ((SelectionProcedure.ofForest f).select state)).filter
          Code.isUnconditional = [token] := by
  obtain ⟨f, hf, hselect⟩ :
      ∃ f, lower smallTheme (.ofList [("display", .conditional sizedDisplay)]) = .ok f ∧
        (SelectionProcedure.ofForest f).select
          ((RenderState.empty.variant "size" "large").flag "isOpen" true) = "aab aa acb" :=
    ⟨_, rfl, by decide +kernel⟩
  refine ⟨f, hf, hselect, fun state => ?_⟩
  have hsets : smallTheme.Sets "display" 0 := ⟨by decide, [0], rfl, by decide⟩
  have hentry : ("display", StyleValue.conditional sizedDisplay) ∈
      (StyleDescription.ofList [("display", .conditional sizedDisplay)]).entries :=
    List.mem_singleton.2 rfl
  refine fallback_selected hf hentry hsets ?_ ?_ ?_ state
  · intro e he _
    rw [List.mem_singleton.1 he]
  · refine .inr ⟨"size", _, .literal (.text "block"), List.mem_cons_self, by decide, ?_⟩
    exact List.mem_cons_of_mem _ (List.mem_singleton.2 rfl)
  · intro value hoffers
    simp [sizedDisplay, Meaning.offers_literal, Meaning.offers_conditional, Meaning.ways,
      Meaning.entryWays, Meaning.tagCondition, smallTheme, Theme.condition?, Entries.get?,
      isFlagName] at hoffers
    exact ⟨_, hoffers⟩

end AtomicStyles
