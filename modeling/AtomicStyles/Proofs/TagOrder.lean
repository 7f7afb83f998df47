import AtomicStyles.Proofs.Exchange
import AtomicStyles.Proofs.Literals
import AtomicStyles.Proofs.Overlay

/-!
# The order of a variant's tags

The tags of a variant can be written in any order. A state gives a name one tag at
most, so of the values under the tags of one variant no more than one is ever
followed. The tag `default` is found by its name, not by its place.

This is all that an object is ever asked: which of its ways pass some test, and the
tests that are made let one tag of a variant pass at most (`TellsTags`). So the ways
that pass are in the same order before and after (`filter_ways_reordered`), and the
interpreter takes the same steps with both values. That the reordered value is
accepted needs no order either, since an object is accepted by what it contains.
-/

namespace AtomicStyles

open Lowering (Target)
open StyleNode (isVariantKey Contains WellFormed hasFallbackTag fallbackCount)

/-! ## Reordered values -/

mutual

/-- The second value is the first one with the tags of its variants in another order,
at any depth. -/
inductive Reordered (theme : Theme) : StyleValue → StyleValue → Prop
  | literal (l : Literal) : Reordered theme (.literal l) (.literal l)
  | conditional {es es' : List (String × StyleValue)}
      (h : List.Forall₂ (EntryReordered theme) es es') :
      Reordered theme (.conditional es) (.conditional es')

/-- The same for the entry of an object. -/
inductive EntryReordered (theme : Theme) : String × StyleValue → String × StyleValue → Prop
  | single {key : String} {value value' : StyleValue} (hkey : ¬ isVariantKey theme key)
      (h : Reordered theme value value') : EntryReordered theme (key, value) (key, value')
  | variant {key : String} {tags mid tags' : List (String × StyleValue)}
      (hkey : isVariantKey theme key) (hperm : tags.Perm mid)
      (h : List.Forall₂ (TagReordered theme) mid tags') :
      EntryReordered theme (key, .conditional tags) (key, .conditional tags')

/-- The same for the value under a tag. -/
inductive TagReordered (theme : Theme) : String × StyleValue → String × StyleValue → Prop
  | intro {tag : String} {value value' : StyleValue} (h : Reordered theme value value') :
      TagReordered theme (tag, value) (tag, value')

end

/-- The same for the entry of a description. The value of a typed custom property is
inside its entry, which is no tag map. -/
inductive PropertyReordered (theme : Theme) : String × StyleValue → String × StyleValue → Prop
  | plain {name : String} {value value' : StyleValue}
      (hname : Css.isCustomName name → Lowering.typedEntry? value = none)
      (h : Reordered theme value value') : PropertyReordered theme (name, value) (name, value')
  | typed {name : String} {value value' type inner inner' : StyleValue}
      (hname : Css.isCustomName name)
      (hvalue : Lowering.typedEntry? value = some (type, inner))
      (hvalue' : Lowering.typedEntry? value' = some (type, inner'))
      (h : Reordered theme inner inner') : PropertyReordered theme (name, value) (name, value')

section

variable {theme : Theme}

theorem EntryReordered.key {e e' : String × StyleValue} (h : EntryReordered theme e e') :
    e.1 = e'.1 := by
  cases h <;> rfl

theorem TagReordered.tag {t t' : String × StyleValue} (h : TagReordered theme t t') :
    t.1 = t'.1 := by
  cases h
  rfl

theorem keys_of_forall₂ {R : String × StyleValue → String × StyleValue → Prop}
    (hR : ∀ e e', R e e' → e.1 = e'.1) {es es' : List (String × StyleValue)}
    (h : List.Forall₂ R es es') : Entries.keys es = Entries.keys es' :=
  map_eq_map_iff_forall₂.2 (h.imp hR)

theorem Reordered.keys {es es' : List (String × StyleValue)}
    (h : List.Forall₂ (EntryReordered theme) es es') : Entries.keys es = Entries.keys es' :=
  keys_of_forall₂ (fun _ _ => EntryReordered.key) h

/-! ## Tests that tell the tags of a variant apart -/

namespace Meaning

/-- Of the tags of one variant one passes the test at most. -/
def TellsTags (q : BranchCondition → Bool) : Prop :=
  ∀ name tag tag', q (tagCondition name tag) → q (tagCondition name tag') → tag = tag'

/-- A state gives a name one tag at most. -/
theorem tellsTags_holds (state : RenderState) : TellsTags (·.holds state) := by
  intro name tag tag' h h'
  unfold tagCondition at h h'
  split at h
  · simp [BranchCondition.holds] at h
  · split at h'
    · simp [BranchCondition.holds] at h'
    · simp only [BranchCondition.holds, RenderState.isVariant] at h h'
      -- a flag has one of the tags `true` and `false`, a variant the one that was set
      cases hvalue : state.get? name with
      | none => simp [hvalue] at h
      | some value =>
          cases value with
          | flag on => cases on <;> simp_all
          | variant t => simp_all

theorem tellsTags_eq (c : BranchCondition) : TellsTags (· = c) := by
  intro name tag tag' h h'
  have heq : tagCondition name tag = tagCondition name tag' :=
    (of_decide_eq_true h).trans (of_decide_eq_true h').symm
  unfold tagCondition at heq
  split at heq <;> split at heq
  · next h h' => rw [h, h']
  · cases heq
  · cases heq
  · cases heq
    rfl

/-- Only the tag `default` is not decided by a state. -/
theorem tellsTags_static : TellsTags (!·.isDynamic) := by
  have hdefault : ∀ name tag, (!(tagCondition name tag).isDynamic) = true → tag = "default" := by
    intro name tag h
    unfold tagCondition at h
    split at h
    · assumption
    · simp [BranchCondition.isDynamic] at h
  intro name tag tag' h h'
  rw [hdefault name tag h, hdefault name tag' h']

theorem tellsTags_isTheme : TellsTags (·.isTheme) := by
  intro name tag tag' h
  unfold tagCondition at h
  split at h <;> simp [BranchCondition.isTheme] at h

/-! ## The ways that pass a test -/

/-- Two ways are decided alike and lead to values of which one is the other
reordered. -/
structure WayReordered (theme : Theme) (w w' : Way) : Prop where
  condition : w.1 = w'.1
  value : Reordered theme w.2 w'.2
  distinct : w.2.Distinct

/-- The ways that pass a test are the same and in the same order, up to reordered
values. -/
def WaysReordered (theme : Theme) (ws ws' : List Way) : Prop :=
  ∀ q : BranchCondition → Bool, TellsTags q →
    List.Forall₂ (WayReordered theme) (ws.filter fun w => q w.1) (ws'.filter fun w => q w.1)

theorem filter_wayReordered (q : BranchCondition → Bool) {ws ws' : List Way}
    (h : List.Forall₂ (WayReordered theme) ws ws') :
    List.Forall₂ (WayReordered theme) (ws.filter fun w => q w.1) (ws'.filter fun w => q w.1) :=
  List.rel_filter (fun w w' (hw : WayReordered theme w w') => by
    show q w.1 = true ↔ q w'.1 = true
    rw [hw.condition]) h

/-- Where one item passes at most, the order of the items does not show. -/
theorem filter_eq_of_perm {α : Type} {p : α → Bool} {xs ys : List α} (h : xs.Perm ys)
    (hone : ∀ x ∈ xs, ∀ y ∈ xs, p x → p y → x = y) : xs.filter p = ys.filter p := by
  have hany : ∀ zs : List α, zs.Pairwise fun _ _ => True := fun _ =>
    List.pairwise_of_forall fun _ _ => trivial
  refine (h.filter p).eq_of_pairwise (fun x y hx hy _ _ => ?_) (hany _) (hany _)
  obtain ⟨hx, hpx⟩ := List.mem_filter.1 hx
  obtain ⟨hy, hpy⟩ := List.mem_filter.1 hy
  exact hone x hx y (h.mem_iff.2 hy) hpx hpy

theorem filter_tags {q : BranchCondition → Bool} (hq : TellsTags q) (name : String)
    {tags mid : List (String × StyleValue)} (hperm : tags.Perm mid)
    (hdistinct : Entries.Distinct tags) :
    (tags.map fun t => (tagCondition name t.1, t.2)).filter (fun w => q w.1) =
      (mid.map fun t => (tagCondition name t.1, t.2)).filter (fun w => q w.1) := by
  rw [List.filter_map, List.filter_map]
  refine congrArg _ (filter_eq_of_perm hperm fun t ht t' ht' h h' => ?_)
  exact List.inj_on_of_nodup_map hdistinct ht ht' (hq name t.1 t'.1 h h')

theorem filter_entryWays_reordered {q : BranchCondition → Bool} (hq : TellsTags q)
    {e e' : String × StyleValue} (h : EntryReordered theme e e') (hdistinct : e.2.Distinct) :
    List.Forall₂ (WayReordered theme) ((entryWays theme e.1 e.2).filter fun w => q w.1)
      ((entryWays theme e'.1 e'.2).filter fun w => q w.1) := by
  cases h with
  | single hkey h =>
      obtain ⟨c, hc⟩ := entryWays_single hkey
      rw [hc, hc]
      exact filter_wayReordered q (.cons ⟨rfl, h, hdistinct⟩ .nil)
  | @variant key tags mid tags' hkey hperm h =>
      -- the order is gone with the filter, and what is left is reordered tag by tag
      rw [entryWays_variant hkey, entryWays_variant hkey, filter_tags hq key hperm hdistinct.1]
      refine filter_wayReordered q ?_
      rw [List.forall₂_map_left_iff, List.forall₂_map_right_iff]
      refine ((List.forall₂_and_left _ _).2 ⟨fun t ht => hperm.mem_iff.2 ht, h⟩).imp ?_
      rintro _ _ ⟨ht, ⟨ht'⟩⟩
      exact ⟨rfl, ht', StyleNode.distinct_of_mem hdistinct.2 ht⟩

theorem filter_ways_reordered {es es' : List (String × StyleValue)}
    (h : List.Forall₂ (EntryReordered theme) es es') (hdistinct : StyleValue.EachDistinct es) :
    WaysReordered theme (ways theme es) (ways theme es') := by
  intro q hq
  induction h with
  | nil => exact .nil
  | @cons e e' es es' he _ ih =>
      rw [ways_cons, ways_cons, List.filter_append, List.filter_append]
      exact List.rel_append (filter_entryWays_reordered hq he hdistinct.1) (ih hdistinct.2)

/-! ## The interpreter takes the same steps -/

variable {ws ws' : List Way}

theorem find?_toList {α : Type} (p : α → Bool) (xs : List α) :
    (xs.find? p).toList = (xs.filter p).take 1 := by
  rw [← List.head?_filter]
  cases xs.filter p <;> rfl

/-- The first way that passes a test is the first before and after. -/
theorem WaysReordered.first (h : WaysReordered theme ws ws') {q : BranchCondition → Bool}
    (hq : TellsTags q) :
    List.Forall₂ (WayReordered theme) (ws.find? fun w => q w.1).toList
      (ws'.find? fun w => q w.1).toList := by
  rw [find?_toList, find?_toList]
  exact List.forall₂_take 1 (h q hq)

theorem WaysReordered.declared (h : WaysReordered theme ws ws') :
    List.Forall₂ (WayReordered theme) (Meaning.declared ws) (Meaning.declared ws') :=
  List.rel_append (h.first (tellsTags_eq .fallback)) (h _ tellsTags_isTheme)

theorem WaysReordered.undeclared (h : WaysReordered theme ws ws') {inherited inherited' : List Way}
    (hinherited : List.Forall₂ (WayReordered theme) inherited inherited') :
    List.Forall₂ (WayReordered theme) (Meaning.undeclared ws inherited)
      (Meaning.undeclared ws' inherited') := by
  have hconditions : (Meaning.declared ws).map (·.1) = (Meaning.declared ws').map (·.1) :=
    map_eq_map_iff_forall₂.2 (h.declared.imp fun _ _ hw => hw.condition)
  have hall : ∀ (ds : List Way) (c : BranchCondition),
      (ds.all fun o => o.1 != c) = (ds.map (·.1)).all (· != c) := fun ds c => by
    rw [List.all_map]
    rfl
  unfold Meaning.undeclared
  simp only [hall, hconditions]
  exact filter_wayReordered (fun c => ((Meaning.declared ws').map (·.1)).all (· != c)) hinherited

theorem WaysReordered.handedDown (h : WaysReordered theme ws ws') {inherited inherited' : List Way}
    (hinherited : List.Forall₂ (WayReordered theme) inherited inherited') :
    List.Forall₂ (WayReordered theme) (Meaning.handedDown ws inherited)
      (Meaning.handedDown ws' inherited') :=
  List.rel_append h.declared (h.undeclared hinherited)

theorem WaysReordered.undecided (h : WaysReordered theme ws ws') {inherited inherited' : List Way}
    (hinherited : List.Forall₂ (WayReordered theme) inherited inherited') :
    List.Forall₂ (WayReordered theme) (Meaning.undecided ws inherited)
      (Meaning.undecided ws' inherited') :=
  List.rel_append (h _ tellsTags_static) (h.undeclared hinherited)

/-- What is reached from a value is reached from the value reordered. -/
def SameWayOn (theme : Theme) (state : RenderState) (target : Target)
    (active : Finset ConditionId) (value : StyleValue) (inherited : List Way) : Prop :=
  ∀ value' inherited', Reordered theme value value' → value.Distinct →
    List.Forall₂ (WayReordered theme) inherited inherited' →
    follow theme state target active value inherited =
      follow theme state target active value' inherited'

/-- What is reached by several ways is reached by the ways reordered. -/
def SameWaysOn (theme : Theme) (state : RenderState) (target : Target)
    (active : Finset ConditionId) (ws : List Way) : Prop :=
  ∀ ws', List.Forall₂ (WayReordered theme) ws ws' →
    followAll theme state target active ws = followAll theme state target active ws'

theorem follow_reordered (theme : Theme) (state : RenderState) (target : Target)
    (active : Finset ConditionId) (value : StyleValue) (inherited : List Way) :
    SameWayOn theme state target active value inherited := by
  -- along the run on the value; the run on the reordered one is found to keep up
  refine follow.induct theme state (SameWayOn theme state target) (SameWaysOn theme state target)
    ?literal ?followed ?undecided ?nil ?cons active value inherited
  case literal =>
    intro active inherited l value' inherited' hvalue _ _
    cases hvalue
    rw [follow, follow]
  case followed =>
    intro active inherited entries w hw ih value' inherited' hvalue hdistinct hinherited
    cases hvalue with
    | @conditional _ entries' h =>
        have hways := filter_ways_reordered h hdistinct.2
        have hfirst := hways.first (tellsTags_holds state)
        rw [hw] at hfirst
        obtain ⟨w', rest, hfollowed, -, hfound⟩ := List.forall₂_cons_left_iff.1 hfirst
        have hw' : (ways theme entries').find? (fun w => w.1.holds state) = some w' :=
          Option.mem_toList.1 (hfound ▸ List.mem_cons_self)
        rw [follow, hw, follow, hw']
        exact ih w'.2 _ hfollowed.value hfollowed.distinct (hways.handedDown hinherited)
  case undecided =>
    intro active inherited entries hw ih value' inherited' hvalue hdistinct hinherited
    cases hvalue with
    | @conditional _ entries' h =>
        have hways := filter_ways_reordered h hdistinct.2
        have hfirst := hways.first (tellsTags_holds state)
        rw [hw] at hfirst
        have hw' : (ways theme entries').find? (fun w => w.1.holds state) = none :=
          Option.toList_eq_nil_iff.1 (List.forall₂_nil_left_iff.1 hfirst)
        rw [follow, hw, follow, hw']
        exact ih _ (hways.undecided hinherited)
  case nil =>
    intro active ws' hws
    rw [List.forall₂_nil_left_iff.1 hws]
  case cons =>
    intro active w ws ih ihs ws' hws
    obtain ⟨w', rest, hw, hrest, rfl⟩ := List.forall₂_cons_left_iff.1 hws
    rw [followAll, followAll, ih w'.2 [] hw.value hw.distinct .nil, ihs rest hrest, hw.condition]

/-- Wherever the reordered object leads, the object leads too. -/
theorem exists_way_reordered {es es' : List (String × StyleValue)}
    (h : List.Forall₂ (EntryReordered theme) es es') (hdistinct : StyleValue.EachDistinct es)
    {w' : Way} (hw' : w' ∈ ways theme es') : ∃ w ∈ ways theme es, WayReordered theme w w' := by
  have hsame := filter_ways_reordered h hdistinct _ (tellsTags_eq w'.1)
  obtain ⟨w, hw, hreordered⟩ := exists_of_forall₂_right hsame
    (List.mem_filter.2 ⟨hw', decide_eq_true rfl⟩)
  exact ⟨w, (List.mem_filter.1 hw).1, hreordered⟩

end Meaning

/-! ## The reordered value is accepted -/

open Meaning (Way ways exists_way_reordered)

theorem hasFallbackTag_reordered {e e' : String × StyleValue} (h : EntryReordered theme e e') :
    hasFallbackTag theme e = hasFallbackTag theme e' := by
  cases h with
  | single hkey h =>
      rw [StyleNode.hasFallbackTag_other hkey, StyleNode.hasFallbackTag_other hkey]
  | @variant key tags mid tags' hkey hperm h =>
      have hkeys : (Entries.keys tags).Perm (Entries.keys tags') := by
        rw [← keys_of_forall₂ (fun _ _ => TagReordered.tag) h]
        exact hperm.map _
      rw [StyleNode.hasFallbackTag_tagged hkey, StyleNode.hasFallbackTag_tagged hkey,
        Bool.eq_iff_iff, Entries.has_iff, Entries.has_iff, hkeys.mem_iff]

theorem wellFormed_reordered {es es' : List (String × StyleValue)}
    (h : List.Forall₂ (EntryReordered theme) es es') (hes : WellFormed theme es) :
    WellFormed theme es' where
  tagged := by
    intro e' he' hkey
    obtain ⟨e, -, hentry⟩ := exists_of_forall₂_right h he'
    cases hentry with
    | single hsingle _ => exact absurd hkey hsingle
    | variant _ _ _ => exact ⟨_, rfl⟩
  one_fallback := by
    have hhas : Entries.has es "default" = Entries.has es' "default" := by
      rw [Bool.eq_iff_iff, Entries.has_iff, Entries.has_iff, Reordered.keys h]
    have hcount : es.countP (hasFallbackTag theme) = es'.countP (hasFallbackTag theme) := by
      clear hes hhas
      induction h with
      | nil => rfl
      | cons he _ ih =>
          rw [List.countP_cons, List.countP_cons, ih, hasFallbackTag_reordered he]
    have hone := hes.one_fallback
    rwa [fallbackCount, hhas, hcount] at hone

/-- Every object in the reordered value is one of the value, reordered. -/
theorem contains_reordered {value value' : StyleValue} (h : Reordered theme value value')
    (hdistinct : value.Distinct) {o' : StyleObject} (ho' : Contains theme value' o') :
    ∃ o, Contains theme value o ∧ List.Forall₂ (EntryReordered theme) o o' := by
  match value, value', h with
  | .literal l, _, .literal _ => cases ho'
  | .conditional es, _, .conditional h =>
      obtain rfl | ⟨w', hw', ho'⟩ := StyleNode.contains_conditional_iff.1 ho'
      · exact ⟨es, .self, h⟩
      · obtain ⟨w, hw, hreordered⟩ := exists_way_reordered h hdistinct.2 hw'
        obtain ⟨o, ho, hes⟩ := contains_reordered hreordered.value hreordered.distinct ho'
        exact ⟨o, StyleNode.contains_conditional_iff.2 (.inr ⟨w, hw, ho⟩), hes⟩
termination_by value.size
decreasing_by exact StyleNode.size_lt_of_mem_ways hw

theorem mem_literals_reordered {value value' : StyleValue} (h : Reordered theme value value')
    (hdistinct : value.Distinct) (hvalue : ∀ o, Contains theme value o → WellFormed theme o)
    {l : Literal} (hl : l ∈ value'.literals) : l ∈ value.literals := by
  match value, value', h with
  | .literal _, _, .literal _ => exact hl
  | .conditional es, _, .conditional h =>
      have hes := hvalue es .self
      obtain ⟨w', hw', hl⟩ := (StyleNode.mem_literals_ways (wellFormed_reordered h hes)).1 hl
      obtain ⟨w, hw, hreordered⟩ := exists_way_reordered h hdistinct.2 hw'
      have hinside : ∀ o, Contains theme w.2 o → WellFormed theme o := fun o ho =>
        hvalue o (StyleNode.contains_conditional_iff.2 (.inr ⟨w, hw, ho⟩))
      exact (StyleNode.mem_literals_ways hes).2 ⟨w, hw,
        mem_literals_reordered hreordered.value hreordered.distinct hinside hl⟩
termination_by value.size
decreasing_by exact StyleNode.size_lt_of_mem_ways hw

/-! ## Descriptions -/

/-- A reordered value is accepted with the value. All its literals are among those of
the value, so its leaves resolve, and both mean the same. -/
theorem replaces_reordered {value value' : StyleValue} (h : Reordered theme value value')
    (hdistinct : value.Distinct) :
    Lowering.Replaces theme PropertyRules.SelectsAs value value' := by
  intro name tree htree
  have hvalue := StyleNode.wellFormed_of_ofValue ⟨tree, htree⟩
  obtain ⟨tree', htree'⟩ : ∃ tree', StyleNode.normalize theme name value' = .ok tree' := by
    refine StyleNode.ofValue_of_wellFormed StyleNode.Scope.settled_nil fun o' ho' => ?_
    obtain ⟨o, ho, hes⟩ := contains_reordered h hdistinct ho'
    exact wellFormed_reordered hes (hvalue o ho)
  refine ⟨tree', htree', fun target rules hrules => ?_⟩
  obtain ⟨rules', hrules'⟩ : ∃ rules', Lowering.node target [] tree' = .ok rules' := by
    refine Lowering.exists_node_ok_iff.2 fun leaf' hleaf' => ?_
    have hl := mem_literals_reordered h hdistinct hvalue
      ((StyleNode.literals_of_normalize htree').1 ⟨leaf', hleaf', rfl⟩)
    obtain ⟨leaf, hleaf, heq⟩ := (StyleNode.literals_of_normalize htree).2 hl
    rw [← heq]
    exact Lowering.exists_node_ok_iff.1 ⟨rules, hrules⟩ leaf hleaf
  refine ⟨rules', hrules', Lowering.selectsAs_of_classes hrules hrules' fun state => ?_⟩
  rw [StyleNode.classes_normal theme name state target ∅ value [] tree (by simp) htree,
    StyleNode.classes_normal theme name state target ∅ value' [] tree' (by simp) htree']
  exact Meaning.follow_reordered theme state target ∅ value [] value' [] h hdistinct .nil

theorem typedEntry?_eq_none_iff {es : List (String × StyleValue)} :
    Lowering.typedEntry? (.conditional es) = none ↔
      ¬ ("type" ∈ Entries.keys es ∧ "value" ∈ Entries.keys es ∧
        (Entries.keys es).length = 2) := by
  rw [← not_iff_not, not_not, Lowering.typedEntry?, Entries.keys, List.length_map]
  constructor
  · intro h
    split at h
    · next type value htype hvalue =>
        refine ⟨List.mem_map.2 ⟨_, Entries.mem_of_get? htype, rfl⟩,
          List.mem_map.2 ⟨_, Entries.mem_of_get? hvalue, rfl⟩, ?_⟩
        by_contra hlength
        exact h (if_neg hlength)
    · exact absurd rfl h
  · rintro ⟨htype, hvalue, hlength⟩
    obtain ⟨type, htype⟩ := Option.ne_none_iff_exists'.1 fun h => Entries.get?_eq_none_iff.1 h htype
    obtain ⟨value, hvalue⟩ :=
      Option.ne_none_iff_exists'.1 fun h => Entries.get?_eq_none_iff.1 h hvalue
    rw [htype, hvalue]
    simp [hlength]

theorem typedEntry?_reordered {value value' : StyleValue} (h : Reordered theme value value')
    (hvalue : Lowering.typedEntry? value = none) : Lowering.typedEntry? value' = none := by
  cases h with
  | literal l => rfl
  | conditional h =>
      rw [typedEntry?_eq_none_iff, ← Reordered.keys h]
      exact typedEntry?_eq_none_iff.1 hvalue

theorem distinct_of_typed {value type inner : StyleValue} (h : value.Distinct)
    (htyped : Lowering.typedEntry? value = some (type, inner)) : inner.Distinct := by
  unfold Lowering.typedEntry? at htyped
  split at htyped
  · next es =>
      split at htyped
      · next hvalue =>
          split at htyped
          · cases htyped
            exact StyleNode.distinct_of_mem h.2 (Entries.mem_of_get? hvalue)
          · cases htyped
      · cases htyped
  · cases htyped

theorem entryReplaces_reordered {e e' : String × StyleValue} (h : PropertyReordered theme e e')
    (hdistinct : e.2.Distinct) : Lowering.EntryReplaces theme PropertyRules.SelectsAs e e' := by
  cases h with
  | @plain name value value' hname h =>
      refine ⟨rfl, fun _ => replaces_reordered h hdistinct, fun hcustom target inner htarget => ?_⟩
      have hvalue := hname hcustom
      dsimp only at htarget ⊢
      rw [Lowering.customTarget, hvalue] at htarget
      rw [Lowering.customTarget, typedEntry?_reordered h hvalue]
      cases htarget
      exact ⟨value', rfl, replaces_reordered h hdistinct⟩
  | @typed name value value' type inner inner' hname hvalue hvalue' h =>
      refine ⟨rfl, fun hno => absurd hname hno, fun _ target found htarget => ?_⟩
      obtain ⟨-, hnone, -⟩ | ⟨text, definition, rfl, htyped, htype⟩ :=
        Lowering.customTarget_ok htarget
      · rw [hvalue] at hnone
        cases hnone
      · rw [hvalue] at htyped
        cases htyped
        refine ⟨inner', ?_, replaces_reordered h (distinct_of_typed hdistinct hvalue)⟩
        dsimp only
        rw [Lowering.customTarget, hvalue']
        dsimp only
        rw [htype]

/-- A description that lowers still lowers when the tags of its variants are written in
another order, at any depth and the tag `default` among them, and then it selects the
same classes under every state. -/
theorem tag_order_irrelevant {d e : StyleDescription}
    (h : List.Forall₂ (PropertyReordered theme) d.entries e.entries) {f : RuleForest}
    (hf : lower theme d = .ok f) :
    ∃ g, lower theme e = .ok g ∧ ∀ state,
      (SelectionProcedure.ofForest f).select state =
        (SelectionProcedure.ofForest g).select state := by
  have hentries := (List.forall₂_and_left _ _).2
    ⟨fun entry hentry => StyleNode.distinct_of_mem d.distinct_keys hentry, h⟩
  obtain ⟨g, hg, hall⟩ := Lowering.lower_replaced
    (hentries.imp fun _ _ ⟨hdistinct, hentry⟩ => entryReplaces_reordered hentry hdistinct) hf
  exact ⟨g, hg, select_congr hall⟩

end

/-- Tags inside tags, with a fallback in both maps. -/
def sizeTags : List (String × StyleValue) :=
  [("large", .conditional [("kind", .conditional
      [("card", .literal (.text "flex")), ("default", .literal (.text "block"))])]),
   ("default", .literal (.text "block")), ("small", .literal (.text "flex"))]

/-- The same tags with the fallbacks in front. -/
def reorderedSizeTags : List (String × StyleValue) :=
  [("default", .literal (.text "block")), ("small", .literal (.text "flex")),
   ("large", .conditional [("kind", .conditional
      [("default", .literal (.text "block")), ("card", .literal (.text "flex"))])])]

theorem sizeTags_reordered :
    PropertyReordered smallTheme ("display", .conditional [("size", .conditional sizeTags)])
      ("display", .conditional [("size", .conditional reorderedSizeTags)]) := by
  have hlarge : Reordered smallTheme (.conditional [("kind", .conditional
      [("card", .literal (.text "flex")), ("default", .literal (.text "block"))])])
      (.conditional [("kind", .conditional
        [("default", .literal (.text "block")), ("card", .literal (.text "flex"))])]) :=
    .conditional (.cons (.variant (by decide) (.swap _ _ _)
      (.cons ⟨.literal _⟩ (.cons ⟨.literal _⟩ .nil))) .nil)
  refine .plain (fun hname => absurd hname (by decide)) (.conditional (.cons ?_ .nil))
  exact .variant (by decide) (List.perm_append_comm : ([_] ++ [_, _]).Perm _)
    (.cons ⟨.literal _⟩ (.cons ⟨.literal _⟩ (.cons ⟨hlarge⟩ .nil)))

theorem tag_order_irrelevant_sizes :
    ∃ f g,
      lower smallTheme (.ofList [("display", .conditional [("size", .conditional sizeTags)])]) =
        .ok f ∧
      lower smallTheme
        (.ofList [("display", .conditional [("size", .conditional reorderedSizeTags)])]) = .ok g ∧
      f.tokens = ["ab", "aa", "aa", "ab"] ∧ g.tokens = ["aa", "ab", "aa", "ab"] ∧
      (∀ state, (SelectionProcedure.ofForest f).select state =
        (SelectionProcedure.ofForest g).select state) ∧
      (SelectionProcedure.ofForest g).select
        ((RenderState.empty.variant "size" "large").variant "kind" "card") = "ab" := by
  obtain ⟨g, hg, h⟩ := @tag_order_irrelevant smallTheme
    (.ofList [("display", .conditional [("size", .conditional sizeTags)])])
    (.ofList [("display", .conditional [("size", .conditional reorderedSizeTags)])])
    (.cons sizeTags_reordered .nil) _ rfl
  obtain rfl := Except.ok.inj hg
  exact ⟨_, _, rfl, rfl, by decide +kernel, by decide +kernel, h, by decide +kernel⟩

end AtomicStyles
