import AtomicStyles.Proofs.NearestFallback

/-!
# Inheritance is lexical scoping

The normalizer hands a scope from object to object and builds a new one at each.
What comes out can be said without scopes. The objects that lie around a place
form a chain: a flag or a tag adds to it, and behind a fallback or a theme
condition it starts anew. What an object does not declare itself is what the
next object of its chain declares that does.

The induction goes along the path to the place. It keeps that the node there is
the normal form of the object, given what the chain hands down, and that each
object of the chain passed its check. So none of them has two fallbacks, and
what the chain hands down for a condition is what the nearest object has for it.
-/

namespace AtomicStyles

/-- The entries of a conditional object. -/
abbrev StyleObject := List (String × StyleValue)

namespace StyleNode

/-- The node at a path of branch positions. -/
def at? : StyleNode → List Nat → Option StyleNode
  | n, [] => some n
  | .leaf _, _ :: _ => none
  | .branching bs, i :: path => bs[i]?.bind fun b => b.2.at? path

theorem at?_append (n : StyleNode) (path more : List Nat) :
    n.at? (path ++ more) = (n.at? path).bind fun inner => inner.at? more := by
  induction path generalizing n with
  | nil => rfl
  | cons i path ih =>
      cases n with
      | leaf l => rfl
      | branching bs =>
          rw [List.cons_append, at?, at?, Option.bind_assoc]
          exact congrArg _ (funext fun b => ih b.2)

theorem at?_concat {n : StyleNode} {path : List Nat} {bs : List (BranchCondition × StyleNode)}
    {i : Nat} {b : BranchCondition × StyleNode} (h : n.at? path = some (.branching bs))
    (hb : bs[i]? = some b) : n.at? (path ++ [i]) = some b.2 := by
  rw [at?_append, h, Option.bind_some, at?, hb, Option.bind_some, at?]

end StyleNode

namespace Meaning

open StyleNode (check isVariantKey normalize ofValue settle handedTo BranchOf SettledOf)

/-! ## Declarations -/

/-- The values that an object declares for a theme condition, under any of its
names. -/
def themeValues (theme : Theme) (id : ConditionId) (entries : StyleObject) : List StyleValue :=
  (entries.filter fun e => e.1 ≠ "default" ∧ theme.condition? e.1 = some (.theme id)).map (·.2)

/-- The fallback that an entry of an object declares. -/
def entryFallbacks (theme : Theme) (key : String) (value : StyleValue) : List StyleValue :=
  if key = "default" then [value]
  else if isVariantKey theme key then
    match value with
    | .conditional tags => (tags.filter fun t => t.1 = "default").map (·.2)
    | .literal _ => []
  else []

/-- The fallbacks that an object declares, as the value of its key `default` or of
the tag `default` of a variant. -/
def fallbackValues (theme : Theme) (entries : StyleObject) : List StyleValue :=
  entries.flatMap fun e => entryFallbacks theme e.1 e.2

/-- The values under a condition in the innermost object of a chain that has any.
The chain goes from the inside to the outside. -/
def nearest (values : StyleObject → List StyleValue) : List StyleObject → List StyleValue
  | [] => []
  | entries :: outer => if (values entries).isEmpty then nearest values outer else values entries

/-- An object inside a value: the positions of the branches that lead to it, and
the objects around it that hand something down to it, the innermost first. -/
inductive Place (theme : Theme) (value : StyleValue) :
    List Nat → StyleObject → List StyleObject → Prop
  | top {entries : StyleObject} (h : value = .conditional entries) : Place theme value [] entries []
  /-- A flag or a tag other than `default` goes on with the chain. -/
  | inner {path : List Nat} {entries inner : StyleObject} {outer : List StyleObject} {i : Nat}
      {c : BranchCondition} (h : Place theme value path entries outer)
      (hw : (ways theme entries)[i]? = some (c, .conditional inner)) (hc : c.isDynamic) :
      Place theme value (path ++ [i]) inner (entries :: outer)
  /-- A fallback or a theme condition starts a new one. -/
  | fresh {path : List Nat} {entries inner : StyleObject} {outer : List StyleObject} {i : Nat}
      {c : BranchCondition} (h : Place theme value path entries outer)
      (hw : (ways theme entries)[i]? = some (c, .conditional inner)) (hc : ¬ c.isDynamic) :
      Place theme value (path ++ [i]) inner []

section

variable {theme : Theme} {property : String}

/-! ## Declarations are ways -/

theorem entryWays_fallback (key : String) (value : StyleValue) :
    ((entryWays theme key value).filter fun w => w.1 = .fallback).map (·.2) =
      entryFallbacks theme key value := by
  rw [entryFallbacks.eq_def]
  by_cases hdefault : key = "default"
  · rw [if_pos hdefault, hdefault]
    rfl
  · rw [if_neg hdefault]
    by_cases hkey : isVariantKey theme key
    · rw [if_pos hkey]
      cases value with
      | literal l =>
          rw [entryWays_literal hkey]
          rfl
      | conditional tags =>
          rw [entryWays_variant hkey, List.filter_map, List.map_map]
          refine congrArg _ (List.filter_congr fun t _ => ?_)
          by_cases ht : t.1 = "default" <;> simp [tagCondition, ht]
    · rw [if_neg hkey]
      exact congrArg _ (fallbacks_entryWays_other hdefault hkey)

theorem entryWays_theme (key : String) (value : StyleValue) (id : ConditionId) :
    ((entryWays theme key value).filter fun w => w.1 = .theme id).map (·.2) =
      if key ≠ "default" ∧ theme.condition? key = some (.theme id) then [value] else [] := by
  by_cases hdefault : key = "default"
  · rw [if_neg fun h => h.1 hdefault, hdefault]
    rfl
  · rw [entryWays.eq_def, if_neg hdefault]
    cases hcondition : theme.condition? key with
    | some kind =>
        cases kind with
        | runtime => simp
        | theme id' =>
            by_cases hid : id' = id <;> simp [hdefault, hid]
    | none =>
        by_cases hflag : isFlagName key
        · simp [hflag]
        · cases value with
          | literal l => simp [hflag]
          | conditional tags =>
              have htags : (tags.map fun t => ((tagCondition key t.1, t.2) : Way)).filter
                  (fun w => w.1 = .theme id) = [] := by
                refine List.filter_eq_nil_iff.2 fun w hw => ?_
                obtain ⟨t, -, rfl⟩ := List.mem_map.1 hw
                by_cases ht : t.1 = "default" <;> simp [tagCondition, ht]
              simpa [hflag] using htags

theorem ways_fallback (entries : StyleObject) :
    ((ways theme entries).filter fun w => w.1 = .fallback).map (·.2) =
      fallbackValues theme entries := by
  rw [ways, List.filter_flatMap, List.map_flatMap, fallbackValues]
  simp only [entryWays_fallback]

theorem ways_theme (entries : StyleObject) (id : ConditionId) :
    ((ways theme entries).filter fun w => w.1 = .theme id).map (·.2) =
      themeValues theme id entries := by
  rw [ways, List.filter_flatMap, List.map_flatMap, themeValues]
  simp only [entryWays_theme]
  induction entries with
  | nil => rfl
  | cons e es ih =>
      rw [List.flatMap_cons, ih, List.filter_cons]
      by_cases he : e.1 ≠ "default" ∧ theme.condition? e.1 = some (.theme id)
      · rw [if_pos he, if_pos (decide_eq_true he)]
        rfl
      · rw [if_neg he, if_neg (by simpa only [decide_eq_true_iff] using he)]
        rfl

theorem mem_entryFallbacks {key : String} {value v : StyleValue} :
    v ∈ entryFallbacks theme key value ↔
      key = "default" ∧ v = value ∨
        isVariantKey theme key ∧ ∃ tags, value = .conditional tags ∧ ("default", v) ∈ tags := by
  rw [entryFallbacks.eq_def]
  by_cases hdefault : key = "default"
  · have hkey : ¬ isVariantKey theme key := fun h => (StyleNode.isVariantKey_iff.1 h).1 hdefault
    rw [if_pos hdefault, List.mem_singleton]
    refine ⟨fun hv => .inl ⟨hdefault, hv⟩, ?_⟩
    rintro (⟨-, hv⟩ | ⟨hvariant, -⟩)
    · exact hv
    · exact absurd hvariant hkey
  · rw [if_neg hdefault]
    by_cases hkey : isVariantKey theme key
    · cases value with
      | literal l => simp [hdefault, hkey]
      | conditional tags => simp [hdefault, hkey]
    · simp [hdefault, hkey]

theorem declaresFallback_iff {entries : StyleObject} :
    DeclaresFallback theme entries ↔ fallbackValues theme entries ≠ [] := by
  rw [Ne, List.eq_nil_iff_forall_not_mem, not_forall_not]
  simp only [fallbackValues, List.mem_flatMap, mem_entryFallbacks]
  constructor
  · rintro (⟨value, hmem⟩ | ⟨key, tags, value, hmem, hkey, htag⟩)
    · exact ⟨value, _, hmem, .inl ⟨rfl, rfl⟩⟩
    · exact ⟨value, _, hmem, .inr ⟨hkey, tags, rfl, htag⟩⟩
  · rintro ⟨value, ⟨key, v⟩, hmem, ⟨rfl, rfl⟩ | ⟨hkey, tags, rfl, htag⟩⟩
    · exact .inl ⟨value, hmem⟩
    · exact .inr ⟨key, tags, value, hmem, hkey, htag⟩

/-! ## What a chain hands down -/

theorem nearest_of_forall {values : StyleObject → List StyleValue} {chain : List StyleObject}
    {P : List StyleValue → Prop} (hnil : P []) (h : ∀ o ∈ chain, P (values o)) :
    P (nearest values chain) := by
  induction chain with
  | nil => exact hnil
  | cons o outer ih =>
      obtain ⟨ho, houter⟩ := List.forall_mem_cons.1 h
      rw [nearest]
      split
      · exact ih houter
      · exact ho

theorem nearest_ne_nil_iff {values : StyleObject → List StyleValue} {chain : List StyleObject} :
    nearest values chain ≠ [] ↔ ∃ o ∈ chain, values o ≠ [] := by
  induction chain with
  | nil => simp [nearest]
  | cons o outer ih =>
      rw [nearest]
      split
      · next hnone => simp [ih, List.isEmpty_iff.1 hnone]
      · next hsome => simp [List.isEmpty_iff.not.1 hsome]

/-- What the objects of a chain hand down. -/
def handed (theme : Theme) : List StyleObject → List Way
  | [] => []
  | entries :: outer => handedDown (ways theme entries) (handed theme outer)

/-- The object passes the check, as all objects of a value that normalizes do. -/
def Sound (theme : Theme) (property : String) (entries : StyleObject) : Prop :=
  check theme property (Entries.has entries "default") entries = .ok () ∧
    (StyleValue.conditional entries).Distinct

theorem Sound.length_fallbackValues_le {entries : StyleObject}
    (h : Sound theme property entries) : (fallbackValues theme entries).length ≤ 1 := by
  rw [← ways_fallback, List.length_map, ← fallbacks, fallbacks_ways h.1 h.2]
  exact Option.length_toList_le

/-- What a chain hands down for a condition is what the nearest object has that has
anything. -/
theorem filter_handed {values : StyleObject → List StyleValue} {c : BranchCondition}
    (hc : ¬ c.isDynamic)
    (hvalues : ∀ entries, ((ways theme entries).filter fun w => w.1 = c).map (·.2) = values entries)
    {chain : List StyleObject} (h : ∀ entries ∈ chain, Sound theme property entries) :
    ((handed theme chain).filter fun w => w.1 = c).map (·.2) = nearest values chain := by
  induction chain with
  | nil => rfl
  | cons entries outer ih =>
      obtain ⟨⟨hcheck, hd⟩, houter⟩ := List.forall_mem_cons.1 h
      -- the check is needed here: an object with two fallbacks hands down the first alone
      rw [handed, filter_handedDown, filter_declared hcheck hd hc, nearest, ← ih houter,
        ← hvalues, List.isEmpty_map]
      split
      · rfl
      · rfl

/-! ## Places -/

/-- What is known of an object in its place in a value that normalizes. -/
structure Standing (theme : Theme) (property : String) (tree : StyleNode) (path : List Nat)
    (entries : StyleObject) (outer : List StyleObject) : Prop where
  normal : ∃ node, tree.at? path = some node ∧
    ofValue theme property (.conditional entries) (settle theme property (handed theme outer)) =
      .ok node
  distinct : (StyleValue.conditional entries).Distinct
  outer : ∀ o ∈ outer, Sound theme property o

variable {value : StyleValue} {tree : StyleNode} {path : List Nat} {entries : StyleObject}
  {outer : List StyleObject}

/-- The branches of an object stand where its ways do, and each is the normal form
of its way. -/
theorem Standing.branch (h : Standing theme property tree path entries outer) {i : Nat} {w : Way}
    (hw : (ways theme entries)[i]? = some w) :
    ∃ node, tree.at? (path ++ [i]) = some node ∧
      ofValue theme property w.2 (settle theme property
        (handedTo (handed theme (entries :: outer)) w)) = .ok node := by
  obtain ⟨node, hnode, hvalue⟩ := h.normal
  obtain ⟨-, bs, rest, hbs, -, rfl⟩ := StyleNode.ofValue_conditional_ok_iff.1 hvalue
  obtain ⟨hi, rfl⟩ := List.getElem?_eq_some_iff.1 hw
  have hlength := hbs.length_eq
  -- the branches of the ways stand before those that are taken over
  have hb : (bs ++ rest)[i]? = some bs[i] := by
    rw [List.getElem?_append_left (hlength ▸ hi), List.getElem?_eq_getElem]
  have hbranch := List.Forall₂.get hbs hi (hlength ▸ hi)
  exact ⟨_, StyleNode.at?_concat hnode hb, hbranch.2⟩

theorem Standing.sound (h : Standing theme property tree path entries outer) :
    ∀ o ∈ entries :: outer, Sound theme property o := by
  obtain ⟨node, -, hvalue⟩ := h.normal
  have hcheck := (StyleNode.ofValue_conditional_ok_iff.1 hvalue).1
  exact List.forall_mem_cons.2 ⟨⟨hcheck, h.distinct⟩, h.outer⟩

theorem Place.standing (hd : value.Distinct) (h : normalize theme property value = .ok tree)
    (hp : Place theme value path entries outer) :
    Standing theme property tree path entries outer := by
  -- the induction is on the path, and the chain is what it has gone through
  induction hp with
  | top hvalue =>
      subst hvalue
      exact ⟨⟨tree, rfl, h⟩, hd, by simp⟩
  | inner _ hw hc ih =>
      obtain ⟨node, hnode, hvalue⟩ := ih.branch hw
      rw [handedTo, if_pos hc] at hvalue
      exact ⟨⟨node, hnode, hvalue⟩,
        StyleNode.distinct_of_mem_ways ih.distinct (List.mem_of_getElem? hw), ih.sound⟩
  | fresh _ hw hc ih =>
      obtain ⟨node, hnode, hvalue⟩ := ih.branch hw
      rw [handedTo, if_neg hc] at hvalue
      exact ⟨⟨node, hnode, hvalue⟩,
        StyleNode.distinct_of_mem_ways ih.distinct (List.mem_of_getElem? hw), by simp⟩

/-- A branch is the normal form of a value to which nothing is handed. -/
def IsNormalOf (theme : Theme) (property : String) (value : StyleValue)
    (b : BranchCondition × StyleNode) : Prop :=
  normalize theme property value = .ok b.2

/-- The branches of an object in its place: first those of its ways, and of those
that no state decides, under each condition, what the nearest object declares. -/
theorem Standing.branches (h : Standing theme property tree path entries outer) :
    ∃ bs, tree.at? path = some (.branching bs) ∧
      (ways theme entries).map (·.1) <+: bs.map (·.1) ∧
      ∀ c : BranchCondition, ¬ c.isDynamic → ∀ values : StyleObject → List StyleValue,
        (∀ o, ((ways theme o).filter fun w => w.1 = c).map (·.2) = values o) →
        List.Forall₂ (IsNormalOf theme property) (nearest values (entries :: outer))
          (bs.filter fun b => b.1 = c) := by
  obtain ⟨node, hnode, hvalue⟩ := h.normal
  obtain ⟨all, rfl, hstatic⟩ := StyleNode.filter_ofValue h.distinct hvalue
  refine ⟨all, hnode, ?_, fun c hc values hvalues => ?_⟩
  · obtain ⟨-, bs, rest, hbs, -, heq⟩ := StyleNode.ofValue_conditional_ok_iff.1 hvalue
    cases heq
    have hconditions : (ways theme entries).map (·.1) = bs.map (·.1) :=
      map_eq_map_iff_forall₂.2 (hbs.imp fun w b hb => hb.1.symm)
    rw [hconditions, List.map_append]
    exact List.prefix_append _ _
  · rw [← filter_handed hc hvalues h.sound]
    exact List.forall₂_map_left_iff.2 ((hstatic c hc).imp fun w b hb => hb.2)

end

end Meaning

section

open Meaning StyleNode

/-- An object in a value that normalizes has a branch list in its normal form, which
begins with the branches of its own keys and tags. It has a fallback branch when the
object or one of its chain declares a fallback, and then one: the normal form of the
fallback of the innermost that does. Its branches under a theme condition are the
normal forms of what the innermost object that has the condition declares under any
of its names. All of them are normal forms to which nothing is handed. -/
theorem inheritance_is_lexical {theme : Theme} {property : String} {value : StyleValue}
    {tree : StyleNode} (hd : value.Distinct) (h : normalize theme property value = .ok tree)
    {path : List Nat} {entries : StyleObject} {outer : List StyleObject}
    (hp : Place theme value path entries outer) :
    ∃ bs, tree.at? path = some (.branching bs) ∧
      (ways theme entries).map (·.1) <+: bs.map (·.1) ∧
      ((∃ b ∈ bs, b.1 = .fallback) ↔ ∃ o ∈ entries :: outer, DeclaresFallback theme o) ∧
      (bs.filter fun b => b.1 = .fallback).length ≤ 1 ∧
      List.Forall₂ (IsNormalOf theme property)
        (nearest (fallbackValues theme) (entries :: outer))
        (bs.filter fun b => b.1 = .fallback) ∧
      ∀ id, List.Forall₂ (IsNormalOf theme property)
        (nearest (themeValues theme id) (entries :: outer))
        (bs.filter fun b => b.1 = .theme id) := by
  have hstanding := hp.standing hd h
  obtain ⟨bs, hbs, howns, hbranches⟩ := hstanding.branches
  have hfallbacks := hbranches .fallback (by decide) _ ways_fallback
  have hlength := hfallbacks.length_eq
  refine ⟨bs, hbs, howns, ?_, ?_, hfallbacks, fun id => ?_⟩
  · calc (∃ b ∈ bs, b.1 = .fallback)
        ↔ bs.filter (fun b => b.1 = .fallback) ≠ [] := by simp
      _ ↔ nearest (fallbackValues theme) (entries :: outer) ≠ [] := by
          rw [← List.length_pos_iff, ← List.length_pos_iff, hlength]
      _ ↔ ∃ o ∈ entries :: outer, fallbackValues theme o ≠ [] := nearest_ne_nil_iff
      _ ↔ ∃ o ∈ entries :: outer, DeclaresFallback theme o := by
          simp only [declaresFallback_iff]
  · rw [← hlength]
    exact nearest_of_forall (P := fun values => values.length ≤ 1) (by simp)
      fun o ho => (hstanding.sound o ho).length_fallbackValues_le
  · exact hbranches (.theme id) (by simp [BranchCondition.isDynamic]) _ fun o => ways_theme o id

/-- A value under a flag and a tag, in objects that both declare a fallback. The
inner of them declares it as the tag `default`. -/
def flaggedEntries : StyleObject :=
  [("wide", .literal (.text "flex")),
   ("size", .conditional
     [("large", .conditional [("isHot", .literal (.text "block"))]),
      ("default", .literal (.text "flex"))])]

def taggedEntries : StyleObject :=
  [("default", .literal (.text "block")), ("dark", .literal (.text "flex")),
   ("isOpen", .conditional flaggedEntries)]

/-- The innermost object declares nothing. Its fallback comes from the tag, and its
values under theme conditions from one object each. -/
theorem inheritance_is_lexical_tagged :
    ∃ tree, (StyleValue.conditional taggedEntries).Distinct ∧
      normalize smallTheme "display" (.conditional taggedEntries) = .ok tree ∧
      Place smallTheme (.conditional taggedEntries) [2, 1]
        [("isHot", .literal (.text "block"))] [flaggedEntries, taggedEntries] ∧
      ∃ bs, tree.at? [2, 1] = some (.branching bs) ∧
        List.Forall₂ (IsNormalOf smallTheme "display") [.literal (.text "flex")]
          (bs.filter fun b => b.1 = .fallback) ∧
        List.Forall₂ (IsNormalOf smallTheme "display") [.literal (.text "flex")]
          (bs.filter fun b => b.1 = .theme 0) ∧
        (bs.filter fun b => b.1 = .theme 2) = [] := by
  obtain ⟨tree, htree⟩ :
      ∃ tree, normalize smallTheme "display" (.conditional taggedEntries) = .ok tree := ⟨_, rfl⟩
  have hdistinct : (StyleValue.conditional taggedEntries).Distinct := by
    simp [StyleValue.Distinct, StyleValue.EachDistinct, Entries.Distinct, Entries.keys,
      taggedEntries, flaggedEntries]
  have htop : Place smallTheme (.conditional taggedEntries) [] taggedEntries [] := .top rfl
  have hflag : Place smallTheme (.conditional taggedEntries) ([] ++ [2]) flaggedEntries
      [taggedEntries] := .inner htop rfl rfl
  have hplace : Place smallTheme (.conditional taggedEntries) ([2] ++ [1])
      [("isHot", .literal (.text "block"))] [flaggedEntries, taggedEntries] :=
    .inner hflag rfl rfl
  obtain ⟨bs, hbs, -, -, -, hfallback, hthemes⟩ := inheritance_is_lexical hdistinct htree hplace
  exact ⟨tree, hdistinct, htree, hplace, bs, hbs, hfallback, hthemes 0,
    List.forall₂_nil_left_iff.1 (hthemes 2)⟩

end

end AtomicStyles
