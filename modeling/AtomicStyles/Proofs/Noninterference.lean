import AtomicStyles.Proofs.ClassList

/-!
# What a selection can depend on

A procedure lists the names that it reads, and whoever calls it may rely on the
list: a renderer computes the class list once when the list is empty, and it
keeps a class list as long as the values under the listed names stay the same. A
name that is read and not listed would make such a class list wrong.

So the list is compared with the forest in both directions. Every condition of
the forest, at any depth, has its name in the list, and nothing else is there.
Then the run is compared for two states. The nodes of a list are looked at in
order until one is satisfied, so two runs look at the same nodes only as long as
all answers before were the same. The induction carries this for the node that
is chosen and for the nodes without a condition at once.
-/

namespace AtomicStyles

/-! ## Conditions at any depth -/

namespace Rule

def condition : Rule → Option RuntimeCondition
  | .leaf _ _ condition _ => condition
  | .nested _ _ condition _ => condition

def children : Rule → List Rule
  | .leaf .. => []
  | .nested _ _ _ children => children

/-- The rule is one of the rules or stands below one of them, at any depth. -/
inductive Within : List Rule → Rule → Prop
  | top {rules : List Rule} {r : Rule} (h : r ∈ rules) : Within rules r
  | deeper {rules : List Rule} {r s : Rule} (h : r ∈ rules) (hs : Within r.children s) :
      Within rules s

theorem Within.mono {rules more : List Rule} {r : Rule} (h : Within rules r)
    (hsub : rules ⊆ more) : Within more r := by
  cases h with
  | top h => exact .top (hsub h)
  | deeper h hs => exact .deeper (hsub h) hs

end Rule

/-- A name is that of a condition somewhere in the forest. -/
def RuleForest.Mentions (f : RuleForest) (name : String) : Prop :=
  ∃ g ∈ f.groups, ∃ r, Rule.Within g.rules r ∧ ∃ c ∈ r.condition, c.name = name

namespace Node

theorem reads_ofRule (r : Rule) :
    reads (ofRule r) = (r.condition.map (·.name)).toList ++ allReads (ofRules r.children) := by
  match r with
  | .leaf (.class _ _) _ _ _ => rfl
  | .leaf (.prelude _) _ _ _ => rfl
  | .leaf .group _ _ _ => rfl
  | .nested _ _ _ _ => rfl

theorem allReads_ofRules (rules : List Rule) :
    allReads (ofRules rules) = rules.flatMap fun r => reads (ofRule r) := by
  induction rules with
  | nil => rfl
  | cons r rules ih => rw [ofRules, allReads, List.flatMap_cons, ih]

theorem mem_allReads_of_within {rules : List Rule} {r : Rule} (h : Rule.Within rules r)
    {c : RuntimeCondition} (hc : c ∈ r.condition) : c.name ∈ allReads (ofRules rules) := by
  induction h with
  | @top rules r h =>
      have hname : c.name ∈ (r.condition.map (·.name)).toList := by
        rw [Option.mem_def.1 hc]
        simp
      rw [allReads_ofRules]
      refine List.mem_flatMap.2 ⟨r, h, ?_⟩
      rw [reads_ofRule]
      exact List.mem_append_left _ hname
  | @deeper rules r s h _ ih =>
      rw [allReads_ofRules]
      refine List.mem_flatMap.2 ⟨r, h, ?_⟩
      rw [reads_ofRule]
      exact List.mem_append_right _ (ih hc)

mutual

theorem within_of_mem_reads {name : String} (r : Rule) (h : name ∈ reads (ofRule r)) :
    ∃ s, Rule.Within [r] s ∧ ∃ c ∈ s.condition, c.name = name := by
  rw [reads_ofRule] at h
  rcases List.mem_append.1 h with h | h
  · obtain ⟨c, hc, hname⟩ := Option.map_eq_some_iff.1 (Option.mem_toList.1 h)
    exact ⟨r, .top (List.mem_singleton.2 rfl), c, hc, hname⟩
  · match r with
    | .leaf .. => exact absurd h (by simp [Rule.children, ofRules, allReads])
    | .nested selector layer condition children =>
        obtain ⟨s, hs, hname⟩ := within_of_mem_allReads children h
        exact ⟨s, .deeper (List.mem_singleton.2 rfl) hs, hname⟩

theorem within_of_mem_allReads {name : String} (rules : List Rule)
    (h : name ∈ allReads (ofRules rules)) :
    ∃ s, Rule.Within rules s ∧ ∃ c ∈ s.condition, c.name = name := by
  match rules with
  | [] => exact absurd h (by simp [ofRules, allReads])
  | r :: rules =>
      rw [ofRules, allReads] at h
      rcases List.mem_append.1 h with h | h
      · obtain ⟨s, hs, hname⟩ := within_of_mem_reads r h
        exact ⟨s, hs.mono (by simp), hname⟩
      · obtain ⟨s, hs, hname⟩ := within_of_mem_allReads rules h
        exact ⟨s, hs.mono (List.subset_cons_self r rules), hname⟩

end

end Node

/-! ## Two states -/

namespace RenderState

/-- Two states hold the same under some names. What else they hold, and in what
order, is left open. -/
def AgreeOn (names : List String) (s t : RenderState) : Prop :=
  ∀ name ∈ names, s.get? name = t.get? name

theorem AgreeOn.mono {names more : List String} {s t : RenderState} (h : AgreeOn more s t)
    (hsub : names ⊆ more) : AgreeOn names s t :=
  fun name hname => h name (hsub hname)

end RenderState

open RenderState (AgreeOn)

section

variable {s t : RenderState}

theorem RuntimeCondition.holds_congr {c : RuntimeCondition}
    (h : s.get? c.name = t.get? c.name) : c.holds s = c.holds t := by
  cases c with
  | flag name =>
      show s.isSet name = t.isSet name
      rw [RenderState.isSet, RenderState.isSet, show s.get? name = t.get? name from h]
  | variant name tag =>
      show s.isVariant name tag = t.isVariant name tag
      rw [RenderState.isVariant, RenderState.isVariant, show s.get? name = t.get? name from h]

namespace Node

theorem isChosen_congr (n : Node) (h : AgreeOn n.reads s t) : n.isChosen s = n.isChosen t := by
  obtain ⟨condition, tokens, children⟩ := n
  cases condition with
  | none => rfl
  | some c =>
      show c.holds s = c.holds t
      exact RuntimeCondition.holds_congr (h c.name (by simp [reads]))

mutual

theorem run_congr (n : Node) (h : AgreeOn n.reads s t) : run s n = run t n := by
  match n with
  | .mk condition tokens children =>
      rw [reads] at h
      obtain ⟨hchosen, hrest⟩ :=
        runList_congr children (h.mono (List.subset_append_right _ _))
      rw [run, run, hchosen, hrest]

theorem runList_congr (ns : List Node) (h : AgreeOn (allReads ns) s t) :
    chosen? s ns = chosen? t ns ∧ unconditional s ns = unconditional t ns := by
  match ns with
  | [] => exact ⟨rfl, rfl⟩
  | n :: ns =>
      -- the list reads all names of its first node, whether that node is chosen or not
      rw [allReads] at h
      have hn := h.mono (List.subset_append_left _ _)
      obtain ⟨hchosen, hrest⟩ := runList_congr ns (h.mono (List.subset_append_right _ _))
      constructor
      · rw [chosen?, chosen?, isChosen_congr n hn, run_congr n hn, hchosen]
      · rw [unconditional, unconditional, run_congr n hn, hrest]

end

theorem runAll_congr (ns : List Node) (h : AgreeOn (allReads ns) s t) :
    runAll s ns = runAll t ns := by
  obtain ⟨hchosen, hrest⟩ := runList_congr ns h
  rw [runAll, runAll, hchosen, hrest]

end Node

namespace SelectionProcedure

/-- The groups are taken from the last to the first, and what one has decided is
known to those before it. So both answers have to be the same in both runs. -/
theorem effective_congr {groups : List PropertyGroup}
    (h : AgreeOn (groups.flatMap fun g => Node.allReads g.nodes) s t) :
    effective s groups = effective t groups := by
  induction groups with
  | nil => rfl
  | cons g groups ih =>
      rw [List.flatMap_cons] at h
      rw [effective, effective, ih (h.mono (List.subset_append_right _ _)),
        Node.runAll_congr g.nodes (h.mono (List.subset_append_left _ _))]

theorem mem_dynamicNames {p : SelectionProcedure} {name : String} :
    name ∈ p.dynamicNames ↔ ∃ g ∈ p.groups, name ∈ Node.allReads g.nodes := by
  rw [dynamicNames, firsts_eq_eraseDups, List.mem_eraseDups, List.mem_flatMap]

theorem select_congr {p : SelectionProcedure} (h : AgreeOn p.dynamicNames s t) :
    p.select s = p.select t := by
  have hreads : AgreeOn (p.groups.flatMap fun g => Node.allReads g.nodes) s t :=
    fun name hname => h name (mem_dynamicNames.2 (List.mem_flatMap.1 hname))
  rw [select, select, selected, selected, effective_congr hreads]

theorem mem_dynamicNames_ofForest {f : RuleForest} {name : String} :
    name ∈ (ofForest f).dynamicNames ↔ f.Mentions name := by
  rw [mem_dynamicNames]
  constructor
  · rintro ⟨_, hgroup, hname⟩
    obtain ⟨g, hg, rfl⟩ := List.mem_map.1 hgroup
    exact ⟨g, hg, Node.within_of_mem_allReads g.rules hname⟩
  · rintro ⟨g, hg, r, hr, c, hc, rfl⟩
    exact ⟨_, List.mem_map.2 ⟨g, hg, rfl⟩, Node.mem_allReads_of_within hr hc⟩

theorem selectStatic?_of_nil {p : SelectionProcedure} (h : p.dynamicNames = []) :
    p.selectStatic? = some (p.select .empty) := by
  rw [selectStatic?, h]
  rfl

theorem selectStatic?_of_ne_nil {p : SelectionProcedure} (h : p.dynamicNames ≠ []) :
    p.selectStatic? = none := by
  rw [selectStatic?, if_neg (by simpa using h)]

end SelectionProcedure

end

/-- The names that a procedure lists are those of the conditions in its forest, each
once, and they are all that a selection depends on. A procedure has a static class
list exactly when there are none, and it is the class list of every state. -/
theorem selection_depends_on_dynamicNames (f : RuleForest) :
    let p := SelectionProcedure.ofForest f
    p.dynamicNames.Nodup ∧
      (∀ name, name ∈ p.dynamicNames ↔ f.Mentions name) ∧
      (∀ s t : RenderState, (∀ name ∈ p.dynamicNames, s.get? name = t.get? name) →
        p.select s = p.select t) ∧
      (p.selectStatic?.isSome ↔ p.dynamicNames = []) ∧
      ∀ list ∈ p.selectStatic?, ∀ state, p.select state = list := by
  intro p
  have hnodup : p.dynamicNames.Nodup := by
    rw [SelectionProcedure.dynamicNames, firsts_eq_eraseDups]
    exact nodup_eraseDups _
  refine ⟨hnodup, fun _ => SelectionProcedure.mem_dynamicNames_ofForest,
    fun s t h => SelectionProcedure.select_congr h, ?_, ?_⟩
  · by_cases h : p.dynamicNames = []
    · simp [SelectionProcedure.selectStatic?_of_nil h, h]
    · simp [SelectionProcedure.selectStatic?_of_ne_nil h, h]
  · intro list hlist state
    by_cases h : p.dynamicNames = []
    · rw [SelectionProcedure.selectStatic?_of_nil h, Option.mem_some_iff] at hlist
      rw [← hlist]
      refine SelectionProcedure.select_congr fun name hname => ?_
      rw [h] at hname
      cases hname
    · rw [SelectionProcedure.selectStatic?_of_ne_nil h] at hlist
      cases hlist

/-- A flag that is only looked at when a variant has some tag is listed, and a state
may hold anything under other names. -/
theorem selection_depends_on_dynamicNames_nested :
    ∃ f,
      lower smallTheme (.ofList [("display", .conditional
        [("size", .conditional
            [("large", .conditional [("isOpen", .literal (.text "flex"))]),
             ("default", .literal (.text "block"))])])]) = .ok f ∧
      (SelectionProcedure.ofForest f).dynamicNames = ["size", "isOpen"] ∧
      (SelectionProcedure.ofForest f).select
          (((RenderState.empty.variant "size" "large").flag "isOpen" true).flag "isHovered" true) =
        (SelectionProcedure.ofForest f).select
          ((RenderState.empty.flag "isOpen" true).variant "size" "large") := by
  obtain ⟨f, hf, hnames⟩ :
      ∃ f,
        lower smallTheme (.ofList [("display", .conditional
          [("size", .conditional
              [("large", .conditional [("isOpen", .literal (.text "flex"))]),
               ("default", .literal (.text "block"))])])]) = .ok f ∧
        (SelectionProcedure.ofForest f).dynamicNames = ["size", "isOpen"] :=
    ⟨_, rfl, by decide +kernel⟩
  refine ⟨f, hf, hnames, (selection_depends_on_dynamicNames f).2.2.1 _ _ ?_⟩
  rw [hnames]
  decide

end AtomicStyles
