import AtomicStyles.Compiler
import AtomicStyles.Proofs.BuiltTheme
import AtomicStyles.Proofs.Literals
import AtomicStyles.Proofs.Override

/-!
# A shorthand written out

A shorthand stands for several properties that get one value. The same can be said
with an entry for each property. On the way the two part: the shorthand brings its
value into normal form once, under its own name, and takes its properties by their
ordinals, while each of the entries looks its property up and normalizes for itself.

They meet again for two reasons. The name that a value is normalized for shows in
errors and nowhere else (`normalize_property`). And a property of a built theme that
is no shorthand itself is found under its name at the ordinal that the shorthand
has for it (`expand_longhands`).
-/

namespace AtomicStyles

/-! ## The name of the property -/

namespace StyleNode

open Meaning (Way ways waysSize handedDown undeclared)

variable {theme : Theme}

/-- What a value that is accepted becomes does not depend on the property that it is
for. -/
theorem ofValue_property {p : String} (q : String) {value : StyleValue} {inherited : List Way}
    {tree : StyleNode} (h : ofValue theme p value (settle theme p inherited) = .ok tree) :
    ofValue theme q value (settle theme q inherited) = .ok tree := by
  match value with
  | .literal l => exact ofValue_literal_ok_iff.2 (ofValue_literal_ok_iff.1 h)
  | .conditional entries =>
      obtain ⟨hcheck, bs, rest, hbs, hrest, rfl⟩ := ofValue_conditional_ok_iff.1 h
      have hown := (List.forall₂_and_left _ _).2
        ⟨fun w (hw : w ∈ ways theme entries) => hw, hbs⟩
      have htaken := (List.forall₂_and_left _ _).2
        ⟨fun w (hw : w ∈ undeclared (ways theme entries) inherited) => hw, hrest⟩
      refine ofValue_conditional_ok_iff.2
        ⟨check_entries_ok_iff.2 (check_entries_ok_iff.1 hcheck), bs, rest,
          hown.imp fun w b hb => ?_, htaken.imp fun w b hb => ?_, rfl⟩
      · obtain ⟨hw, hc, hn⟩ := hb
        exact ⟨hc, ofValue_property q hn⟩
      · obtain ⟨hw, hc, hn⟩ := hb
        have hmem : w ∈ inherited := (List.mem_filter.1 hw).1
        have hsettled : ofValue theme p w.2 (settle theme p []) = .ok b.2 := hn
        exact ⟨hc, ofValue_property q hsettled⟩
termination_by value.size + waysSize inherited
decreasing_by
  · have hlt := waysSize_handedTo_lt hw inherited
    have hle := Meaning.waysSize_ways_le theme entries
    rw [StyleValue.size]
    omega
  · have hlt := Meaning.size_lt_waysSize hmem
    rw [Meaning.waysSize_nil]
    omega

theorem normalize_property {p : String} (q : String) {value : StyleValue} {tree : StyleNode}
    (h : normalize theme p value = .ok tree) : normalize theme q value = .ok tree :=
  @ofValue_property theme p q value [] tree h

end StyleNode

/-! ## The table of shorthands -/

namespace ThemeDraft

variable {properties : Entries PropertyDefinition}

/-- Each shorthand has the ordinals of its properties, and none is there twice. -/
theorem shorthands_found {known next : Entries (List PropertyId)}
    {es : List (String × List String)}
    (h : es.foldlM (addShorthand properties) known = .ok next) (hknown : known.Distinct) :
    next.Distinct ∧ (∀ r ∈ known, r ∈ next) ∧
      ∀ e ∈ es, ∃ ids, longhandIds properties e.1 e.2 = .ok ids ∧ (e.1, ids) ∈ next := by
  refine foldlM_ok_induction
    (P := fun known es next => Entries.Distinct known → Entries.Distinct next ∧
      (∀ r ∈ known, r ∈ next) ∧
      ∀ e ∈ es, ∃ ids, longhandIds properties e.1 e.2 = .ok ids ∧ (e.1, ids) ∈ next)
    (fun known hknown => ⟨hknown, fun r hr => hr, by simp⟩)
    (fun known e next es last he hes hknown => ?_) h hknown
  obtain ⟨hnew, ids, hids, rfl⟩ := addShorthand_ok_iff.1 he
  have hnext : Entries.Distinct (known ++ [(e.1, ids)]) := by
    rw [← Entries.insert_of_not_mem hnew]
    exact Entries.distinct_insert hknown _ _
  obtain ⟨hlast, hkept, hfound⟩ := hes hnext
  refine ⟨hlast, fun r hr => hkept r (List.mem_append_left _ hr), ?_⟩
  exact List.forall_mem_cons.2
    ⟨⟨ids, hids, hkept _ (List.mem_append_right _ (List.mem_singleton.2 rfl))⟩, hfound⟩

/-- The names in the table are those of the shorthands. -/
theorem mem_keys_shorthands {d : ThemeDraft} {t : Theme} (h : d.build = .ok t) {name : String} :
    name ∈ t.shorthands.keys ↔ name ∈ d.shorthands.map (·.1) := by
  obtain ⟨added, hadded, hkeys⟩ := shorthands_pass (build_ok_iff.1 h).2.2
  rw [hadded, List.nil_append, hkeys]

/-- A shorthand stands for the properties that it names, and those that are no
shorthands stand for themselves. -/
theorem expand_longhands {d : ThemeDraft} {t : Theme} (h : d.build = .ok t) {s : String}
    {longhands : List String} (hs : (s, longhands) ∈ d.shorthands)
    (hplain : ∀ l ∈ longhands, l ∉ d.shorthands.map (·.1)) :
    ∃ ids, t.expand s = .ok ids ∧
      List.Forall₂ (fun l id => t.expand l = .ok [id]) longhands ids := by
  obtain ⟨hdistinct, -, hfound⟩ := shorthands_found (build_ok_iff.1 h).2.2 Entries.distinct_nil
  obtain ⟨ids, hids, hmem⟩ := hfound _ hs
  have hlonghands := (List.forall₂_and_left _ _).2 ⟨hplain, longhandIds_ok_iff.1 hids⟩
  refine ⟨ids, ?_, hlonghands.imp fun l id hl => ?_⟩
  · rw [Theme.expand, Entries.get?_of_mem hdistinct hmem]
  · obtain ⟨hno, definition, hfind⟩ := hl
    have hnone : t.shorthands.get? l = none :=
      Entries.get?_eq_none_iff.2 fun hl => hno ((mem_keys_shorthands h).1 hl)
    rw [Theme.expand, hnone, Theme.propertyId?, hfind]
    rfl

end ThemeDraft

/-! ## Entries of a description -/

namespace Lowering

variable {theme : Theme}

/-- The groups that several entries are lowered to. -/
def Lowers (theme : Theme) (es : List (String × StyleValue)) (gs : List PropertyRules) : Prop :=
  ∃ groups, List.Forall₂ (fun e g => entry theme e.1 e.2 = .ok g) es groups ∧
    gs = groups.flatten

theorem lower_ok_iff_lowers {d : StyleDescription} {f : RuleForest} :
    lower theme d = .ok f ↔ Lowers theme d.entries f.groups := by
  rw [lower_ok_iff]
  refine exists_congr fun groups => and_congr_right fun _ => ?_
  exact ⟨fun h => by rw [h], fun h => by rw [← h]⟩

theorem lowers_cons_iff {e : String × StyleValue} {es : List (String × StyleValue)}
    {gs : List PropertyRules} :
    Lowers theme (e :: es) gs ↔
      ∃ first rest, entry theme e.1 e.2 = .ok first ∧ Lowers theme es rest ∧
        gs = first ++ rest := by
  constructor
  · rintro ⟨groups, h, rfl⟩
    obtain ⟨first, groups, he, hes, rfl⟩ := List.forall₂_cons_left_iff.1 h
    exact ⟨first, groups.flatten, he, ⟨groups, hes, rfl⟩, rfl⟩
  · rintro ⟨first, -, he, ⟨groups, hes, rfl⟩, rfl⟩
    exact ⟨first :: groups, .cons he hes, rfl⟩

theorem lowers_nil_iff {gs : List PropertyRules} : Lowers theme [] gs ↔ gs = [] := by
  constructor
  · rintro ⟨groups, h, rfl⟩
    rw [List.forall₂_nil_left_iff.1 h]
    rfl
  · rintro rfl
    exact ⟨[], .nil, rfl⟩

theorem lowers_append_iff {es fs : List (String × StyleValue)} {gs : List PropertyRules} :
    Lowers theme (es ++ fs) gs ↔
      ∃ first rest, Lowers theme es first ∧ Lowers theme fs rest ∧ gs = first ++ rest := by
  induction es generalizing gs with
  | nil => simp [lowers_nil_iff]
  | cons e es ih =>
      rw [List.cons_append, lowers_cons_iff]
      simp only [lowers_cons_iff, ih]
      constructor
      · rintro ⟨a, -, ha, ⟨b, c, hb, hc, rfl⟩, rfl⟩
        exact ⟨a ++ b, c, ⟨a, b, ha, hb, rfl⟩, hc, (List.append_assoc a b c).symm⟩
      · rintro ⟨-, c, ⟨a, b, ha, hb, rfl⟩, hc, rfl⟩
        exact ⟨a, b ++ c, ha, ⟨b, c, hb, hc, rfl⟩, List.append_assoc a b c⟩

theorem lowers_longhands_iff {value : StyleValue} {tree : StyleNode} {p : String}
    (htree : StyleNode.normalize theme p value = .ok tree) {longhands : List String}
    {ids : List PropertyId} (hcustom : ∀ l ∈ longhands, ¬ Css.isCustomName l)
    (hids : List.Forall₂ (fun l id => theme.expand l = .ok [id]) longhands ids)
    {gs : List PropertyRules} :
    Lowers theme (longhands.map fun l => (l, value)) gs ↔
      List.Forall₂ (Lowered theme tree) ids gs := by
  induction hids generalizing gs with
  | nil => rw [List.map_nil, lowers_nil_iff, List.forall₂_nil_left_iff]
  | @cons l id longhands ids hid hids ih =>
      obtain ⟨hl, hcustom⟩ := List.forall_mem_cons.1 hcustom
      rw [List.map_cons, lowers_cons_iff, List.forall₂_cons_left_iff]
      constructor
      · rintro ⟨first, rest, hfirst, hrest, rfl⟩
        obtain ⟨ids', tree', hids', htree', hgroups⟩ := (entry_themed_ok_iff hl).1 hfirst
        obtain rfl : [id] = ids' := Except.ok.inj (hid.symm.trans hids')
        obtain rfl : tree = tree' :=
          Except.ok.inj ((StyleNode.normalize_property l htree).symm.trans htree')
        obtain ⟨g, gs, hg, hgs, rfl⟩ := List.forall₂_cons_left_iff.1 hgroups
        rw [List.forall₂_nil_left_iff.1 hgs]
        exact ⟨g, rest, hg, (ih hcustom).1 hrest, rfl⟩
      · rintro ⟨g, rest, hg, hrest, rfl⟩
        refine ⟨[g], rest, ?_, (ih hcustom).2 hrest, rfl⟩
        exact (entry_themed_ok_iff hl).2
          ⟨[id], tree, hid, StyleNode.normalize_property l htree, .cons hg .nil⟩

/-- The entry of a shorthand is lowered to what the entries of its properties are. -/
theorem lowers_shorthand_iff {s : String} (hs : ¬ Css.isCustomName s) {value : StyleValue}
    {longhands : List String} {ids : List PropertyId} (hne : longhands ≠ [])
    (hcustom : ∀ l ∈ longhands, ¬ Css.isCustomName l) (hexpand : theme.expand s = .ok ids)
    (hids : List.Forall₂ (fun l id => theme.expand l = .ok [id]) longhands ids)
    {gs : List PropertyRules} :
    Lowers theme [(s, value)] gs ↔ Lowers theme (longhands.map fun l => (l, value)) gs := by
  constructor
  · intro h
    obtain ⟨first, rest, hfirst, hrest, rfl⟩ := lowers_cons_iff.1 h
    obtain ⟨ids', tree, hids', htree, hgroups⟩ := (entry_themed_ok_iff hs).1 hfirst
    obtain rfl : ids = ids' := Except.ok.inj (hexpand.symm.trans hids')
    rw [lowers_nil_iff.1 hrest, List.append_nil]
    exact (lowers_longhands_iff htree hcustom hids).2 hgroups
  · intro h
    -- one entry at least has the value in normal form, and the shorthand has the same
    obtain ⟨l, longhands, rfl⟩ := List.exists_cons_of_ne_nil hne
    obtain ⟨first, rest, hl, -, -⟩ := lowers_cons_iff.1 h
    obtain ⟨-, tree, -, htree, -⟩ :=
      (entry_themed_ok_iff (hcustom l List.mem_cons_self)).1 hl
    have hgroups := (lowers_longhands_iff htree hcustom hids).1 h
    refine lowers_cons_iff.2 ⟨gs, [], ?_, lowers_nil_iff.2 rfl, (List.append_nil gs).symm⟩
    exact (entry_themed_ok_iff hs).2
      ⟨ids, tree, hexpand, StyleNode.normalize_property s htree, hgroups⟩

end Lowering

theorem compile_congr {c : StyleCompiler} {d e : StyleDescription}
    (h : ∀ f, lower c.theme d = .ok f ↔ lower c.theme e = .ok f)
    (made : StyleCompiler × CompiledStyle) : c.compile d = .ok made ↔ c.compile e = .ok made := by
  rw [StyleCompiler.compile, StyleCompiler.compile, bind_eq_ok_iff, bind_eq_ok_iff]
  exact exists_congr fun f => and_congr_left fun _ => h f

/-- A description with a shorthand and the one that has an entry for each of its
properties instead lower to the same forest, or neither lowers. So a compiler makes
the same sheet and the same procedure of both. -/
theorem shorthand_distributes {draft : ThemeDraft} {theme : Theme}
    (hbuild : draft.build = .ok theme) {s : String} {longhands : List String}
    (hs : (s, longhands) ∈ draft.shorthands) (hcustom : ¬ Css.isCustomName s)
    (hne : longhands ≠ [])
    (hlonghands : ∀ l ∈ longhands, ¬ Css.isCustomName l ∧ l ∉ draft.shorthands.map (·.1))
    {before after : List (String × StyleValue)} {value : StyleValue} {d e : StyleDescription}
    (hd : d.entries = before ++ (s, value) :: after)
    (he : e.entries = before ++ longhands.map (fun l => (l, value)) ++ after) :
    (∀ f, lower theme d = .ok f ↔ lower theme e = .ok f) ∧
      ∀ c : StyleCompiler, c.theme = theme →
        ∀ made, c.compile d = .ok made ↔ c.compile e = .ok made := by
  obtain ⟨ids, hexpand, hids⟩ :=
    ThemeDraft.expand_longhands hbuild hs fun l hl => (hlonghands l hl).2
  have hlower : ∀ f, lower theme d = .ok f ↔ lower theme e = .ok f := by
    intro f
    rw [Lowering.lower_ok_iff_lowers, Lowering.lower_ok_iff_lowers, hd, he,
      List.append_cons]
    simp only [Lowering.lowers_append_iff, Lowering.lowers_shorthand_iff hcustom hne
      (fun l hl => (hlonghands l hl).1) hexpand hids]
  refine ⟨hlower, ?_⟩
  rintro c rfl made
  exact compile_congr hlower made

/-- The entries of `edgeTheme`. -/
def edgeDraft : ThemeDraft where
  properties := [("top", .ofNames ["0", "1"]), ("bottom", .ofNames ["0", "1"])]
  shorthands := [("edges", ["top", "bottom"])]

/-- The value of both edges: one falls back, the other is for an open panel. -/
def edgeValue : StyleValue :=
  .conditional [("isOpen", .conditional [("isWide", .literal (.text "1"))]),
    ("default", .literal (.text "0"))]

/-- The shorthand between two custom properties. -/
def joinedEdges : StyleDescription :=
  .ofList [("--before", .literal (.text "1px")), ("edges", edgeValue),
    ("--after", .literal (.text "2px"))]

/-- Its two properties in its place. -/
def listedEdges : StyleDescription :=
  .ofList [("--before", .literal (.text "1px")), ("top", edgeValue), ("bottom", edgeValue),
    ("--after", .literal (.text "2px"))]

theorem shorthand_distributes_edges :
    ∃ f, lower edgeTheme joinedEdges = .ok f ∧ lower edgeTheme listedEdges = .ok f ∧
      f.groups.map (·.name) = ["--before", "top", "bottom", "--after"] := by
  obtain ⟨h, -⟩ := @shorthand_distributes edgeDraft edgeTheme rfl "edges" ["top", "bottom"]
    List.mem_cons_self (by decide) (by decide) (by decide) [("--before", .literal (.text "1px"))]
    [("--after", .literal (.text "2px"))] edgeValue joinedEdges listedEdges rfl rfl
  exact ⟨_, (h _).2 rfl, rfl, by decide +kernel⟩

end AtomicStyles
