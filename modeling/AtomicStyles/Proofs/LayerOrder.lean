import Mathlib.Data.List.MinMax
import AtomicStyles.Proofs.BracketedValue
import AtomicStyles.Proofs.BuiltTheme
import AtomicStyles.Proofs.Cascade
import AtomicStyles.Proofs.UnitBoundaries

/-!
# Layers in the order of the conditions

The layers of a page are ordered by the sheet that is loaded first, and no sheet
knows which one that is. So each sheet declares all layers of the theme, and the
rules of different sheets are comparable although the units that wrote them have
never met.

Nothing here looks at what has been printed before. A block is named for the
last of its conditions, which is the greatest because the conditions of a class
ascend, and the names are declared in the order of the conditions. The position
of a name in the declaration is therefore an ordinal, or zero for the base
layer, and comparing positions is comparing greatest conditions.
-/

namespace AtomicStyles

/-! ## Reading the declaration -/

/-- The layers that a sheet declares at its start, in order. -/
def declaredLayers? (css : String) : Option (List String) := do
  let rest ← css.toList.dropPrefix? "@layer ".toList
  match rest.span fun c => c != ';' && c != '\x7b' with
  | (names, ';' :: _) =>
      return (names.splitOn ',').map fun name => String.ofList (Text.trim name)
  | _ => none

theorem isUnitChar_layerName (condition : Option ConditionId) :
    ∀ c ∈ (layerName condition).toList, Code.isUnitChar c := by
  intro c hc
  rw [layerName.eq_def, String.toList_append] at hc
  rcases List.mem_append.1 hc with hc | hc
  · rw [List.mem_singleton.1 hc]
    decide
  · cases condition with
    | none => cases hc
    | some id =>
        rw [String.toList_ofList] at hc
        exact Code.unit_isUnitChar (.indexed id) c hc

theorem Theme.isUnitChar_layerNames {theme : Theme} {name : String}
    (h : name ∈ theme.layerNames) : ∀ c ∈ name.toList, Code.isUnitChar c := by
  rcases List.mem_cons.1 h with rfl | h
  · exact isUnitChar_layerName none
  · obtain ⟨id, -, rfl⟩ := List.mem_map.1 h
    exact isUnitChar_layerName (some id)

theorem forall_mem_intercalate {P : Char → Prop} {separator : String} {names : List String}
    (hseparator : ∀ c ∈ separator.toList, P c) (h : ∀ name ∈ names, ∀ c ∈ name.toList, P c) :
    ∀ c ∈ (separator.intercalate names).toList, P c := by
  induction names with
  | nil => simp
  | cons name names ih =>
      obtain ⟨hname, hnames⟩ := List.forall_mem_cons.1 h
      cases names with
      | nil => rwa [String.intercalate_singleton]
      | cons next names =>
          rw [String.intercalate_cons_cons, String.toList_append, String.toList_append]
          simp only [List.forall_mem_append]
          exact ⟨⟨hname, hseparator⟩, ih hnames⟩

/-- The names between `@layer` and the semicolon are written in few characters. -/
theorem Theme.mem_layerNames_text (theme : Theme) :
    ∀ c ∈ (", ".intercalate theme.layerNames).toList,
      Code.isUnitChar c ∨ c = ',' ∨ c = ' ' :=
  forall_mem_intercalate (by simp) fun _ hname c hc =>
    .inl (Theme.isUnitChar_layerNames hname c hc)

/-- The space that follows a comma can be taken for the start of the next text. -/
theorem intercalate_comma_space (first : List Char) (texts : List (List Char)) :
    [',', ' '].intercalate (first :: texts) =
      [','].intercalate (first :: texts.map (' ' :: ·)) := by
  induction texts generalizing first with
  | nil => rfl
  | cons text texts ih =>
      rw [List.map_cons, List.intercalate_cons_cons, List.intercalate_cons_cons, ih]
      cases texts with
      | nil => simp [List.intercalate]
      | cons next texts =>
          rw [List.map_cons, List.intercalate_cons_cons, List.intercalate_cons_cons]
          simp

theorem trim_of_isUnitChar {name : List Char} (h : ∀ c ∈ name, Code.isUnitChar c) :
    Text.trim name = name :=
  Text.trim_eq_self (fun _ hc => Code.not_isBlank_of_isUnitChar (h _ (List.mem_of_mem_head? hc)))
    fun _ hc => Code.not_isBlank_of_isUnitChar (h _ (List.mem_of_mem_getLast? hc))

/-- A space before a name is not part of it. -/
theorem trim_space_cons (cs : List Char) : Text.trim (' ' :: cs) = Text.trim cs := rfl

/-- Names without separators are read as they were written. -/
theorem names_of_splitOn {names : List String}
    (h : ∀ name ∈ names, ∀ c ∈ name.toList, Code.isUnitChar c) (hne : names ≠ []) :
    (((", ".intercalate names).toList.splitOn ',').map fun name =>
      String.ofList (Text.trim name)) = names := by
  -- all names but the first are read with the space that follows their comma
  obtain ⟨first, names, rfl⟩ := List.exists_cons_of_ne_nil hne
  obtain ⟨hfirst, hnames⟩ := List.forall_mem_cons.1 h
  have hcomma {name : List Char} (hname : ∀ c ∈ name, Code.isUnitChar c) : ',' ∉ name :=
    fun hmem => absurd (hname ',' hmem) (by decide)
  have hsplit : (", ".intercalate (first :: names)).toList.splitOn ',' =
      first.toList :: (names.map String.toList).map (' ' :: ·) := by
    rw [String.toList_intercalate, List.map_cons]
    show List.splitOn ',' ([',', ' '].intercalate _) = _
    rw [intercalate_comma_space, List.splitOn_intercalate _ _ (List.cons_ne_nil _ _)]
    refine List.forall_mem_cons.2 ⟨hcomma hfirst, ?_⟩
    simp only [List.map_map, List.mem_map]
    rintro _ ⟨name, hname, rfl⟩
    exact List.not_mem_cons_of_ne_of_not_mem (by decide) (hcomma (hnames name hname))
  rw [hsplit, List.map_cons, trim_of_isUnitChar hfirst, String.ofList_toList, List.map_map,
    List.map_map]
  refine congrArg (first :: ·) ((List.map_congr_left fun name hname => ?_).trans (List.map_id _))
  simp only [Function.comp_apply, trim_space_cons]
  rw [trim_of_isUnitChar (hnames name hname), String.ofList_toList]
  rfl

/-- A declaration of layers is read as the layers of the theme, whatever
follows. -/
theorem declaredLayers?_layerDeclaration (theme : Theme) (rest : String) :
    declaredLayers? (theme.layerDeclaration ++ rest) = some theme.layerNames := by
  let names := ", ".intercalate theme.layerNames
  have htext : (theme.layerDeclaration ++ rest).toList =
      "@layer ".toList ++ (names.toList ++ ';' :: rest.toList) := by
    simp [Theme.layerDeclaration, names]
  have hinner : ∀ c ∈ names.toList, (c != ';' && c != '\x7b') = true := by
    intro c hc
    rcases theme.mem_layerNames_text c hc with hunit | rfl | rfl
    · have hne {d : Char} (hd : Code.isUnitChar d = false) : (c != d) = true :=
        bne_iff_ne.2 fun heq => by rw [heq, hd] at hunit; cases hunit
      rw [hne (by decide), hne (by decide)]
      rfl
    · decide
    · decide
  have hspan : (names.toList ++ ';' :: rest.toList).span (fun c => c != ';' && c != '\x7b') =
      (names.toList, ';' :: rest.toList) := by
    rw [List.span_eq_takeWhile_dropWhile, List.takeWhile_append_of_pos hinner,
      List.dropWhile_append_of_pos hinner]
    simp
  rw [declaredLayers?, htext, List.dropPrefix?_append_of_beq _ (by simp)]
  show (match List.span _ _ with
    | (names, ';' :: _) => _
    | _ => none) = _
  rw [hspan]
  exact congrArg some (names_of_splitOn (fun name => Theme.isUnitChar_layerNames)
    (List.cons_ne_nil _ _))

/-! ## Conditions and positions -/

/-- The greatest member of an ascending list is its last. -/
theorem maximum_of_ascending {ids : List ConditionId} (h : ids.Pairwise (· < ·)) :
    ids.maximum = ids.getLast?.elim ⊥ WithBot.some := by
  cases ids using List.reverseRecOn with
  | nil => rfl
  | append_singleton ids id =>
      obtain ⟨-, -, hlast⟩ := List.pairwise_append.1 h
      rw [List.getLast?_concat, List.maximum_concat]
      refine max_eq_right (List.maximum_le_of_forall_le fun a ha => ?_)
      exact WithBot.coe_le_coe.2 (Nat.le_of_lt (hlast a ha id (List.mem_singleton_self id)))

/-- Positions compare as conditions do, with the base layer below all others. -/
theorem position_lt_iff {a b : Option ConditionId} :
    (a.map (· + 1)).getD 0 < (b.map (· + 1)).getD 0 ↔
      a.elim ⊥ WithBot.some < b.elim (⊥ : WithBot ConditionId) WithBot.some := by
  cases a with
  | none => cases b <;> simp
  | some a =>
      cases b with
      | none => simp
      | some b => simp [WithBot.coe_lt_coe]

/-! ## What an emitter writes -/

/-- The name of the layer that a block opens. -/
def Sheet.Block.layer (b : Block) : String :=
  layerName b.conditions.getLast?

/-- What an emitter writes for a style of the theme. It may have written anything
before. -/
structure Output (theme : Theme) where
  emitter : CssEmitter
  style : StyleDescription
  forest : RuleForest
  lowered : lower theme style = .ok forest

namespace Output

variable {theme : Theme}

/-- The text of the sheet. -/
def css (o : Output theme) : String :=
  (o.emitter.emit theme o.forest).2

/-- The blocks of the sheet. -/
def blocks (o : Output theme) : List Sheet.Block :=
  Sheet.blocks (o.emitter.fresh o.forest.classes).2

theorem css_of_ne_empty {o : Output theme} (h : o.css ≠ "") :
    o.css = theme.layerDeclaration ++
      ("\n" ++ String.join (o.blocks.map (Sheet.Block.text theme))) := by
  have hrules : (o.emitter.fresh o.forest.classes).2 ≠ [] := fun hnil =>
    h (Sheet.text_eq_empty_iff.2 hnil)
  rw [← String.append_assoc]
  exact Sheet.text_of_ne_nil theme hrules

variable {o : Output theme} {b : Sheet.Block} (hb : b ∈ o.blocks)
include hb

/-- A block has the conditions of a class of the forest. -/
theorem exists_class_of_block : ∃ r ∈ o.forest.classes, b.conditions = r.conditions := by
  obtain ⟨r, hr, hconditions⟩ := Sheet.exists_rule_of_block hb
  exact ⟨r, (CssEmitter.fresh_sublist _ _).subset hr, hconditions⟩

theorem block_ascending : b.conditions.Pairwise (· < ·) := by
  obtain ⟨r, hr, hconditions⟩ := exists_class_of_block hb
  obtain ⟨s, -, hfrom⟩ := Lowering.mem_classes_lowered o.lowered hr
  rw [hconditions]
  exact hfrom.conditions_ascending

theorem block_inRange (ht : theme.InRange) :
    ∀ id ∈ b.conditions.getLast?, id < theme.preludes.length := by
  obtain ⟨r, hr, hconditions⟩ := exists_class_of_block hb
  intro id hid
  exact ht.classes o.lowered r hr id (hconditions ▸ List.mem_of_mem_getLast? hid)

theorem layer_mem (ht : theme.InRange) : b.layer ∈ theme.layerNames := by
  have hrange := block_inRange hb ht
  rw [Sheet.Block.layer]
  cases hlast : b.conditions.getLast? with
  | none => exact List.mem_cons_self
  | some id =>
      have hid : id ∈ List.range theme.preludes.length := List.mem_range.2 (hrange id hlast)
      exact List.mem_cons_of_mem _ (List.mem_map_of_mem hid)

/-- The greatest condition of a rule is the last of its block. -/
theorem maximum_of_rule {r : ClassRule} (hr : r ∈ b.rules) :
    r.conditions.maximum = b.conditions.getLast?.elim ⊥ WithBot.some := by
  rw [Sheet.blocks_conditions _ b hb r hr]
  exact maximum_of_ascending (block_ascending hb)

end Output

/-- The layers of a theme are declared once each, in every sheet, and before its
blocks. Each block opens one of them. Of two rules in any two sheets of the
theme, that with the smaller greatest condition is in the layer that every sheet
declares earlier; a rule without conditions has the greatest condition `⊥`. -/
theorem layers_follow_conditions {draft : ThemeDraft} {theme : Theme}
    (h : draft.build = .ok theme) :
    theme.layerNames.Nodup ∧
    declaredLayers? theme.layerDeclaration = some theme.layerNames ∧
    (∀ o : Output theme, o.css ≠ "" →
      declaredLayers? o.css = some theme.layerNames ∧
      o.css = theme.layerDeclaration ++
        ("\n" ++ String.join (o.blocks.map (Sheet.Block.text theme)))) ∧
    (∀ o : Output theme, ∀ b ∈ o.blocks,
      b.layer ∈ theme.layerNames ∧
      b.text theme = "@layer " ++ b.layer ++ " \x7b\n" ++ b.inner theme ∧
      ∀ r ∈ b.rules, ∃ before after,
        b.inner theme = before ++ Sheet.ruleText (b.conditions.length + 1) r ++ after) ∧
    ∀ o o' : Output theme, ∀ b ∈ o.blocks, ∀ b' ∈ o'.blocks, ∀ r ∈ b.rules, ∀ r' ∈ b'.rules,
      ∀ seen : Output theme, ∀ names, declaredLayers? seen.css = some names →
        (names.idxOf b.layer < names.idxOf b'.layer ↔
          r.conditions.maximum < r'.conditions.maximum) := by
  have ht := Theme.inRange_build h
  have hdeclared (o : Output theme) (hcss : o.css ≠ "") :
      declaredLayers? o.css = some theme.layerNames := by
    rw [Output.css_of_ne_empty hcss]
    exact declaredLayers?_layerDeclaration theme _
  refine ⟨theme.layerNames_nodup, ?_, ?_, ?_, ?_⟩
  · have hread := declaredLayers?_layerDeclaration theme ""
    rwa [String.append_empty] at hread
  · exact fun o hcss => ⟨hdeclared o hcss, Output.css_of_ne_empty hcss⟩
  · exact fun o b hb => ⟨Output.layer_mem hb ht, Sheet.Block.text_eq theme b,
      fun r hr => Sheet.Block.inner_holds_rule theme hr⟩
  · intro o o' b hb b' hb' r hr r' hr' seen names hnames
    -- an empty sheet declares nothing, so the sheet that is read is not empty
    have hseen : seen.css ≠ "" := by
      intro hempty
      rw [hempty] at hnames
      cases hnames
    obtain rfl : theme.layerNames = names :=
      Option.some.inj ((hdeclared seen hseen).symm.trans hnames)
    rw [Output.maximum_of_rule hb hr, Output.maximum_of_rule hb' hr', ← position_lt_iff,
      ← Theme.idxOf_layerName (Output.block_inRange hb ht),
      ← Theme.idxOf_layerName (Output.block_inRange hb' ht)]
    exact Iff.rfl

/-- A rule under `wide` alone, written by one emitter, and a rule under `dark` and
`hover`, written by another. -/
theorem layers_follow_conditions_small :
    ∃ o o' : Output smallTheme, ∃ b ∈ o.blocks, ∃ b' ∈ o'.blocks,
      smallDraft.build = .ok smallTheme ∧
      o.emitter.printed ≠ o'.emitter.printed ∧
      b.rules.map (·.conditions) = [[1]] ∧ b'.rules.map (·.conditions) = [[0, 2]] ∧
      declaredLayers? o'.css = some ["_", "_a", "_b", "_c"] ∧
      ["_", "_a", "_b", "_c"].idxOf b.layer < ["_", "_a", "_b", "_c"].idxOf b'.layer := by
  let o : Output smallTheme :=
    ⟨⟨["aa"]⟩, .ofList [("display", .conditional [("wide", .literal (.text "flex"))])], _, rfl⟩
  let o' : Output smallTheme :=
    ⟨.empty, .ofList [("display", .conditional
      [("hover", .conditional [("dark", .literal (.text "block"))])])], _, rfl⟩
  obtain ⟨b, hb, r, hr, hrules, hconditions⟩ : ∃ b ∈ o.blocks, ∃ r ∈ b.rules,
      b.rules.map (·.conditions) = [[1]] ∧ r.conditions = [1] :=
    ⟨_, List.mem_cons_self, _, List.mem_cons_self, rfl, rfl⟩
  obtain ⟨b', hb', r', hr', hrules', hconditions'⟩ : ∃ b ∈ o'.blocks, ∃ r ∈ b.rules,
      b.rules.map (·.conditions) = [[0, 2]] ∧ r.conditions = [0, 2] :=
    ⟨_, List.mem_cons_self, _, List.mem_cons_self, rfl, rfl⟩
  obtain ⟨-, -, hsheets, -, horder⟩ := layers_follow_conditions smallDraft_build
  have hdeclared : declaredLayers? o'.css = some ["_", "_a", "_b", "_c"] :=
    (hsheets o' (by decide +kernel)).1
  refine ⟨o, o', b, hb, b', hb', smallDraft_build, by decide, hrules, hrules', hdeclared, ?_⟩
  refine (horder o o' b hb b' hb' r hr r' hr' o' _ hdeclared).2 ?_
  rw [hconditions, hconditions']
  decide

end AtomicStyles
