import AtomicStyles.Proofs.Printing

/-!
# A sheet, line by line

What a unit prints is told in lists of rules, and those lists are made beside the
sheets. `Written` ties the two: a text is written for some rules when it is lines
from its first character to its last, and its rule lines are those of the rules,
one for each, in order. All other lines declare, open or close something, and what
is in them is settled by the theme alone.

The layer of a rule can be seen in the lines as well, since a block opens its
layer before anything else. This and the rest hold of one block and carry over to
texts that are put one after the other: the blocks of a sheet, and later the
sheets of a unit.
-/

namespace AtomicStyles

namespace Sheet

/-- A line of a sheet. The layers are declared in the first one. -/
inductive Line where
  | layers
  | layer (condition : Option ConditionId)
  | prelude (level : Nat) (id : ConditionId)
  | rule (r : ClassRule)
  | closing (level : Nat)

namespace Line

/-- The text of a line. A rule stands one level deeper than its last condition. -/
def text (theme : Theme) : Line → String
  | layers => "@layer " ++ ", ".intercalate theme.layerNames ++ ";\n"
  | layer condition => "@layer " ++ layerName condition ++ " \x7b\n"
  | prelude level id => indent level ++ (theme.prelude? id).getD "" ++ " \x7b\n"
  | rule r =>
      indent (r.conditions.length + 1) ++ "." ++ String.ofList (Css.identifier r.token.toList)
        ++ " \x7b"
        ++ String.join (r.declarations.map fun d => " " ++ d.property ++ ": " ++ d.value ++ ";")
        ++ " \x7d\n"
  | closing level => indent level ++ "\x7d\n"

def rule? : Line → Option ClassRule
  | rule r => some r
  | _ => none

def layer? : Line → Option (Option ConditionId)
  | layer condition => some condition
  | _ => none

/-- The layer that was opened last before a rule is that of its highest
condition. -/
def Layered (lines : List Line) : Prop :=
  ∀ before r after, lines = before ++ rule r :: after →
    (before.filterMap layer?).getLast? = some r.conditions.getLast?

theorem mem_rules {lines : List Line} {r : ClassRule} :
    r ∈ lines.filterMap rule? ↔ rule r ∈ lines := by
  rw [List.mem_filterMap]
  constructor
  · rintro ⟨line, hline, hrule⟩
    cases line with
    | rule s =>
        obtain rfl := Option.some.inj hrule
        exact hline
    | layers => cases hrule
    | layer condition => cases hrule
    | prelude level id => cases hrule
    | closing level => cases hrule
  · intro h
    exact ⟨rule r, h, rfl⟩

theorem Layered.of_no_rules {lines : List Line} (h : lines.filterMap rule? = []) :
    Layered lines := by
  intro before r after hsplit
  have hr : r ∈ lines.filterMap rule? := mem_rules.2 (by simp [hsplit])
  rw [h] at hr
  cases hr

theorem Layered.append {xs ys : List Line} (hx : Layered xs) (hy : Layered ys) :
    Layered (xs ++ ys) := by
  intro before r after h
  rcases List.append_eq_append_iff.1 h with ⟨more, rfl, hys⟩ | ⟨more, hxs, hmore⟩
  · rw [List.filterMap_append, List.getLast?_append, hy more r after hys]
    rfl
  · cases more with
    | nil =>
        -- the rule would be the first line of `ys`, before any layer
        have hnone := hy [] r after hmore.symm
        cases hnone
    | cons line more =>
        obtain ⟨rfl, -⟩ := List.cons.inj hmore
        exact hx before r more hxs

end Line

/-- The text is lines of a sheet, and the rules in it are these, in this order. -/
def Written (theme : Theme) (css : String) (rules : List ClassRule) : Prop :=
  ∃ lines : List Line, css = String.join (lines.map (Line.text theme)) ∧
    lines.filterMap Line.rule? = rules ∧ Line.Layered lines

section

variable {theme : Theme}

theorem Written.nil : Written theme "" [] :=
  ⟨[], rfl, rfl, .of_no_rules rfl⟩

theorem Written.append {css css' : String} {rules rules' : List ClassRule}
    (h : Written theme css rules) (h' : Written theme css' rules') :
    Written theme (css ++ css') (rules ++ rules') := by
  obtain ⟨lines, rfl, rfl, hlayered⟩ := h
  obtain ⟨lines', rfl, rfl, hlayered'⟩ := h'
  refine ⟨lines ++ lines', ?_, ?_, hlayered.append hlayered'⟩
  · rw [List.map_append, String.join_append]
  · rw [List.filterMap_append]

theorem Written.join {α : Type} {parts : List α} {css : α → String}
    {rules : α → List ClassRule} (h : ∀ p ∈ parts, Written theme (css p) (rules p)) :
    Written theme (String.join (parts.map css)) (parts.flatMap rules) := by
  induction parts with
  | nil => exact Written.nil
  | cons p ps ih =>
      obtain ⟨hp, hps⟩ := List.forall_mem_cons.1 h
      rw [List.map_cons, String.join_cons, List.flatMap_cons]
      exact hp.append (ih hps)

/-- The line of a rule stands in every text that is written for it. -/
theorem Written.holds_rule {css : String} {rules : List ClassRule} (h : Written theme css rules)
    {r : ClassRule} (hr : r ∈ rules) :
    ∃ before after, css = before ++ (Line.rule r).text theme ++ after := by
  obtain ⟨lines, rfl, rfl, -⟩ := h
  exact join_split (List.mem_map_of_mem (Line.mem_rules.1 hr))

end

/-! ## The lines of a block -/

def openingLines (level : Nat) (conditions : List ConditionId) : List Line :=
  (conditions.zipIdx level).map fun p => .prelude p.2 p.1

def closingLines (count : Nat) : List Line :=
  (List.range count).reverse.map fun level => .closing (level + 1)

theorem join_openingLines (theme : Theme) (level : Nat) (conditions : List ConditionId) :
    String.join ((openingLines level conditions).map (Line.text theme)) =
      openings theme level conditions := by
  induction conditions generalizing level with
  | nil => rfl
  | cons id ids ih =>
      rw [openingLines, List.zipIdx_cons, List.map_cons, List.map_cons, String.join_cons, openings,
        ← ih]
      rfl

theorem join_closingLines (theme : Theme) (count : Nat) :
    String.join ((closingLines count).map (Line.text theme)) = closings count := by
  induction count with
  | zero => rfl
  | succ count ih =>
      rw [closingLines, List.range_succ, List.reverse_append, List.reverse_singleton,
        List.singleton_append, List.map_cons, List.map_cons, String.join_cons, closings, ← ih]
      rfl

theorem Line.text_rule (theme : Theme) (r : ClassRule) :
    (rule r).text theme = ruleText (r.conditions.length + 1) r := by
  rw [text, ruleText]
  simp only [Css.Declaration.text, String.append_assoc]

namespace Block

/-- The lines of a block behind the one that opens its layer. -/
def innerLines (b : Block) : List Line :=
  openingLines 1 b.conditions ++ b.rules.map Line.rule ++ closingLines b.conditions.length
    ++ [.closing 0]

variable {b : Block}

/-- What is collected from these lines is collected from their rules. -/
theorem filterMap_innerLines {α : Type} (f : Line → Option α)
    (hopen : ∀ level id, f (.prelude level id) = none)
    (hclose : ∀ level, f (.closing level) = none) :
    b.innerLines.filterMap f = b.rules.filterMap fun r => f (.rule r) := by
  have hopening : (openingLines 1 b.conditions).filterMap f = [] := by
    rw [openingLines, List.filterMap_map]
    exact List.filterMap_eq_nil_iff.2 fun p _ => hopen p.2 p.1
  have hclosing : (closingLines b.conditions.length).filterMap f = [] := by
    rw [closingLines, List.filterMap_map]
    exact List.filterMap_eq_nil_iff.2 fun level _ => hclose (level + 1)
  have hlast : [Line.closing 0].filterMap f = [] := by
    rw [List.filterMap_cons_none (hclose 0), List.filterMap_nil]
  rw [innerLines]
  simp only [List.filterMap_append, hopening, hclosing, hlast, List.nil_append, List.append_nil,
    List.filterMap_map]
  rfl

theorem rules_innerLines : b.innerLines.filterMap Line.rule? = b.rules := by
  rw [filterMap_innerLines Line.rule? (fun _ _ => rfl) fun _ => rfl]
  exact List.filterMap_some

theorem layers_innerLines : b.innerLines.filterMap Line.layer? = [] := by
  rw [filterMap_innerLines Line.layer? (fun _ _ => rfl) fun _ => rfl]
  exact List.filterMap_eq_nil_iff.2 fun _ _ => rfl

theorem join_innerLines (theme : Theme) (h : ∀ r ∈ b.rules, r.conditions = b.conditions) :
    String.join (b.innerLines.map (Line.text theme)) = b.inner theme := by
  have hrules : b.rules.map (Line.text theme ∘ Line.rule) =
      b.rules.map (ruleText (b.conditions.length + 1)) := by
    refine List.map_congr_left fun r hr => ?_
    rw [Function.comp_apply, Line.text_rule, h r hr]
  have hclose : (Line.closing 0).text theme = "\x7d\n" := rfl
  rw [innerLines, inner]
  simp only [List.map_append, String.join_append, join_openingLines, join_closingLines,
    List.map_map, hrules, List.map_singleton, hclose, String.join_cons, String.join_nil,
    String.append_empty]

/-- In a block all rules stand in the layer that its first line opens. -/
theorem layered (h : ∀ r ∈ b.rules, r.conditions = b.conditions) :
    Line.Layered (.layer b.conditions.getLast? :: b.innerLines) := by
  intro before r after hsplit
  cases before with
  | nil => cases hsplit
  | cons line before =>
      obtain rfl := (List.cons.inj hsplit).1
      have hinner : b.innerLines = before ++ Line.rule r :: after := (List.cons.inj hsplit).2
      have hr : r ∈ b.rules := by
        rw [← rules_innerLines, Line.mem_rules, hinner]
        exact List.mem_append_right before List.mem_cons_self
      have hnone : before.filterMap Line.layer? = [] := by
        have hlayers := layers_innerLines (b := b)
        rw [hinner, List.filterMap_append] at hlayers
        exact (List.append_eq_nil_iff.1 hlayers).1
      rw [List.filterMap_cons, hnone, h r hr]
      rfl

theorem written (theme : Theme) (h : ∀ r ∈ b.rules, r.conditions = b.conditions) :
    Written theme (b.text theme) b.rules := by
  refine ⟨.layer b.conditions.getLast? :: b.innerLines, ?_, ?_, layered h⟩
  · rw [List.map_cons, String.join_cons, join_innerLines theme h, Block.text_eq]
    rfl
  · exact rules_innerLines

end Block

/-- A sheet is written for its rules. -/
theorem written_text (theme : Theme) (rules : List ClassRule) :
    Written theme (text theme rules) (printed rules) := by
  by_cases h : rules = []
  · subst h
    exact Written.nil
  · have hlayers : Written theme (theme.layerDeclaration ++ "\n") [] := by
      refine ⟨[.layers], ?_, rfl, .of_no_rules rfl⟩
      rw [List.map_singleton, String.join_cons, String.join_nil, String.append_empty,
        Theme.layerDeclaration, String.append_assoc]
      rfl
    rw [text_of_ne_nil theme h]
    have hbody : Written theme (body theme rules) (printed rules) :=
      Written.join fun b hb => Block.written theme (blocks_conditions rules b hb)
    exact hlayers.append hbody

end Sheet

end AtomicStyles
