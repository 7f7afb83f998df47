import Mathlib.Data.Finset.Sort
import AtomicStyles.Selection.Procedure
import AtomicStyles.Style.Lowering

/-!
# What a description means

The meaning of a description under a render state, read off the description
itself. Nothing is built on the way: the interpreter stands at one object of
the description, looks which key the state satisfies, and goes on from there.
Compilation is a chain of three passes over three kinds of trees, and
`SelectedMeaning.lean` shows that what comes out of the chain is this.

An object offers ways to go on, one for each key and one for each tag of a
variant. The first way in declared order that the state satisfies is followed
alone. It takes along the fallback and the theme-condition values in sight,
those of the nearest object first. When the state satisfies none, all values
that no state decides are followed, the object's own and then those it was
handed, and these take nothing along.

An object is left for a part of it or for a value it was handed, so the sizes
of the value and of what is handed to it bound the recursion together.
-/

namespace AtomicStyles

/-- Whether a state satisfies the condition of a branch. No state satisfies a
fallback or a theme condition. -/
def BranchCondition.holds (state : RenderState) : BranchCondition → Bool
  | .flag name => state.isSet name
  | .variant name tag => state.isVariant name tag
  | _ => false

/-- Whether the renderer decides the branch. -/
def BranchCondition.isTheme : BranchCondition → Bool
  | .theme _ => true
  | _ => false

/-- The active theme conditions inside the branch. -/
def BranchCondition.enter (active : Finset ConditionId) : BranchCondition → Finset ConditionId
  | .theme id => insert id active
  | _ => active

mutual

/-- The number of objects, entries and literals in a value. -/
def StyleValue.size : StyleValue → Nat
  | .literal _ => 1
  | .conditional entries => 1 + StyleValue.entriesSize entries

/-- The number of objects, entries and literals in the entries of an object. -/
def StyleValue.entriesSize : List (String × StyleValue) → Nat
  | [] => 0
  | (_, value) :: es => 1 + value.size + StyleValue.entriesSize es

end

namespace Meaning

open Lowering (Target)

/-- A way to go on from an object: how it is decided and where it leads. -/
abbrev Way := BranchCondition × StyleValue

/-- How the value under a tag of a variant is decided. The tag `default` is the
fallback of the object. -/
def tagCondition (name tag : String) : BranchCondition :=
  if tag = "default" then .fallback else .variant name tag

/-- The ways that one entry of an object offers. A variant offers one for each
tag. -/
def entryWays (theme : Theme) (key : String) (value : StyleValue) : List Way :=
  if key = "default" then [(.fallback, value)]
  else
    match theme.condition? key with
    | some (.theme id) => [(.theme id, value)]
    | some .runtime => [(.flag key, value)]
    | none =>
        if isFlagName key then [(.flag key, value)]
        else
          match value with
          | .conditional tags =>
              tags.map fun t => (tagCondition key t.1, t.2)
          | .literal _ => []

/-- The ways that an object offers, in declared order. -/
def ways (theme : Theme) (entries : List (String × StyleValue)) : List Way :=
  entries.flatMap fun e => entryWays theme e.1 e.2

/-- The ways of an object that no state decides: its fallback and then its
theme-condition values. This is what it hands down. -/
def declared (own : List Way) : List Way :=
  (own.find? fun w => w.1 = .fallback).toList ++ own.filter fun w => w.1.isTheme

/-- The part of what is handed to an object that it does not declare itself. -/
def undeclared (own inherited : List Way) : List Way :=
  inherited.filter fun w => (declared own).all fun o => o.1 != w.1

/-- What an object hands down to the values that the state decides. The nearest
declaration of a condition hides those further out. -/
def handedDown (own inherited : List Way) : List Way :=
  declared own ++ undeclared own inherited

/-- The ways to follow when the state satisfies none: the object's own in
declared order and then those that it was handed. -/
def undecided (own inherited : List Way) : List Way :=
  (own.filter fun w => !w.1.isDynamic) ++ undeclared own inherited

/-- What a literal contributes: the property unit, the units of the active
conditions in ascending order, and the unit of the value. -/
def literalClasses (target : Target) (active : Finset ConditionId) (value : Literal) :
    List String :=
  match target.resolve value with
  | .ok resolved =>
      [String.ofList
        (target.unit ++ (active.sort (· ≤ ·)).flatMap Code.ordinalUnit ++ resolved.fragment.unit)]
  | .error _ => []

/-- The size of several ways together. -/
def waysSize : List Way → Nat
  | [] => 0
  | w :: ws => 1 + w.2.size + waysSize ws

@[simp] theorem waysSize_nil : waysSize [] = 0 := rfl

@[simp] theorem waysSize_cons (w : Way) (ws : List Way) :
    waysSize (w :: ws) = 1 + w.2.size + waysSize ws := rfl

@[simp] theorem waysSize_append (ws vs : List Way) :
    waysSize (ws ++ vs) = waysSize ws + waysSize vs := by
  induction ws with
  | nil => simp
  | cons w ws ih =>
      rw [List.cons_append, waysSize_cons, waysSize_cons, ih]
      omega

theorem waysSize_filter_le (p : Way → Bool) (ws : List Way) :
    waysSize (ws.filter p) ≤ waysSize ws := by
  induction ws with
  | nil => simp
  | cons w ws ih =>
      rw [List.filter_cons, waysSize_cons]
      split
      · rw [waysSize_cons]
        omega
      · omega

theorem size_lt_waysSize {w : Way} {ws : List Way} (h : w ∈ ws) : w.2.size < waysSize ws := by
  induction ws with
  | nil => cases h
  | cons v ws ih =>
      rw [waysSize_cons]
      rcases List.mem_cons.1 h with rfl | h
      · omega
      · have := ih h
        omega

/-- The fallback, the theme-condition values and the ways that the state decides
do not overlap. -/
theorem waysSize_kinds_le (ws : List Way) :
    waysSize (ws.find? fun w => w.1 = .fallback).toList
      + waysSize (ws.filter fun w => w.1.isTheme)
      + waysSize (ws.filter fun w => w.1.isDynamic) ≤ waysSize ws := by
  induction ws with
  | nil => simp
  | cons w ws ih =>
      obtain ⟨c, value⟩ := w
      cases c with
      | fallback =>
          simp [BranchCondition.isTheme, BranchCondition.isDynamic] at ih ⊢
          omega
      | theme id =>
          simp [BranchCondition.isTheme, BranchCondition.isDynamic] at ih ⊢
          omega
      | flag name =>
          simp [BranchCondition.isTheme, BranchCondition.isDynamic] at ih ⊢
          omega
      | variant name tag =>
          simp [BranchCondition.isTheme, BranchCondition.isDynamic] at ih ⊢
          omega

/-- So a way that is followed and what it takes along fit into the object and
what was handed to it. -/
theorem waysSize_handedDown_lt {own : List Way} {w : Way} (hw : w ∈ own)
    (hd : w.1.isDynamic) (inherited : List Way) :
    w.2.size + waysSize (handedDown own inherited) < waysSize own + waysSize inherited := by
  have hlt : w.2.size < waysSize (own.filter fun w => w.1.isDynamic) :=
    size_lt_waysSize (List.mem_filter.2 ⟨hw, hd⟩)
  have hkinds := waysSize_kinds_le own
  have htaken : waysSize (undeclared own inherited) ≤ waysSize inherited :=
    waysSize_filter_le _ inherited
  rw [handedDown, declared, waysSize_append, waysSize_append]
  omega

theorem waysSize_undecided_le (own inherited : List Way) :
    waysSize (undecided own inherited) ≤ waysSize own + waysSize inherited := by
  have hown := waysSize_filter_le (fun w => !w.1.isDynamic) own
  have htaken : waysSize (undeclared own inherited) ≤ waysSize inherited :=
    waysSize_filter_le _ inherited
  rw [undecided, waysSize_append]
  omega

theorem waysSize_tags (name : String) (tags : List (String × StyleValue)) :
    waysSize (tags.map fun t => (tagCondition name t.1, t.2)) = StyleValue.entriesSize tags := by
  induction tags with
  | nil => rfl
  | cons t ts ih =>
      rw [List.map_cons, waysSize_cons, ih]
      rfl

theorem waysSize_entryWays_le (theme : Theme) (key : String) (value : StyleValue) :
    waysSize (entryWays theme key value) ≤ 1 + value.size := by
  unfold entryWays
  split
  · simp
  · split
    · simp
    · simp
    · split
      · simp
      · split
        · rw [waysSize_tags, StyleValue.size]
          omega
        · simp

theorem waysSize_ways_le (theme : Theme) (entries : List (String × StyleValue)) :
    waysSize (ways theme entries) ≤ StyleValue.entriesSize entries := by
  induction entries with
  | nil => simp [ways, StyleValue.entriesSize]
  | cons e es ih =>
      have hhead := waysSize_entryWays_le theme e.1 e.2
      have hrest : waysSize (ways theme (e :: es)) =
          waysSize (entryWays theme e.1 e.2) + waysSize (ways theme es) := by
        simp [ways]
      rw [hrest, StyleValue.entriesSize]
      omega

theorem isDynamic_of_holds {state : RenderState} {c : BranchCondition} (h : c.holds state) :
    c.isDynamic := by
  cases c with
  | fallback => simp [BranchCondition.holds] at h
  | theme id => simp [BranchCondition.holds] at h
  | flag name => rfl
  | variant name tag => rfl

mutual

/-- The classes reached from a value under a state, inside the active theme
conditions and with what enclosing objects hand down. -/
def follow (theme : Theme) (state : RenderState) (target : Target)
    (active : Finset ConditionId) (value : StyleValue) (inherited : List Way) : List String :=
  match value with
  | .literal l => literalClasses target active l
  | .conditional entries =>
      match _h : (ways theme entries).find? fun w => w.1.holds state with
      | some w =>
          follow theme state target active w.2 (handedDown (ways theme entries) inherited)
      | none =>
          followAll theme state target active (undecided (ways theme entries) inherited)
termination_by (value.size + waysSize inherited, 0)
decreasing_by
  · have hown := waysSize_ways_le theme entries
    have hholds : w.1.holds state = true := by simpa using List.find?_some _h
    have hlt := waysSize_handedDown_lt (List.mem_of_find?_eq_some _h)
      (isDynamic_of_holds hholds) inherited
    rw [Prod.lex_def, StyleValue.size]
    left
    dsimp only
    omega
  · have hown := waysSize_ways_le theme entries
    have hle := waysSize_undecided_le (ways theme entries) inherited
    rw [Prod.lex_def, StyleValue.size]
    left
    dsimp only
    omega

/-- The classes reached by following several ways, each with nothing handed
down. -/
def followAll (theme : Theme) (state : RenderState) (target : Target)
    (active : Finset ConditionId) : List Way → List String
  | [] => []
  | w :: ws =>
      follow theme state target (w.1.enter active) w.2 []
        ++ followAll theme state target active ws
termination_by ws => (waysSize ws, 1)
decreasing_by
  · rw [Prod.lex_def, waysSize_cons, waysSize_nil]
    left
    dsimp only
    omega
  · rw [Prod.lex_def, waysSize_cons]
    left
    dsimp only
    omega

end

/-- What an entry of a description sets: the properties of its name, or the
custom property that it is, each with the value to follow. -/
def settings (theme : Theme) (name : String) (value : StyleValue) :
    List (Target × StyleValue) :=
  if Css.isCustomName name then
    match Lowering.customTarget theme name value with
    | .ok setting => [setting]
    | .error _ => []
  else
    match theme.expand name with
    | .ok ids =>
        ids.filterMap fun id =>
          (theme.property? id).map fun p => (.themed id p.1 p.2, value)
    | .error _ => []

/-- What a description sets, in declared order. -/
def allSettings (theme : Theme) (d : StyleDescription) : List (Target × StyleValue) :=
  d.entries.flatMap fun e => settings theme e.1 e.2

/-- The classes that count among those of several settings, each given with its
property unit. For each unit the last setting that contributes a class decides
alone. -/
def deciding : List (String × List String) → List String
  | [] => []
  | (unit, own) :: rest =>
      if rest.any fun later => later.1 == unit && !later.2.isEmpty then deciding rest
      else own ++ deciding rest

/-- The classes of a description under a state, in declared order and without
repeats. -/
def classes (theme : Theme) (state : RenderState) (d : StyleDescription) : List String :=
  (deciding <| (allSettings theme d).map fun s =>
    (String.ofList s.1.unit, follow theme state s.1 ∅ s.2 [])).eraseDups

/-- The class list of a description under a state. -/
def classList (theme : Theme) (state : RenderState) (d : StyleDescription) : String :=
  " ".intercalate (classes theme state d)

end Meaning

/-- The entries of `smallTheme`. -/
def smallDraft : ThemeDraft where
  properties := [("display", .ofNames ["block", "flex"])]
  conditions :=
    [("dark", ".dark &"), ("wide", "@media (min-width: 60rem)"), ("hover", "&:hover")]

/-- A theme with one property and three conditions. -/
def smallTheme : Theme where
  properties := [("display", .ofNames ["block", "flex"])]
  shorthands := []
  conditions := [("dark", .theme 0), ("wide", .theme 1), ("hover", .theme 2)]
  preludes := [".dark &", "@media (min-width: 60rem)", "&:hover"]

theorem smallDraft_build : smallDraft.build = .ok smallTheme := rfl

/-- A variant offers a way for each tag, and its `default` is the fallback of the
object. -/
example :
    (Meaning.ways smallTheme
      [("dark", .literal (.text "flex")),
       ("size", .conditional
         [("large", .literal (.text "flex")), ("default", .literal (.text "block"))]),
       ("isOpen", .literal (.text "block"))]).map (·.1) =
      [.theme 0, .variant "size" "large", .fallback, .flag "isOpen"] := by
  decide

end AtomicStyles
