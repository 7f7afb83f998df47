import AtomicStyles.Compiler
import AtomicStyles.Proofs.BuiltTheme
import AtomicStyles.Proofs.Printing
import AtomicStyles.Selection.Merge

/-!
# No lookup misses

A theme gives out ordinals and is then asked for what stands at them: for
properties when a description is lowered, and for preludes when a sheet is
written. Asking for an ordinal that was never given out has no answer. The
library gives such a question a harmless one, and nothing here says that this is
right: what is shown is that the question is never asked.

So each operation that looks up ordinals stands here once more, with lookups that
end everything when they miss. On a theme that was built it does what the
library does, for every description, and for every forest that was lowered under
the theme. A session of such operations in any order therefore runs to its end.
-/

namespace AtomicStyles

open Lowering (Target)

/-- Why an operation stops. -/
inductive Stop where
  /-- The theme was asked for an ordinal that it has not given out. -/
  | miss
  /-- The operation refuses what it was given. -/
  | refusal (e : StyleError)

namespace Checked

section

variable {α β : Type}

/-- An operation that looks up nothing can only refuse. -/
def refusing (x : Except StyleError α) : Except Stop α :=
  x.mapError .refusal

theorem refusing_bind (x : Except StyleError α) (f : α → Except StyleError β) :
    refusing (x >>= f) = refusing x >>= fun a => refusing (f a) := by
  cases x <;> rfl

theorem refusing_mapM {f : α → Except StyleError β} {g : α → Except Stop β} {xs : List α}
    (h : ∀ x ∈ xs, g x = refusing (f x)) : xs.mapM g = refusing (xs.mapM f) := by
  induction xs with
  | nil => rfl
  | cons x xs ih =>
      obtain ⟨hx, hxs⟩ := List.forall_mem_cons.1 h
      rw [List.mapM_cons, List.mapM_cons, hx, ih hxs, refusing_bind]
      simp only [refusing_bind]
      rfl

end

/-! ## Lookups that end everything when they miss

Each function below is that of the library, but for the lookups. -/

def property (t : Theme) (id : PropertyId) : Except Stop (String × PropertyDefinition) :=
  match t.property? id with
  | some p => .ok p
  | none => .error .miss

def prelude (t : Theme) (id : ConditionId) : Except Stop String :=
  match t.prelude? id with
  | some text => .ok text
  | none => .error .miss

/-- The target of a custom property. Its type has an ordinal, and the values are
those of the property that stands there. -/
def customTarget (t : Theme) (name : String) (value : StyleValue) :
    Except Stop (Target × StyleValue) :=
  match Lowering.typedEntry? value with
  | none => .ok (.raw name, value)
  | some (.literal (.text type), inner) =>
      match t.propertyId? type with
      | some id => do
          let p ← property t id
          return (.typed name p.1 p.2, inner)
      | none => .error (.refusal (.invalidCustomProperty name (.unknownType type)))
  | some _ => .error (.refusal (.invalidCustomProperty name .typeIsNoName))

def entry (t : Theme) (name : String) (value : StyleValue) : Except Stop (List PropertyRules) :=
  if Css.isCustomName name then do
    let (target, inner) ← customTarget t name value
    let tree ← refusing (StyleNode.normalize t name inner)
    let rules ← refusing (Lowering.group target tree)
    return [rules]
  else do
    let ids ← refusing (t.expand name)
    let tree ← refusing (StyleNode.normalize t name value)
    ids.mapM fun id => do
      let p ← property t id
      refusing (Lowering.group (.themed id p.1 p.2) tree)

def lower (t : Theme) (d : StyleDescription) : Except Stop RuleForest := do
  let groups ← d.entries.mapM fun e => entry t e.1 e.2
  return ⟨groups.flatten⟩

def openings (t : Theme) : Nat → List ConditionId → Except Stop String
  | _, [] => .ok ""
  | level, id :: ids => do
      let text ← prelude t id
      let more ← openings t (level + 1) ids
      return Sheet.indent level ++ text ++ " \x7b\n" ++ more

def blockText (t : Theme) (b : Sheet.Block) : Except Stop String := do
  let opened ← openings t 1 b.conditions
  return "@layer " ++ layerName b.conditions.getLast? ++ " \x7b\n" ++ opened
    ++ String.join (b.rules.map (Sheet.ruleText (b.conditions.length + 1)))
    ++ Sheet.closings b.conditions.length ++ "\x7d\n"

def text (t : Theme) (rules : List ClassRule) : Except Stop String :=
  match Sheet.blocks rules with
  | [] => .ok ""
  | bs => do
      let texts ← bs.mapM (blockText t)
      return t.layerDeclaration ++ "\n" ++ String.join texts

def emit (e : CssEmitter) (t : Theme) (f : RuleForest) : Except Stop (CssEmitter × String) := do
  let next := e.fresh f.classes
  let css ← text t next.2
  return (next.1, css)

def compile (c : StyleCompiler) (d : StyleDescription) :
    Except Stop (StyleCompiler × CompiledStyle) := do
  let rules ← lower c.theme d
  let (emitter, css) ← emit c.emitter c.theme rules
  return ({ c with emitter }, { css, procedure := .ofForest rules, rules })

/-! ## They never miss -/

variable {t : Theme}

theorem property_eq {id : PropertyId} (h : id < t.properties.length) :
    ∃ p, t.property? id = some p ∧ property t id = .ok p := by
  have hp : t.property? id = some t.properties[id] := List.getElem?_eq_getElem h
  exact ⟨_, hp, by rw [property, hp]⟩

/-- The type of a custom property is where its ordinal says. -/
theorem customTarget_eq (t : Theme) (name : String) (value : StyleValue) :
    customTarget t name value = refusing (Lowering.customTarget t name value) := by
  unfold customTarget Lowering.customTarget
  cases Lowering.typedEntry? value with
  | none => rfl
  | some typed =>
      obtain ⟨type | _, inner⟩ := typed
      · cases type with
        | bool b => rfl
        | number n => rfl
        | text type =>
            dsimp only
            rw [Entries.get?_eq_find?, Theme.propertyId?]
            cases hfind : t.properties.find? type with
            | none => rfl
            | some hit =>
                obtain ⟨id, definition⟩ := hit
                have hp : t.property? id = some (type, definition) :=
                  Entries.getElem?_of_find? hfind
                simp only [Option.map_some, property, hp]
                rfl
      · rfl

theorem entry_eq (ht : t.InRange) (name : String) (value : StyleValue) :
    entry t name value = refusing (Lowering.entry t name value) := by
  unfold entry Lowering.entry
  split
  · rw [customTarget_eq, refusing_bind]
    simp only [refusing_bind]
    rfl
  · rw [refusing_bind]
    cases hids : t.expand name with
    | error e => rfl
    | ok ids =>
        show (refusing (StyleNode.normalize t name value) >>= _) = _
        simp only [refusing_bind]
        congr 1
        funext tree
        -- an expansion has ordinals of the table only
        refine refusing_mapM fun id hid => ?_
        obtain ⟨p, hp, hproperty⟩ := property_eq (ht.expand hids id hid)
        rw [hproperty, Lowering.themeTarget, hp]
        rfl

/-- Lowering asks for no property that the theme does not have. -/
theorem lower_eq (ht : t.InRange) (d : StyleDescription) :
    lower t d = refusing (AtomicStyles.lower t d) := by
  rw [lower, AtomicStyles.lower, refusing_mapM fun e _ => entry_eq ht e.1 e.2, refusing_bind]
  rfl

theorem openings_eq {ids : List ConditionId} (h : ∀ id ∈ ids, id < t.preludes.length)
    (level : Nat) : openings t level ids = .ok (Sheet.openings t level ids) := by
  induction ids generalizing level with
  | nil => rfl
  | cons id ids ih =>
      obtain ⟨hid, hids⟩ := List.forall_mem_cons.1 h
      have hprelude : t.prelude? id = some t.preludes[id] := List.getElem?_eq_getElem hid
      rw [openings, prelude, ih hids, Sheet.openings, hprelude]
      rfl

theorem blockText_eq {b : Sheet.Block} (h : ∀ id ∈ b.conditions, id < t.preludes.length) :
    blockText t b = .ok (b.text t) := by
  rw [blockText, openings_eq h]
  rfl

theorem text_eq {rules : List ClassRule}
    (h : ∀ r ∈ rules, ∀ id ∈ r.conditions, id < t.preludes.length) :
    text t rules = .ok (Sheet.text t rules) := by
  have hblocks : (Sheet.blocks rules).mapM (blockText t) =
      .ok ((Sheet.blocks rules).map (Sheet.Block.text t)) := by
    refine mapM_eq_ok_iff.2 (List.forall₂_map_right_iff.2 (List.forall₂_same.2 fun b hb => ?_))
    -- a block stands under the conditions of a rule
    obtain ⟨r, hr, hconditions⟩ := Sheet.exists_rule_of_block hb
    exact blockText_eq (hconditions ▸ h r hr)
  unfold text Sheet.text
  cases hbs : Sheet.blocks rules with
  | nil => rfl
  | cons b bs =>
      dsimp only
      rw [← hbs, hblocks]
      rfl

/-- Writing asks for no prelude that the theme does not have. -/
theorem emit_eq {f : RuleForest}
    (h : ∀ r ∈ f.classes, ∀ id ∈ r.conditions, id < t.preludes.length) (e : CssEmitter) :
    emit e t f = .ok (e.emit t f) := by
  rw [emit, text_eq fun r hr => h r ((CssEmitter.fresh_sublist e f.classes).subset hr)]
  rfl

theorem compile_eq {c : StyleCompiler} (ht : c.theme.InRange) (d : StyleDescription) :
    compile c d = refusing (c.compile d) := by
  rw [compile, StyleCompiler.compile, lower_eq ht]
  cases hd : AtomicStyles.lower c.theme d with
  | error e => rfl
  | ok f =>
      show (emit c.emitter c.theme f >>= _) = _
      rw [emit_eq (ht.classes hd)]
      rfl

end Checked

/-! ## Sessions -/

/-- An operation of a session. Forests and procedures are meant by their number
in the order in which the session has made them. -/
inductive Operation where
  | lower (d : StyleDescription)
  | emit (forest : Nat)
  | compile (d : StyleDescription)
  | select (procedure : Nat) (state : RenderState)
  | merge (procedures : List Nat) (state : RenderState)

/-- What a session has made so far. -/
structure Session where
  compiler : StyleCompiler
  /-- The emitter of the sheets that are written outside of the compiler. -/
  emitter : CssEmitter
  forests : List RuleForest
  procedures : List SelectionProcedure
  /-- All sheets and class lists. -/
  texts : List String

namespace Session

def new (t : Theme) : Session := ⟨.new t, .empty, [], [], []⟩

/-- A refusal leaves the session as it was, and a miss ends it. -/
def proceed {α : Type} (s : Session) (next : α → Session) : Except Stop α → Option Session
  | .ok a => some (next a)
  | .error (.refusal _) => some s
  | .error .miss => none

/-- The session with a forest and its procedure. -/
def keep (s : Session) (f : RuleForest) (p : SelectionProcedure) : Session :=
  { s with forests := s.forests ++ [f], procedures := s.procedures ++ [p] }

def write (s : Session) (text : String) : Session :=
  { s with texts := s.texts ++ [text] }

/-- One operation. There is no session after a lookup that misses. -/
def step (s : Session) : Operation → Option Session
  | .lower d => s.proceed (fun f => s.keep f (.ofForest f)) (Checked.lower s.compiler.theme d)
  | .emit i =>
      match s.forests[i]? with
      | some f =>
          s.proceed (fun next => { s.write next.2 with emitter := next.1 })
            (Checked.emit s.emitter s.compiler.theme f)
      | none => some s
  | .compile d =>
      s.proceed
        (fun next =>
          { (s.keep next.2.rules next.2.procedure).write next.2.css with compiler := next.1 })
        (Checked.compile s.compiler d)
  | .select i state =>
      match s.procedures[i]? with
      | some p => some (s.write (p.select state))
      | none => some s
  | .merge is state =>
      some (s.write (ClassList.mergeSelected (is.filterMap (s.procedures[·]?)) state))

def run (s : Session) : List Operation → Option Session
  | [] => some s
  | op :: ops => (s.step op).bind (·.run ops)

/-- A session over a theme has forests of that theme alone. -/
structure Over (t : Theme) (s : Session) : Prop where
  theme : s.compiler.theme = t
  forests : ∀ f ∈ s.forests, ∃ d, lower t d = .ok f

variable {t : Theme} {s : Session}

theorem Over.write (h : s.Over t) (text : String) : (s.write text).Over t := ⟨h.theme, h.forests⟩

theorem Over.keep (h : s.Over t) {d : StyleDescription} {f : RuleForest}
    (hd : AtomicStyles.lower t d = .ok f) (p : SelectionProcedure) : (s.keep f p).Over t := by
  refine ⟨h.theme, fun g hg => ?_⟩
  rcases List.mem_append.1 hg with hg | hg
  · exact h.forests g hg
  · exact ⟨d, List.mem_singleton.1 hg ▸ hd⟩

/-- An operation finds what it looks up. -/
theorem Over.step (ht : t.InRange) (h : s.Over t) (op : Operation) :
    ∃ s', s.step op = some s' ∧ s'.Over t := by
  obtain ⟨rfl, hforests⟩ := h
  have h : s.Over s.compiler.theme := ⟨rfl, hforests⟩
  cases op with
  | lower d =>
      rw [Session.step, Checked.lower_eq ht]
      cases hd : AtomicStyles.lower s.compiler.theme d with
      | error e => exact ⟨s, rfl, h⟩
      | ok f => exact ⟨_, rfl, h.keep hd _⟩
  | emit i =>
      rw [Session.step]
      cases hf : s.forests[i]? with
      | none => exact ⟨s, rfl, h⟩
      | some f =>
          obtain ⟨d, hd⟩ := hforests f (List.mem_of_getElem? hf)
          dsimp only
          rw [Checked.emit_eq (ht.classes hd)]
          exact ⟨_, rfl, ⟨rfl, hforests⟩⟩
  | compile d =>
      rw [Session.step, Checked.compile_eq ht, StyleCompiler.compile]
      cases hd : AtomicStyles.lower s.compiler.theme d with
      | error e => exact ⟨s, rfl, h⟩
      | ok f =>
          obtain ⟨-, hkept⟩ := (h.keep hd (.ofForest f)).write
            (s.compiler.emitter.emit s.compiler.theme f).2
          exact ⟨_, rfl, ⟨rfl, hkept⟩⟩
  | select i state =>
      rw [Session.step]
      cases s.procedures[i]? with
      | none => exact ⟨s, rfl, h⟩
      | some p => exact ⟨_, rfl, h.write _⟩
  | merge is state => exact ⟨_, rfl, h.write _⟩

/-- A session runs to its end. -/
theorem Over.run (ht : t.InRange) (h : s.Over t) (ops : List Operation) :
    ∃ s', s.run ops = some s' ∧ s'.Over t := by
  induction ops generalizing s with
  | nil => exact ⟨s, rfl, h⟩
  | cons op ops ih =>
      obtain ⟨next, hnext, hover⟩ := h.step ht op
      rw [Session.run, hnext]
      exact ih hover

end Session

/-- All ordinals that a built theme gives out are positions in its tables: those of
properties and of the longhands of shorthands, those of conditions, and those that
the classes of a lowered forest stand under. So with lookups that end everything
when they miss, compiling and writing do what they do without, and no session over
the theme is ever cut short, whatever it lowers, writes, compiles, selects and
merges in whatever order. -/
theorem ordinals_in_range {calls : List ThemeCall} {t : Theme}
    (h : (ThemeCall.draft calls).build = .ok t) :
    (∀ name id, t.propertyId? name = some id → id < t.properties.length) ∧
    (∀ name ids, t.expand name = .ok ids → ∀ id ∈ ids, id < t.properties.length) ∧
    (∀ name id, t.condition? name = some (.theme id) → id < t.preludes.length) ∧
    (∀ d f, lower t d = .ok f → ∀ r ∈ f.classes, ∀ id ∈ r.conditions, id < t.preludes.length) ∧
    (∀ e d, Checked.compile ⟨t, e⟩ d = Checked.refusing (StyleCompiler.compile ⟨t, e⟩ d)) ∧
    (∀ e d f, lower t d = .ok f → Checked.emit e t f = .ok (CssEmitter.emit e t f)) ∧
    ∀ ops, ∃ s, (Session.new t).run ops = some s := by
  have ht := Theme.inRange_build h
  refine ⟨fun _ _ hid => Theme.lt_of_propertyId? hid, fun _ _ hids => ht.expand hids,
    fun _ _ hid => ht.condition? hid, fun _ _ hd => ht.classes hd,
    fun e d => Checked.compile_eq (c := ⟨t, e⟩) ht d,
    fun e d f hd => Checked.emit_eq (ht.classes hd) e, fun ops => ?_⟩
  have hnew : (Session.new t).Over t := ⟨rfl, by simp [Session.new]⟩
  obtain ⟨s, hs, -⟩ := hnew.run ht ops
  exact ⟨s, hs⟩

/-- A session that compiles, writes the forest once more, selects and merges. -/
theorem ordinals_in_range_box :
    (ThemeCall.draft boxCalls).build = .ok boxTheme ∧
    boxTheme.propertyId? "paddingBottom" = some 1 ∧ 1 < boxTheme.properties.length ∧
    boxTheme.expand "paddingY" = .ok [0, 1] ∧
    (∀ id ∈ [0, 1], id < boxTheme.properties.length) ∧
    boxTheme.condition? "night" = some (.theme 0) ∧ 0 < boxTheme.preludes.length ∧
    ∃ s, (Session.new boxTheme).run
      [.compile (.ofList [("paddingY", .conditional
        [("default", .literal (.text "small")), ("night", .literal (.text "large"))])]),
       .emit 0, .select 0 .empty, .merge [0, 0] .empty] = some s := by
  obtain ⟨hproperty, hexpand, hcondition, -, -, -, hrun⟩ := ordinals_in_range boxCalls_build
  have hid : boxTheme.propertyId? "paddingBottom" = some 1 := rfl
  have hids : boxTheme.expand "paddingY" = .ok [0, 1] := rfl
  have hnight : boxTheme.condition? "night" = some (.theme 0) := rfl
  exact ⟨boxCalls_build, hid, hproperty _ _ hid, hids, hexpand _ _ hids, hnight,
    hcondition _ _ hnight, hrun _⟩

end AtomicStyles
