import AtomicStyles.Proofs.CompilationUnit

/-!
# Failed calls leave no trace

A unit changes while it works: its compiler remembers what has been printed, and
its sheets go to the assets. A description may fail at any of its entries, after
many others have been resolved. But it fails while it is lowered, and a unit does
not change before that is over.

`StyleCompiler.compile` returns a compiler only when it succeeds, so of a failure
it has nothing to say. Here the calls are steps that change a unit in place, and
what was changed before a failure stays changed. Of a call that succeeds they give
what the library's functions return. The rest is an induction over the calls of a
unit, which compares the run with one that is never asked what fails.
-/

namespace AtomicStyles

/-- A compiler at work, with the assets that have been delivered. -/
structure CompilationUnit where
  compiler : StyleCompiler
  assets : List String

/-- A call of the compiler of a unit. -/
inductive Request where
  | compile (d : StyleDescription)
  | compileInto (d : StyleDescription)

namespace Request

def description : Request → StyleDescription
  | compile d => d
  | compileInto d => d

/-- What goes to the assets when the call has compiled a style. -/
def delivery : Request → CompiledStyle → List String
  | compile _, _ => []
  | compileInto _, style => if style.css.isEmpty then [] else [style.css]

theorem append_delivery (assets : List String) (d : StyleDescription) (style : CompiledStyle) :
    assets ++ (compileInto d).delivery style =
      if style.css.isEmpty then assets else assets ++ [style.css] := by
  rw [delivery]
  split
  · exact List.append_nil assets
  · rfl

end Request

/-- What is done to a unit. A failure does not undo what was done before it. -/
abbrev Work := EStateM StyleError CompilationUnit

namespace Work

/-- Compiles a description. -/
def compile (d : StyleDescription) : Work CompiledStyle := do
  let unit ← get
  let rules ← ofExcept (lower unit.compiler.theme d)
  let (emitter, css) := unit.compiler.emitter.emit unit.compiler.theme rules
  set { unit with compiler := { unit.compiler with emitter } }
  return { css, procedure := .ofForest rules, rules }

/-- Compiles a description and delivers its sheet, unless it is empty. -/
def compileInto (d : StyleDescription) : Work CompiledStyle := do
  let compiled ← compile d
  unless compiled.css.isEmpty do
    modify fun unit => { unit with assets := unit.assets ++ [compiled.css] }
  return compiled

section

variable {u : CompilationUnit} {d : StyleDescription}

theorem compile_ok {f : RuleForest} (h : lower u.compiler.theme d = .ok f) :
    (compile d).run u = .ok (u.compiler.style f) { u with compiler := u.compiler.after f } := by
  show EStateM.bind (ofExcept (lower u.compiler.theme d)) _ u = _
  rw [h]
  rfl

theorem compile_error {e : StyleError} (h : lower u.compiler.theme d = .error e) :
    (compile d).run u = .error e u := by
  show EStateM.bind (ofExcept (lower u.compiler.theme d)) _ u = _
  rw [h]
  rfl

theorem compileInto_ok {f : RuleForest} (h : lower u.compiler.theme d = .ok f) :
    (compileInto d).run u =
      .ok (u.compiler.style f)
        ⟨u.compiler.after f, u.assets ++ (Request.compileInto d).delivery (u.compiler.style f)⟩ := by
  rw [compileInto, EStateM.run_bind, compile_ok h, Request.append_delivery]
  dsimp only
  cases (u.compiler.style f).css.isEmpty with
  | true => rfl
  | false => rfl

theorem compileInto_error {e : StyleError} (h : lower u.compiler.theme d = .error e) :
    (compileInto d).run u = .error e u := by
  rw [compileInto, EStateM.run_bind, compile_error h]

/-- What is returned to a caller that has kept the old unit. Of a failure that is the
error alone. -/
def returned {α β : Type} (view : α → β) :
    EStateM.Result StyleError CompilationUnit α →
      Except StyleError (StyleCompiler × β × List String)
  | .ok a next => .ok (next.compiler, view a, next.assets)
  | .error e _ => .error e

theorem compile_library (u : CompilationUnit) (d : StyleDescription) :
    (u.compiler.compile d).map (fun made => (made.1, made.2, u.assets)) =
      returned id ((compile d).run u) := by
  cases h : lower u.compiler.theme d with
  | error e =>
      rw [compile_error h, StyleCompiler.compile_error h]
      rfl
  | ok f =>
      rw [compile_ok h, StyleCompiler.compile_ok h]
      rfl

theorem compileInto_library (u : CompilationUnit) (d : StyleDescription) :
    u.compiler.compileInto d u.assets =
      returned CompiledStyle.procedure ((compileInto d).run u) := by
  cases h : lower u.compiler.theme d with
  | error e =>
      rw [compileInto_error h, StyleCompiler.compileInto, StyleCompiler.compile_error h]
      rfl
  | ok f =>
      rw [compileInto_ok h, StyleCompiler.compileInto, StyleCompiler.compile_ok h,
        Request.append_delivery]
      rfl

end

end Work

namespace Request

/-- The steps of a call. -/
def work : Request → Work CompiledStyle
  | compile d => Work.compile d
  | compileInto d => Work.compileInto d

variable {r : Request} {u : CompilationUnit}

theorem work_ok {f : RuleForest} (h : lower u.compiler.theme r.description = .ok f) :
    r.work.run u =
      .ok (u.compiler.style f)
        ⟨u.compiler.after f, u.assets ++ r.delivery (u.compiler.style f)⟩ := by
  cases r with
  | compile d =>
      rw [delivery, List.append_nil]
      exact Work.compile_ok h
  | compileInto d => exact Work.compileInto_ok h

/-- A call that fails leaves the unit as it was. -/
theorem work_error {e : StyleError} (h : lower u.compiler.theme r.description = .error e) :
    r.work.run u = .error e u := by
  cases r with
  | compile d => exact Work.compile_error h
  | compileInto d => exact Work.compileInto_error h

end Request

/-! ## The calls of a unit -/

/-- A call that is over. -/
structure Outcome where
  request : Request
  answer : Except StyleError CompiledStyle
  /-- All assets that have been delivered by then. -/
  assets : List String

namespace Outcome

def succeeded (o : Outcome) : Bool :=
  o.answer.isOk

/-- What the call has delivered. -/
def delivery (o : Outcome) : List String :=
  match o.answer with
  | .ok style => o.request.delivery style
  | .error _ => []

end Outcome

namespace CompilationUnit

/-- Calls, one after another, with the unit that is left when they are over. -/
def run (u : CompilationUnit) : List Request → List Outcome × CompilationUnit
  | [] => ([], u)
  | r :: rs =>
      match r.work.run u with
      | .ok style next =>
          let rest := next.run rs
          (⟨r, .ok style, next.assets⟩ :: rest.1, rest.2)
      | .error e next =>
          let rest := next.run rs
          (⟨r, .error e, next.assets⟩ :: rest.1, rest.2)

/-- The unit once a call has lowered its description to a forest. -/
def after (u : CompilationUnit) (r : Request) (f : RuleForest) : CompilationUnit :=
  ⟨u.compiler.after f, u.assets ++ r.delivery (u.compiler.style f)⟩

section

variable {u : CompilationUnit} {r : Request}

theorem run_cons_ok {f : RuleForest} (h : lower u.compiler.theme r.description = .ok f)
    (rs : List Request) :
    u.run (r :: rs) =
      (⟨r, .ok (u.compiler.style f), (u.after r f).assets⟩ :: ((u.after r f).run rs).1,
        ((u.after r f).run rs).2) := by
  rw [run, Request.work_ok h]
  rfl

theorem run_cons_error {e : StyleError} (h : lower u.compiler.theme r.description = .error e)
    (rs : List Request) :
    u.run (r :: rs) = (⟨r, .error e, u.assets⟩ :: (u.run rs).1, (u.run rs).2) := by
  rw [run, Request.work_error h]

end

/-- The calls that succeed go as they would without the others. -/
theorem run_succeeded (u : CompilationUnit) (rs : List Request) :
    u.run (((u.run rs).1.filter Outcome.succeeded).map Outcome.request) =
      ((u.run rs).1.filter Outcome.succeeded, (u.run rs).2) := by
  induction rs generalizing u with
  | nil => rfl
  | cons r rs ih =>
      cases h : lower u.compiler.theme r.description with
      | error e =>
          rw [run_cons_error h]
          exact ih u
      | ok f =>
          have hkeep : Outcome.succeeded
            ⟨r, .ok (u.compiler.style f), (u.after r f).assets⟩ := rfl
          rw [run_cons_ok h, List.filter_cons_of_pos hkeep, List.map_cons, run_cons_ok h, ih]

theorem run_requests (u : CompilationUnit) (rs : List Request) :
    (u.run rs).1.map Outcome.request = rs := by
  induction rs generalizing u with
  | nil => rfl
  | cons r rs ih =>
      cases h : lower u.compiler.theme r.description with
      | error e => rw [run_cons_error h, List.map_cons, ih]
      | ok f => rw [run_cons_ok h, List.map_cons, ih]

/-- The answers are those of the compiler alone. -/
theorem run_answers (u : CompilationUnit) (rs : List Request) :
    (u.run rs).1.map Outcome.answer =
      (u.compiler.calls (rs.map Request.description)).map Call.answer := by
  induction rs generalizing u with
  | nil => rfl
  | cons r rs ih =>
      rw [List.map_cons]
      cases h : lower u.compiler.theme r.description with
      | error e =>
          rw [run_cons_error h, StyleCompiler.calls_cons_error h, List.map_cons, List.map_cons, ih]
      | ok f =>
          rw [run_cons_ok h, StyleCompiler.calls_cons_ok h, List.map_cons, List.map_cons, ih]
          rfl

/-- The assets grow by what the calls deliver. -/
theorem run_assets (u : CompilationUnit) (rs : List Request) :
    (u.run rs).2.assets = u.assets ++ (u.run rs).1.flatMap Outcome.delivery := by
  induction rs generalizing u with
  | nil => exact (List.append_nil _).symm
  | cons r rs ih =>
      cases h : lower u.compiler.theme r.description with
      | error e =>
          rw [run_cons_error h, List.flatMap_cons]
          exact ih u
      | ok f =>
          rw [run_cons_ok h, List.flatMap_cons, ← List.append_assoc]
          exact ih (u.after r f)

end CompilationUnit

/-! ## Empty sheets -/

namespace StyleCompiler

/-- A sheet is empty when all its rules have been printed before. -/
theorem css_eq_empty_iff {theme : Theme} {ds : List StyleDescription} {j : Nat} {call : Call}
    (hcall : ((new theme).calls ds)[j]? = some call) {style : CompiledStyle}
    (hok : call.answer = .ok style) :
    style.css = "" ↔ ∀ token ∈ style.rules.tokens, ∃ i < j, ∃ earlier,
      ((new theme).calls ds)[i]? = some earlier ∧ token ∈ earlier.printed := by
  obtain ⟨e, hsheet, he⟩ := exists_emitter_of_call hcall hok
  have hcss : style.css = Sheet.text theme call.sheet := by
    obtain ⟨error, rfl⟩ | ⟨d, -, f, sheet, -, -, rfl⟩ := mem_calls (List.mem_of_getElem? hcall)
    · cases hok
    · cases hok
      rfl
  rw [hcss, Sheet.text_eq_empty_iff, hsheet, CssEmitter.fresh_eq_nil_iff]
  have hprinted : ∀ token, token ∈ e.printed ↔
      ∃ i < j, ∃ earlier, ((new theme).calls ds)[i]? = some earlier ∧ token ∈ earlier.printed := by
    intro token
    have hnew : token ∉ (new theme).emitter.printed := List.not_mem_nil
    rw [he, or_iff_right hnew]
    simp only [(Call.printed_perm _).mem_iff]
  simp only [← hprinted]
  exact List.forall_mem_map.symm

end StyleCompiler

/-- The steps of a call give what the library's functions return. A unit from which
all failing calls are deleted goes as before: each call that is left has the same
answer, the same assets have been delivered when it is over, and the same unit is
left in the end. The assets that are delivered are the sheets of the delivering calls
that succeed, without the empty ones. A sheet is empty when earlier calls have
printed all tokens of its forest, or there are none. What a call has printed can be
read in the lines of its own sheet. -/
theorem failed_calls_leave_no_trace (theme : Theme) (assets : List String)
    (requests : List Request) :
    let start : CompilationUnit := ⟨.new theme, assets⟩
    let outcomes := (start.run requests).1
    let kept := outcomes.filter Outcome.succeeded
    let calls := (StyleCompiler.new theme).calls (requests.map Request.description)
    (∀ (u : CompilationUnit) (d : StyleDescription),
      (u.compiler.compile d).map (fun made => (made.1, made.2, u.assets)) =
        Work.returned id ((Work.compile d).run u) ∧
      u.compiler.compileInto d u.assets =
        Work.returned CompiledStyle.procedure ((Work.compileInto d).run u)) ∧
    start.run (kept.map Outcome.request) = (kept, (start.run requests).2) ∧
    outcomes.map Outcome.request = requests ∧
    outcomes.map Outcome.answer = calls.map Call.answer ∧
    (start.run requests).2.assets = assets ++ outcomes.flatMap Outcome.delivery ∧
    (∀ call ∈ calls, Sheet.Written theme call.css (Sheet.printed call.sheet)) ∧
    ∀ (j : Nat) (call : Call) (style : CompiledStyle),
      calls[j]? = some call → call.answer = .ok style →
      (style.css = "" ↔
        (∀ token ∈ style.rules.tokens, ∃ i < j, ∃ earlier : Call,
          calls[i]? = some earlier ∧ token ∈ earlier.printed) ∨ style.rules.classes = []) := by
  intro start outcomes kept calls
  refine ⟨fun u d => ⟨Work.compile_library u d, Work.compileInto_library u d⟩,
    start.run_succeeded requests, start.run_requests requests, start.run_answers requests,
    start.run_assets requests, fun call hcall => ?_, fun j call style hcall hok => ?_⟩
  · exact StyleCompiler.written_call (c := .new theme) hcall
  · rw [StyleCompiler.css_eq_empty_iff hcall hok]
    -- a forest without classes has no tokens
    refine (or_iff_left_of_imp fun hnone token htoken => ?_).symm
    obtain ⟨r, hr, -⟩ := List.mem_map.1 htoken
    rw [hnone] at hr
    cases hr

/-- Three calls that deliver, of which the second fails and the third repeats the
first. -/
def repeatedRequests : List Request :=
  [.compileInto (.ofList [("display", .literal (.text "flex"))]),
   .compileInto (.ofList [("display", .literal (.text "grid"))]),
   .compileInto (.ofList [("display", .literal (.text "flex"))])]

/-- Without the second call the first delivers what it did and the third still
nothing, since the rule that it needs is a line of the first sheet. -/
theorem failed_calls_leave_no_trace_repeated :
    let start : CompilationUnit := ⟨.new smallTheme, []⟩
    let kept := (start.run repeatedRequests).1.filter Outcome.succeeded
    kept.length = 2 ∧ (start.run repeatedRequests).2.assets.length = 1 ∧
    start.run (kept.map Outcome.request) = (kept, (start.run repeatedRequests).2) ∧
    ∃ first call style, ((StyleCompiler.new smallTheme).calls
        (repeatedRequests.map Request.description))[0]? = some first ∧
      Sheet.Written smallTheme first.css (Sheet.printed first.sheet) ∧
      first.printed = style.rules.tokens ∧
      ((StyleCompiler.new smallTheme).calls
        (repeatedRequests.map Request.description))[2]? = some call ∧
      call.answer = .ok style ∧ style.css = "" ∧ style.rules.classes ≠ [] := by
  intro start kept
  obtain ⟨-, hkept, -, -, -, hwritten, hempty⟩ :=
    failed_calls_leave_no_trace smallTheme [] repeatedRequests
  refine ⟨rfl, rfl, hkept, _, _, _, rfl, hwritten _ (List.mem_of_getElem? (i := 0) rfl), ?_, rfl,
    rfl, (hempty 2 _ _ rfl rfl).2 (.inl ?_), ?_⟩
  · decide +kernel
  · intro token htoken
    refine ⟨0, by decide, _, rfl, ?_⟩
    revert token
    decide +kernel
  · decide +kernel

end AtomicStyles
