import AtomicStyles.Compiler
import AtomicStyles.Proofs.ClassList
import AtomicStyles.Proofs.SheetLines

/-!
# Units of compilation

A unit is one compiler and the calls made of it, one after another. Some calls
fail, and those leave no trace. The others share what has been printed: a call
prints the rules that no earlier call has printed, so what a style needs may
stand in the sheet of another call. What a call prints is counted in the list of
rules that its sheet is made from, and the sheet that it hands out is written for
these rules.

The invariant is on the printed tokens. What a unit has printed so far and what
its calls are going to print hold no token twice, and every token of a rule
that a call was shown has been printed when the call is over. With what
`ClassList.lean` says of selected classes this gives the main statement: each
class that a style selects has its rule in the sheets up to its own, once.
-/

namespace AtomicStyles

/-- What a call gave: its answer, and the rules that its sheet was made from. -/
structure Call where
  answer : Except StyleError CompiledStyle
  sheet : List ClassRule

/-- The tokens that a call prints rules for, in the order of its text. -/
def Call.printed (call : Call) : List String :=
  (Sheet.printed call.sheet).map (·.token)

/-- The sheet that a call hands out. A call that fails hands out none. -/
def Call.css (call : Call) : String :=
  match call.answer with
  | .ok style => style.css
  | .error _ => ""

theorem Call.printed_perm (call : Call) : call.printed.Perm (call.sheet.map (·.token)) :=
  (Sheet.printed_perm call.sheet).map _

namespace StyleCompiler

/-- The calls of a unit, one for each description. -/
def calls (c : StyleCompiler) : List StyleDescription → List Call
  | [] => []
  | d :: ds =>
      match c.compile d with
      | .ok (next, style) =>
          ⟨.ok style, (c.emitter.fresh style.rules.classes).2⟩ :: next.calls ds
      | .error e => ⟨.error e, []⟩ :: c.calls ds

/-- The compiler of a unit when the calls are over. -/
def afterAll (c : StyleCompiler) : List StyleDescription → StyleCompiler
  | [] => c
  | d :: ds =>
      match c.compile d with
      | .ok (next, _) => next.afterAll ds
      | .error _ => c.afterAll ds

/-- What a call makes of a forest. -/
def style (c : StyleCompiler) (f : RuleForest) : CompiledStyle :=
  ⟨Sheet.text c.theme (c.emitter.fresh f.classes).2, .ofForest f, f⟩

/-- The compiler once it has printed a forest. -/
def after (c : StyleCompiler) (f : RuleForest) : StyleCompiler :=
  ⟨c.theme, (c.emitter.fresh f.classes).1⟩

theorem compile_ok {c : StyleCompiler} {d : StyleDescription} {f : RuleForest}
    (h : lower c.theme d = .ok f) : c.compile d = .ok (c.after f, c.style f) := by
  rw [compile, h]
  rfl

theorem compile_error {c : StyleCompiler} {d : StyleDescription} {e : StyleError}
    (h : lower c.theme d = .error e) : c.compile d = .error e := by
  rw [compile, h]
  rfl

theorem calls_cons_ok {c : StyleCompiler} {d : StyleDescription} {f : RuleForest}
    (h : lower c.theme d = .ok f) (ds : List StyleDescription) :
    c.calls (d :: ds) =
      ⟨.ok (c.style f), (c.emitter.fresh f.classes).2⟩ :: (c.after f).calls ds := by
  rw [calls, compile_ok h]
  rfl

theorem calls_cons_error {c : StyleCompiler} {d : StyleDescription} {e : StyleError}
    (h : lower c.theme d = .error e) (ds : List StyleDescription) :
    c.calls (d :: ds) = ⟨.error e, []⟩ :: c.calls ds := by
  rw [calls, compile_error h]

theorem afterAll_printed (c : StyleCompiler) (ds : List StyleDescription) :
    (c.afterAll ds).emitter.printed =
      c.emitter.printed ++ (c.calls ds).flatMap fun call => call.sheet.map (·.token) := by
  induction ds generalizing c with
  | nil => simp [afterAll, calls]
  | cons d ds ih =>
      cases hlower : lower c.theme d with
      | error e =>
          rw [calls_cons_error hlower, List.flatMap_cons, afterAll, compile_error hlower]
          exact ih c
      | ok f =>
          rw [calls_cons_ok hlower, List.flatMap_cons, ← List.append_assoc,
            ← CssEmitter.fresh_printed, afterAll, compile_ok hlower]
          -- what this call prints counts as printed before the next
          exact ih (c.after f)

theorem length_calls (c : StyleCompiler) (ds : List StyleDescription) :
    (c.calls ds).length = ds.length := by
  induction ds generalizing c with
  | nil => rfl
  | cons d ds ih =>
      cases h : lower c.theme d with
      | error e => rw [calls_cons_error h, List.length_cons, ih, List.length_cons]
      | ok f => rw [calls_cons_ok h, List.length_cons, ih, List.length_cons]

theorem calls_append (c : StyleCompiler) (ds es : List StyleDescription) :
    c.calls (ds ++ es) = c.calls ds ++ (c.afterAll ds).calls es := by
  induction ds generalizing c with
  | nil => rfl
  | cons d ds ih =>
      rw [List.cons_append, afterAll]
      cases h : lower c.theme d with
      | error e => rw [calls_cons_error h, calls_cons_error h, compile_error h, List.cons_append, ih]
      | ok f => rw [calls_cons_ok h, calls_cons_ok h, compile_ok h, List.cons_append, ih]

/-- A call is the first of a compiler that has made the calls before it. -/
theorem exists_first_call {c : StyleCompiler} {ds : List StyleDescription} {j : Nat} {call : Call}
    (h : (c.calls ds)[j]? = some call) :
    ∃ before d more, c.calls ds = c.calls before ++ call :: more ∧
      (c.calls before).length = j ∧ (c.afterAll before).calls [d] = [call] := by
  obtain ⟨hj, -⟩ := List.getElem?_eq_some_iff.1 h
  rw [length_calls] at hj
  obtain ⟨first, hfirst⟩ :=
    List.length_eq_one_iff.1 (length_calls (c.afterAll (ds.take j)) [ds[j]])
  have hlength : (c.calls (ds.take j)).length = j := by
    rw [length_calls, List.length_take_of_le (Nat.le_of_lt hj)]
  have hcalls : c.calls ds = c.calls (ds.take j) ++
      first :: ((c.afterAll (ds.take j)).afterAll [ds[j]]).calls (ds.drop (j + 1)) := by
    conv_lhs => rw [← List.take_append_drop j ds, List.drop_eq_getElem_cons hj]
    rw [← List.singleton_append, calls_append, calls_append, hfirst]
    rfl
  rw [hcalls, List.getElem?_append_right (Nat.le_of_eq hlength), hlength, Nat.sub_self] at h
  obtain rfl := Option.some.inj h
  exact ⟨ds.take j, ds[j], _, hcalls, hlength, hfirst⟩

/-- A call fails and prints nothing, or it has lowered its description and prints
some of the rules of its forest. -/
theorem mem_calls {c : StyleCompiler} {ds : List StyleDescription} {call : Call}
    (h : call ∈ c.calls ds) :
    (∃ e, call = ⟨.error e, []⟩) ∨
      ∃ d ∈ ds, ∃ f sheet, lower c.theme d = .ok f ∧ sheet.Sublist f.classes ∧
        call = ⟨.ok ⟨Sheet.text c.theme sheet, .ofForest f, f⟩, sheet⟩ := by
  induction ds generalizing c with
  | nil => cases h
  | cons d ds ih =>
      cases hlower : lower c.theme d with
      | error e =>
          rw [calls_cons_error hlower] at h
          rcases List.mem_cons.1 h with rfl | h
          · exact .inl ⟨e, rfl⟩
          · exact (ih h).imp id fun ⟨d', hd', hrest⟩ => ⟨d', List.mem_cons_of_mem _ hd', hrest⟩
      | ok f =>
          rw [calls_cons_ok hlower] at h
          rcases List.mem_cons.1 h with rfl | h
          · exact .inr ⟨d, List.mem_cons_self, f, _, hlower,
              CssEmitter.fresh_sublist c.emitter f.classes, rfl⟩
          · exact (ih h).imp id fun ⟨d', hd', hrest⟩ => ⟨d', List.mem_cons_of_mem _ hd', hrest⟩

/-- What a call hands out is written for the rules that are counted for it. -/
theorem written_call {c : StyleCompiler} {ds : List StyleDescription} {call : Call}
    (h : call ∈ c.calls ds) : Sheet.Written c.theme call.css (Sheet.printed call.sheet) := by
  obtain ⟨e, rfl⟩ | ⟨d, -, f, sheet, -, -, rfl⟩ := mem_calls h
  · exact Sheet.Written.nil
  · exact Sheet.written_text c.theme sheet

/-! ## Nothing is printed twice -/

/-- What has been printed and what the calls print hold no token twice. -/
theorem nodup_calls {c : StyleCompiler} (h : c.emitter.printed.Nodup)
    (ds : List StyleDescription) :
    (c.emitter.printed ++ (c.calls ds).flatMap fun call => call.sheet.map (·.token)).Nodup := by
  induction ds generalizing c with
  | nil => simpa [calls] using h
  | cons d ds ih =>
      cases hlower : lower c.theme d with
      | error e =>
          rw [calls_cons_error hlower, List.flatMap_cons]
          exact ih h
      | ok f =>
          rw [calls_cons_ok hlower, List.flatMap_cons, ← List.append_assoc,
            ← CssEmitter.fresh_printed]
          -- what the call prints moves from the calls to come to what is printed
          have hnext : (c.after f).emitter.printed.Nodup := CssEmitter.fresh_nodup h f.classes
          exact ih hnext

/-- A token is in the sheet of one call at most, and there once. -/
theorem sheet_unique {theme : Theme} {ds : List StyleDescription} {i k : Nat} {a b : Call}
    (ha : ((new theme).calls ds)[i]? = some a) (hb : ((new theme).calls ds)[k]? = some b)
    {token : String} (hta : token ∈ a.sheet.map (·.token))
    (htb : token ∈ b.sheet.map (·.token)) : k = i := by
  have hnodup := nodup_calls (c := new theme) List.nodup_nil ds
  obtain ⟨-, hdisjoint⟩ := List.nodup_flatMap.1 hnodup
  obtain ⟨hi, rfl⟩ := List.getElem?_eq_some_iff.1 ha
  obtain ⟨hk, rfl⟩ := List.getElem?_eq_some_iff.1 hb
  rw [List.pairwise_iff_getElem] at hdisjoint
  rcases Nat.lt_trichotomy k i with hlt | heq | hlt
  · exact absurd hta (hdisjoint k i hk hi hlt htb)
  · exact heq
  · exact absurd htb (hdisjoint i k hi hk hlt hta)

/-! ## Everything is printed -/

/-- A call that answers prints what is new to the emitter that the calls before it have
left. -/
theorem exists_emitter_of_call {c : StyleCompiler} {ds : List StyleDescription} {j : Nat}
    {call : Call} (hcall : (c.calls ds)[j]? = some call) {style : CompiledStyle}
    (hok : call.answer = .ok style) :
    ∃ e : CssEmitter, call.sheet = (e.fresh style.rules.classes).2 ∧
      ∀ token, token ∈ e.printed ↔
        token ∈ c.emitter.printed ∨
          ∃ i < j, ∃ earlier, (c.calls ds)[i]? = some earlier ∧
            token ∈ earlier.sheet.map (·.token) := by
  obtain ⟨before, d, more, hcalls, rfl, hfirst⟩ := exists_first_call hcall
  refine ⟨(c.afterAll before).emitter, ?_, fun token => ?_⟩
  · cases hlower : lower (c.afterAll before).theme d with
    | error e =>
        rw [calls_cons_error hlower] at hfirst
        obtain rfl := List.head_eq_of_cons_eq hfirst
        cases hok
    | ok f =>
        rw [calls_cons_ok hlower] at hfirst
        obtain rfl := List.head_eq_of_cons_eq hfirst
        cases hok
        rfl
  · rw [afterAll_printed, List.mem_append, List.mem_flatMap, hcalls]
    refine or_congr_right ⟨?_, ?_⟩
    · rintro ⟨earlier, hearlier, htoken⟩
      obtain ⟨i, hi, rfl⟩ := List.getElem_of_mem hearlier
      refine ⟨i, hi, _, ?_, htoken⟩
      rw [List.getElem?_append_left hi, List.getElem?_eq_getElem hi]
    · rintro ⟨i, hi, earlier, hearlier, htoken⟩
      rw [List.getElem?_append_left hi] at hearlier
      exact ⟨earlier, List.mem_of_getElem? hearlier, htoken⟩

/-- The rules of a call are printed before the unit began, by an earlier call or
by the call itself. -/
theorem printed_of_mem_tokens {c : StyleCompiler} {ds : List StyleDescription} {j : Nat}
    {call : Call} (hcall : (c.calls ds)[j]? = some call) {style : CompiledStyle}
    (hok : call.answer = .ok style) {token : String} (ht : token ∈ style.rules.tokens) :
    token ∈ c.emitter.printed ∨
      ∃ i ≤ j, ∃ printer, (c.calls ds)[i]? = some printer ∧
        token ∈ printer.sheet.map (·.token) := by
  obtain ⟨e, hsheet, he⟩ := exists_emitter_of_call hcall hok
  obtain ⟨r, hr, rfl⟩ := List.mem_map.1 ht
  have hprinted := CssEmitter.mem_fresh_printed e hr
  rw [CssEmitter.fresh_printed, ← hsheet] at hprinted
  rcases List.mem_append.1 hprinted with hold | hnew
  · rcases (he _).1 hold with hold | ⟨i, hi, earlier, hearlier, htoken⟩
    · exact .inl hold
    · exact .inr ⟨i, Nat.le_of_lt hi, earlier, hearlier, htoken⟩
  · exact .inr ⟨j, Nat.le_refl j, call, hcall, hnew⟩

/-- Where a description lowers, the call made of it answers, wherever it stands. -/
theorem call_of_getElem? {c : StyleCompiler} {ds : List StyleDescription} {j : Nat}
    {d : StyleDescription} (hj : ds[j]? = some d) {f : RuleForest}
    (hd : lower c.theme d = .ok f) :
    ∃ sheet,
      (c.calls ds)[j]? = some ⟨.ok ⟨Sheet.text c.theme sheet, .ofForest f, f⟩, sheet⟩ := by
  induction ds generalizing c j with
  | nil => cases hj
  | cons e ds ih =>
      cases j with
      | zero =>
          obtain rfl := Option.some.inj hj
          rw [calls_cons_ok hd]
          exact ⟨_, rfl⟩
      | succ j =>
          cases hlower : lower c.theme e with
          | error fault =>
              rw [calls_cons_error hlower]
              exact ih hj hd
          | ok g =>
              rw [calls_cons_ok hlower]
              exact ih (c := c.after g) hj hd

theorem exists_call {c : StyleCompiler} {d : StyleDescription} {f : RuleForest}
    (hd : lower c.theme d = .ok f) {ds : List StyleDescription} (hmem : d ∈ ds) :
    ∃ (j : Nat) (call : Call) (style : CompiledStyle),
      (c.calls ds)[j]? = some call ∧ call.answer = .ok style ∧ style.rules = f := by
  obtain ⟨j, hj⟩ := List.getElem?_of_mem hmem
  obtain ⟨sheet, hcall⟩ := call_of_getElem? hj hd
  exact ⟨j, _, _, hcall, rfl, rfl⟩

/-! ## What a unit prints -/

/-- The tokens that a unit prints rules for, in the order of the text of its
sheets. -/
def printOrder (theme : Theme) (ds : List StyleDescription) : List String :=
  ((new theme).calls ds).flatMap Call.printed

/-- The class rules in the sheets of a unit, in the order of the text. -/
def printedRules (theme : Theme) (ds : List StyleDescription) : List ClassRule :=
  ((new theme).calls ds).flatMap fun call => Sheet.printed call.sheet

theorem map_token_printedRules (theme : Theme) (ds : List StyleDescription) :
    (printedRules theme ds).map (·.token) = printOrder theme ds := by
  rw [printedRules, List.map_flatMap, printOrder]
  rfl

/-- All sheets of a unit, one after the other. -/
def unitText (theme : Theme) (ds : List StyleDescription) : String :=
  String.join (((new theme).calls ds).map Call.css)

theorem written_unitText (theme : Theme) (ds : List StyleDescription) :
    Sheet.Written theme (unitText theme ds) (printedRules theme ds) :=
  Sheet.Written.join fun _ hcall => written_call (c := new theme) hcall

theorem perm_printOrder (theme : Theme) (ds : List StyleDescription) :
    (printOrder theme ds).Perm ((new theme).afterAll ds).emitter.printed := by
  rw [afterAll_printed, printOrder]
  exact List.Perm.flatMap_left _ fun call _ => call.printed_perm

theorem nodup_printOrder (theme : Theme) (ds : List StyleDescription) :
    (printOrder theme ds).Nodup := by
  rw [(perm_printOrder theme ds).nodup_iff, afterAll_printed]
  exact nodup_calls List.nodup_nil ds

theorem mem_printedRules {theme : Theme} {ds : List StyleDescription} {r : ClassRule}
    (h : r ∈ printedRules theme ds) : ∃ d ∈ ds, ∃ f, lower theme d = .ok f ∧ r ∈ f.classes := by
  obtain ⟨call, hcall, hr⟩ := List.mem_flatMap.1 h
  have hr := (Sheet.printed_perm call.sheet).mem_iff.1 hr
  obtain ⟨e, rfl⟩ | ⟨d, hd, f, sheet, hlower, hsheet, rfl⟩ := mem_calls hcall
  · cases hr
  · exact ⟨d, hd, f, hlower, hsheet.subset hr⟩

theorem mem_printOrder {theme : Theme} {d : StyleDescription} {f : RuleForest}
    (hd : lower theme d = .ok f) {ds : List StyleDescription} (hmem : d ∈ ds) {token : String}
    (ht : token ∈ f.tokens) : token ∈ printOrder theme ds := by
  have hd' : lower (new theme).theme d = .ok f := hd
  obtain ⟨j, call, style, hcall, hok, rfl⟩ := exists_call hd' hmem
  obtain hold | ⟨i, -, printer, hprinter, hsheet⟩ := printed_of_mem_tokens hcall hok ht
  · cases hold
  · exact List.mem_flatMap.2 ⟨printer, List.mem_of_getElem? hprinter,
      printer.printed_perm.mem_iff.2 hsheet⟩

/-- A unit starts with the rules of its first description. -/
theorem printOrder_cons {theme : Theme} {d : StyleDescription} {f : RuleForest}
    (h : lower theme d = .ok f) (ds : List StyleDescription) :
    ∃ first rest, printOrder theme (d :: ds) = first ++ rest ∧
      ∀ token, token ∈ first ↔ token ∈ f.tokens := by
  have h' : lower (new theme).theme d = .ok f := h
  rw [printOrder, calls_cons_ok h', List.flatMap_cons]
  refine ⟨_, _, rfl, fun token => ?_⟩
  rw [(Call.printed_perm _).mem_iff]
  constructor
  · intro ht
    exact ((CssEmitter.fresh_sublist _ f.classes).map _).subset ht
  · intro ht
    obtain ⟨r, hr, rfl⟩ := List.mem_map.1 ht
    have hprinted := CssEmitter.mem_fresh_printed (new theme).emitter hr
    rw [CssEmitter.fresh_printed] at hprinted
    exact hprinted

theorem idxOf_printOrder_lt {theme : Theme} {d : StyleDescription} {f : RuleForest}
    (h : lower theme d = .ok f) (ds : List StyleDescription) {token later : String}
    (ht : token ∈ f.tokens) (hl : later ∉ f.tokens) :
    (printOrder theme (d :: ds)).idxOf token < (printOrder theme (d :: ds)).idxOf later := by
  obtain ⟨first, rest, heq, hfirst⟩ := printOrder_cons h ds
  have hlt := List.idxOf_lt_length_of_mem ((hfirst token).2 ht)
  rw [heq, List.idxOf_append_of_mem ((hfirst token).2 ht),
    List.idxOf_append_of_notMem fun hmem => hl ((hfirst later).1 hmem)]
  omega

theorem nodup_printed {theme : Theme} {ds : List StyleDescription} {call : Call}
    (h : call ∈ (new theme).calls ds) : call.printed.Nodup := by
  have hnodup := nodup_printOrder theme ds
  rw [printOrder, List.nodup_flatMap] at hnodup
  exact hnodup.1 call h

/-- When a call prints a rule for a token, it is the only one, and it prints only
one. -/
theorem count_printed {theme : Theme} {ds : List StyleDescription} {i : Nat} {printer : Call}
    (hprinter : ((new theme).calls ds)[i]? = some printer) {token : String}
    (ht : token ∈ printer.sheet.map (·.token)) (k : Nat) {other : Call}
    (hother : ((new theme).calls ds)[k]? = some other) :
    other.printed.count token = if k = i then 1 else 0 := by
  split
  · rename_i hk
    rw [hk, hprinter, Option.some.injEq] at hother
    subst hother
    exact List.count_eq_one_of_mem (nodup_printed (List.mem_of_getElem? hprinter))
      (printer.printed_perm.mem_iff.2 ht)
  · rename_i hk
    refine List.count_eq_zero.2 fun hcount => hk ?_
    exact sheet_unique hprinter hother ht (other.printed_perm.mem_iff.1 hcount)

/-- A rule that is counted for a call has its line in what the call hands out. -/
theorem line_of_mem_sheet {c : StyleCompiler} {ds : List StyleDescription} {call : Call}
    (hcall : call ∈ c.calls ds) {r : ClassRule} (hr : r ∈ call.sheet) :
    ∃ style before after, call.answer = .ok style ∧ r ∈ style.rules.classes ∧
      style.css = before ++ (Sheet.Line.rule r).text c.theme ++ after := by
  have hwritten := written_call hcall
  obtain ⟨before, after, htext⟩ := hwritten.holds_rule ((Sheet.printed_perm _).mem_iff.2 hr)
  obtain ⟨e, rfl⟩ | ⟨d, -, f, sheet, -, hsheet, rfl⟩ := mem_calls hcall
  · cases hr
  · exact ⟨_, before, after, rfl, hsheet.subset hr, htext⟩

end StyleCompiler

/-- Every class that a style selects is a token of its forest. Of all calls of
the unit one prints a rule for it, and prints it once: the call that made the
style or an earlier one. This is said of the sheets that the calls hand out, line
by line. -/
theorem selected_class_printed_once (theme : Theme) (ds : List StyleDescription) {j : Nat}
    {call : Call} (hcall : ((StyleCompiler.new theme).calls ds)[j]? = some call)
    {style : CompiledStyle} (hok : call.answer = .ok style) (state : RenderState)
    {token : String} (ht : token ∈ Text.words (style.procedure.select state)) :
    token ∈ style.rules.tokens ∧
      ∃ i ≤ j,
        (∀ k other, ((StyleCompiler.new theme).calls ds)[k]? = some other →
          Sheet.Written theme other.css (Sheet.printed other.sheet) ∧
            other.printed.count token = if k = i then 1 else 0) ∧
        ∃ printer printed r before after,
          ((StyleCompiler.new theme).calls ds)[i]? = some printer ∧
          printer.answer = .ok printed ∧ r ∈ printed.rules.classes ∧ r.token = token ∧
          printed.css = before ++ (Sheet.Line.rule r).text theme ++ after := by
  obtain ⟨e, rfl⟩ | ⟨d, -, f, sheet, hlower, -, rfl⟩ :=
    StyleCompiler.mem_calls (List.mem_of_getElem? hcall)
  · cases hok
  · cases hok
    rw [SelectionProcedure.words_select hlower] at ht
    have htoken := SelectionProcedure.selected_subset f state ht
    obtain hold | ⟨i, hi, printer, hprinter, hmem⟩ :=
      StyleCompiler.printed_of_mem_tokens hcall rfl htoken
    · cases hold
    · obtain ⟨r, hr, rfl⟩ := List.mem_map.1 hmem
      have hline := StyleCompiler.line_of_mem_sheet (List.mem_of_getElem? hprinter) hr
      obtain ⟨printed, before, after, hprinted, hrule, htext⟩ := hline
      refine ⟨htoken, i, hi, fun k other hother => ⟨?_, ?_⟩, printer, printed, r, before, after,
        hprinter, hprinted, hrule, rfl, htext⟩
      · exact StyleCompiler.written_call (c := .new theme) (List.mem_of_getElem? hother)
      · exact StyleCompiler.count_printed hprinter hmem k hother

/-- Three calls, of which the second fails. -/
def smallUnit : List Call :=
  (StyleCompiler.new smallTheme).calls
    [.ofList [("display", .conditional [("dark", .literal (.text "flex"))])],
     .ofList [("display", .literal (.text "grid"))],
     .ofList [("display", .conditional
       [("default", .literal (.text "block")), ("dark", .literal (.text "flex"))])]]

/-- The third call selects a class that it has not printed itself. The first call has,
and the class has no rule in any other sheet. -/
theorem selected_class_printed_once_earlier :
    smallUnit.map Call.css =
      ["@layer _, _a, _b, _c;\n@layer _a \x7b\n  .dark & \x7b\n" ++
          "    .aab \x7b display: flex; \x7d\n  \x7d\n\x7d\n",
        "",
        "@layer _, _a, _b, _c;\n@layer _ \x7b\n  .aa \x7b display: block; \x7d\n\x7d\n"] ∧
      ∃ call style, smallUnit[2]? = some call ∧ call.answer = .ok style ∧
        "aab" ∈ Text.words (style.procedure.select .empty) ∧ "aab" ∈ style.rules.tokens ∧
        ∀ k other, smallUnit[k]? = some other →
          Sheet.Written smallTheme other.css (Sheet.printed other.sheet) ∧
            other.printed.count "aab" = if k = 0 then 1 else 0 := by
  obtain ⟨call, style, hcall, hok, ht⟩ :
      ∃ call style, smallUnit[2]? = some call ∧ call.answer = .ok style ∧
        "aab" ∈ Text.words (style.procedure.select .empty) :=
    ⟨_, _, rfl, rfl, by decide +kernel⟩
  obtain ⟨htoken, i, hi, hcalls, -⟩ :=
    selected_class_printed_once smallTheme _ hcall hok .empty ht
  have hfirst : i = 0 := by
    by_contra hne
    have hcount := (hcalls 0 _ rfl).2
    rw [if_neg (Ne.symm hne)] at hcount
    revert hcount
    decide +kernel
  subst hfirst
  exact ⟨by decide +kernel, call, style, hcall, hok, ht, htoken, hcalls⟩

end AtomicStyles
