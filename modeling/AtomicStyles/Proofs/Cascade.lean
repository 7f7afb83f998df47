import Mathlib.Data.Finset.Max
import Mathlib.Data.Prod.Lex
import AtomicStyles.Proofs.CompilationUnit
import AtomicStyles.Proofs.SingleClass

/-!
# Which class wins

A style may select several classes of one property, and of those whose theme
conditions hold the browser takes one: that in the layer declared last, and
within the layer the one whose rule stands last in the text. The first half of
this depends on the style alone. The second half depends on what the unit has
compiled before, since a rule stays where it was printed first.

So the layer of the winner is the same in every unit that compiles the style.
The winner itself is the same in every unit exactly when its layer holds no
other contender. When it holds two, a unit that has met the winner alone before
prints it first, and it loses.
-/

namespace AtomicStyles

/-- A class with the theme conditions that it stands under. -/
structure Contender where
  token : String
  conditions : List ConditionId
  deriving DecidableEq

/-! ## Layers -/

theorem layerName_injective {a b : Option ConditionId} (h : layerName a = layerName b) :
    a = b := by
  have hunits := congrArg String.toList h
  rw [layerName.eq_def, layerName.eq_def, String.toList_append, String.toList_append,
    List.append_cancel_left_eq] at hunits
  cases a with
  | none =>
      cases b with
      | none => rfl
      | some id => simp [Code.ordinalUnit] at hunits
  | some id =>
      cases b with
      | none => simp [Code.ordinalUnit] at hunits
      | some id' =>
          rw [String.toList_ofList, String.toList_ofList] at hunits
          rw [Code.ordinalUnit_injective hunits]

/-- A theme declares every layer once. -/
theorem Theme.layerNames_nodup (theme : Theme) : theme.layerNames.Nodup := by
  refine List.nodup_cons.2 ⟨fun h => ?_, ?_⟩
  · obtain ⟨id, -, hid⟩ := List.mem_map.1 h
    cases layerName_injective hid
  · exact List.Nodup.map (fun _ _ h => Option.some.inj (layerName_injective h)) List.nodup_range

/-- The base layer comes first, and then the layers of the conditions in
order. -/
theorem Theme.idxOf_layerName {theme : Theme} {condition : Option ConditionId}
    (h : ∀ id ∈ condition, id < theme.preludes.length) :
    theme.layerNames.idxOf (layerName condition) = (condition.map (· + 1)).getD 0 := by
  have position : ∀ i (hi : i < theme.layerNames.length),
      theme.layerNames.idxOf theme.layerNames[i] = i :=
    fun i hi => List.Nodup.idxOf_getElem theme.layerNames_nodup i hi
  have hlength : theme.layerNames.length = theme.preludes.length + 1 := by
    simp [Theme.layerNames]
  cases condition with
  | none => exact position 0 (by omega)
  | some id =>
      have hid : id + 1 < theme.layerNames.length := by
        rw [hlength]
        exact Nat.succ_lt_succ (h id rfl)
      have hget : theme.layerNames[id + 1] = layerName (some id) := by
        simp [Theme.layerNames]
      rw [← hget, position]
      rfl

namespace Contender

/-- The position of the layer of a class among the declared layers. -/
def layer (theme : Theme) (c : Contender) : Nat :=
  theme.layerNames.idxOf (layerName c.conditions.getLast?)

/-- The class wins over the other, given the printed tokens in the order of the
text. -/
def Beats (theme : Theme) (printed : List String) (c other : Contender) : Prop :=
  other.layer theme < c.layer theme ∨
    other.layer theme = c.layer theme ∧ printed.idxOf other.token < printed.idxOf c.token

/-- The class is a contender and wins over all others. -/
def Wins (theme : Theme) (printed : List String) (contenders : List Contender)
    (c : Contender) : Prop :=
  c ∈ contenders ∧ ∀ other ∈ contenders, other ≠ c → c.Beats theme printed other

instance (theme : Theme) (printed : List String) (c other : Contender) :
    Decidable (c.Beats theme printed other) :=
  inferInstanceAs (Decidable (_ ∨ _))

instance (theme : Theme) (printed : List String) (contenders : List Contender) (c : Contender) :
    Decidable (Wins theme printed contenders c) :=
  inferInstanceAs (Decidable (_ ∧ _))

/-- No two contenders share the strongest layer among them. -/
def OneOnTop (theme : Theme) (contenders : List Contender) : Prop :=
  ∀ c ∈ contenders, ∀ other ∈ contenders, (∀ x ∈ contenders, x.layer theme ≤ c.layer theme) →
    other.layer theme = c.layer theme → other = c

instance (theme : Theme) (contenders : List Contender) :
    Decidable (OneOnTop theme contenders) :=
  inferInstanceAs (Decidable (∀ c ∈ contenders, _))

/-! ## Winning as such -/

section

variable {theme : Theme} {printed : List String} {contenders : List Contender}

theorem Beats.layer_le {c other : Contender} (h : c.Beats theme printed other) :
    other.layer theme ≤ c.layer theme := by
  rcases h with hlt | ⟨heq, -⟩
  · exact Nat.le_of_lt hlt
  · exact Nat.le_of_eq heq

theorem Beats.asymm {c other : Contender} (h : c.Beats theme printed other) :
    ¬ other.Beats theme printed c := by
  rintro (hlt | ⟨hlayer, hpos⟩)
  · exact absurd h.layer_le (Nat.not_le.2 hlt)
  · rcases h with hlt | ⟨-, hpos'⟩
    · omega
    · omega

theorem Wins.layer_le {c : Contender} (h : Wins theme printed contenders c) :
    ∀ other ∈ contenders, other.layer theme ≤ c.layer theme := by
  intro other hother
  by_cases heq : other = c
  · rw [heq]
  · exact (h.2 other hother heq).layer_le

theorem Wins.unique {c c' : Contender} (h : Wins theme printed contenders c)
    (h' : Wins theme printed contenders c') : c' = c := by
  by_contra hne
  exact (h.2 c' h'.1 hne).asymm (h'.2 c h.1 fun heq => hne heq.symm)

/-- When all contenders are printed and no two share a token, one of them
wins. -/
theorem exists_wins (hne : contenders ≠ []) (hprinted : ∀ c ∈ contenders, c.token ∈ printed)
    (hdistinct : ∀ c ∈ contenders, ∀ c' ∈ contenders, c.token = c'.token → c = c') :
    ∃ c, Wins theme printed contenders c := by
  -- the cascade compares layers first and places in the text second
  let place : Contender → ℕ ×ₗ ℕ := fun c => toLex (c.layer theme, printed.idxOf c.token)
  have hnonempty : contenders.toFinset.Nonempty := by
    rw [List.toFinset_nonempty_iff]
    exact hne
  obtain ⟨c, hc, hmax⟩ := Finset.exists_max_image contenders.toFinset place hnonempty
  have hc := List.mem_toFinset.1 hc
  refine ⟨c, hc, fun other hother hdiff => ?_⟩
  have hle := hmax other (List.mem_toFinset.2 hother)
  rcases Prod.Lex.le_iff.1 hle with hlt | ⟨heq, hpos⟩
  · exact .inl hlt
  · refine .inr ⟨heq, Nat.lt_of_le_of_ne hpos fun hsame => hdiff ?_⟩
    exact hdistinct other hother c hc
      ((List.idxOf_inj (hprinted other hother)).1 hsame)

/-- A winner that is alone in its layer wins in every text. -/
theorem Wins.of_oneOnTop {printed' : List String} {c : Contender}
    (h : Wins theme printed contenders c) (hone : OneOnTop theme contenders) :
    Wins theme printed' contenders c := by
  refine ⟨h.1, fun other hother hne => .inl ?_⟩
  refine Nat.lt_of_le_of_ne (h.layer_le other hother) fun hlayer => hne ?_
  exact hone c h.1 other hother h.layer_le hlayer

end

end Contender

/-! ## The contenders of a style -/

/-- The classes that compete for a property: those that the style selects, that
have the unit of the property, and whose theme conditions all hold. -/
def contenders (f : RuleForest) (state : RenderState) (unit : String)
    (active : ConditionId → Bool) : List Contender :=
  (f.classes.map fun r => ⟨r.token, r.conditions⟩).filter fun c =>
    (Text.words ((SelectionProcedure.ofForest f).select state)).contains c.token
      && Code.propertyUnit? c.token == some unit && c.conditions.all active

section

variable {theme : Theme} {d : StyleDescription} {f : RuleForest} {state : RenderState}
  {unit : String} {active : ConditionId → Bool}

theorem exists_rule_of_contender {c : Contender} (h : c ∈ contenders f state unit active) :
    ∃ r ∈ f.classes, c = ⟨r.token, r.conditions⟩ ∧ Code.propertyUnit? r.token = some unit := by
  obtain ⟨hmem, hcond⟩ := List.mem_filter.1 h
  obtain ⟨r, hr, rfl⟩ := List.mem_map.1 hmem
  simp only [Bool.and_eq_true, beq_iff_eq] at hcond
  exact ⟨r, hr, rfl, hcond.1.2⟩

theorem token_mem_of_contender {c : Contender} (h : c ∈ contenders f state unit active) :
    c.token ∈ f.tokens := by
  obtain ⟨r, hr, rfl, -⟩ := exists_rule_of_contender h
  exact List.mem_map.2 ⟨r, hr, rfl⟩

/-- The token of a class says what conditions it stands under. -/
theorem conditions_eq_of_token_eq {e : StyleDescription} {g : RuleForest}
    (hd : lower theme d = .ok f) (he : lower theme e = .ok g) {r s : ClassRule}
    (hr : r ∈ f.classes) (hs : s ∈ g.classes) (htoken : r.token = s.token) :
    r.conditions = s.conditions := by
  obtain ⟨a, -, hfrom⟩ := Lowering.mem_classes_lowered hd hr
  obtain ⟨b, -, hfrom'⟩ := Lowering.mem_classes_lowered he hs
  obtain ⟨value, hvalue⟩ := hfrom.token_eq
  obtain ⟨value', hvalue'⟩ := hfrom'.token_eq
  rw [hvalue, hvalue'] at htoken
  exact (Code.token_injective htoken).2.1

theorem contender_eq_of_token_eq (hd : lower theme d = .ok f) :
    ∀ c ∈ contenders f state unit active, ∀ c' ∈ contenders f state unit active,
      c.token = c'.token → c = c' := by
  intro c hc c' hc' htoken
  obtain ⟨r, hr, rfl, -⟩ := exists_rule_of_contender hc
  obtain ⟨r', hr', rfl, -⟩ := exists_rule_of_contender hc'
  have hconditions := conditions_eq_of_token_eq hd hd hr hr' htoken
  dsimp only at htoken
  rw [htoken, hconditions]

/-- A contender wins in the sheets of a unit. -/
def WinsIn (theme : Theme) (ds : List StyleDescription) (contenders : List Contender)
    (c : Contender) : Prop :=
  Contender.Wins theme (StyleCompiler.printOrder theme ds) contenders c

instance (theme : Theme) (ds : List StyleDescription) (contenders : List Contender)
    (c : Contender) : Decidable (WinsIn theme ds contenders c) :=
  inferInstanceAs (Decidable (Contender.Wins _ _ _ _))

theorem existsUnique_winsIn (hd : lower theme d = .ok f) {ds : List StyleDescription}
    (hmem : d ∈ ds) (hne : contenders f state unit active ≠ []) :
    ∃! c, WinsIn theme ds (contenders f state unit active) c := by
  obtain ⟨c, hc⟩ : ∃ c, WinsIn theme ds (contenders f state unit active) c :=
    Contender.exists_wins hne
      (fun c hc => StyleCompiler.mem_printOrder hd hmem (token_mem_of_contender hc))
      (contender_eq_of_token_eq hd)
  exact ⟨c, hc, fun c' hc' => Contender.Wins.unique hc hc'⟩

/-- The printed classes of a unit are those of the rules in its text, in the order of
the text, each once. Among these is a rule for each contender, and it stands under the
same conditions, so in the layer of the contender. -/
structure Placed (theme : Theme) (ds : List StyleDescription) (contenders : List Contender) :
    Prop where
  written : Sheet.Written theme (StyleCompiler.unitText theme ds)
    (StyleCompiler.printedRules theme ds)
  order : StyleCompiler.printOrder theme ds =
    (StyleCompiler.printedRules theme ds).map (·.token)
  once : (StyleCompiler.printOrder theme ds).Nodup
  rule : ∀ c ∈ contenders, ∃ r ∈ StyleCompiler.printedRules theme ds,
    r.token = c.token ∧ r.conditions = c.conditions

theorem placed (hd : lower theme d = .ok f) {ds : List StyleDescription} (hmem : d ∈ ds) :
    Placed theme ds (contenders f state unit active) where
  written := StyleCompiler.written_unitText theme ds
  order := (StyleCompiler.map_token_printedRules theme ds).symm
  once := StyleCompiler.nodup_printOrder theme ds
  rule c hc := by
    have hprinted := StyleCompiler.mem_printOrder hd hmem (token_mem_of_contender hc)
    rw [← StyleCompiler.map_token_printedRules] at hprinted
    obtain ⟨r, hr, htoken⟩ := List.mem_map.1 hprinted
    -- whichever description the rule was printed for, the token settles its conditions
    obtain ⟨e, -, g, he, hg⟩ := StyleCompiler.mem_printedRules hr
    obtain ⟨s, hs, rfl, -⟩ := exists_rule_of_contender hc
    exact ⟨r, hr, htoken, conditions_eq_of_token_eq he hd hg hs htoken⟩

/-- The forest gives the class, and no other class of the property. -/
def GivesOnly (g : RuleForest) (unit token : String) : Prop :=
  token ∈ g.tokens ∧ ∀ t ∈ g.tokens, Code.propertyUnit? t = some unit → t = token

theorem exists_givesOnly (hd : lower theme d = .ok f) {c : Contender}
    (hc : c ∈ contenders f state unit active) :
    ∃ e g, lower theme e = .ok g ∧ GivesOnly g unit c.token := by
  obtain ⟨r, hr, rfl, hunit⟩ := exists_rule_of_contender hc
  obtain ⟨e, g, he, hmem, halone⟩ := exists_single hd hr
  refine ⟨e, g, he, List.mem_map_of_mem hmem, fun t ht htunit => ?_⟩
  obtain ⟨s, hs, rfl⟩ := List.mem_map.1 ht
  rw [halone s hs (htunit.trans hunit.symm)]

/-- A contender loses to another in its layer when the unit has met it alone
before. -/
theorem not_winsIn_of_givesOnly (hd : lower theme d = .ok f) {c other : Contender}
    (hc : c ∈ contenders f state unit active) (hother : other ∈ contenders f state unit active)
    (hne : other ≠ c) (hlayer : other.layer theme = c.layer theme) {e : StyleDescription}
    {g : RuleForest} (he : lower theme e = .ok g) (honly : GivesOnly g unit c.token)
    (ds : List StyleDescription) :
    ¬ WinsIn theme (e :: ds) (contenders f state unit active) c := by
  obtain ⟨hfirst, honly⟩ := honly
  have hlater : other.token ∉ g.tokens := by
    intro h
    obtain ⟨s, -, rfl, hunit⟩ := exists_rule_of_contender hother
    have htoken := honly s.token h hunit
    exact hne (contender_eq_of_token_eq hd _ hother c hc htoken)
  intro hwins
  have hpos := StyleCompiler.idxOf_printOrder_lt he ds hfirst hlater
  rcases hwins.2 other hother hne with hlt | ⟨-, hlt⟩
  · omega
  · omega

/-- If the same contender wins wherever the style is compiled, it has its layer to
itself. -/
theorem oneOnTop_of_winsIn (hd : lower theme d = .ok f)
    (hsame : ∀ ds es, d ∈ ds → d ∈ es → ∀ c,
      WinsIn theme ds (contenders f state unit active) c →
      WinsIn theme es (contenders f state unit active) c) :
    Contender.OneOnTop theme (contenders f state unit active) := by
  intro c hc other hother htop hlayer
  by_contra hne
  -- the winner of the style on its own shares the layer with one of the two
  have halone : d ∈ [d] := List.mem_singleton.2 rfl
  obtain ⟨w, hw, -⟩ := existsUnique_winsIn hd halone (List.ne_nil_of_mem hc)
  have hwlayer : w.layer theme = c.layer theme :=
    Nat.le_antisymm (htop w hw.1) (Contender.Wins.layer_le hw c hc)
  obtain ⟨rival, hrival, hdiff, hequal⟩ :
      ∃ rival ∈ contenders f state unit active, rival ≠ w ∧
        rival.layer theme = w.layer theme := by
    by_cases hcw : c = w
    · exact ⟨other, hother, hcw ▸ hne, hlayer.trans hwlayer.symm⟩
    · exact ⟨c, hc, hcw, hwlayer.symm⟩
  obtain ⟨e, g, he, honly⟩ := exists_givesOnly hd hw.1
  have hloses := not_winsIn_of_givesOnly hd hw.1 hrival hdiff hequal he honly [d]
  exact hloses (hsame [d] [e, d] halone (by simp) w hw)

end

/-- In every unit that compiles a style the order of the printed classes is that of
their rules in the text. The unit has one winner among the contenders of the style, and
the winner is always in the same layer. It is the same class in all units exactly
when no two contenders share that layer. A contender that shares its layer with
another loses in every unit that first compiles something that gives it and no other
class of the property, and there always is such a description. -/
theorem winner_of_history {theme : Theme} {d : StyleDescription} {f : RuleForest}
    (hd : lower theme d = .ok f) (state : RenderState) (unit : String)
    (active : ConditionId → Bool) :
    (∀ ds, d ∈ ds → Placed theme ds (contenders f state unit active)) ∧
    (∀ ds, d ∈ ds → contenders f state unit active ≠ [] →
      ∃! c, WinsIn theme ds (contenders f state unit active) c) ∧
    (∀ ds es, d ∈ ds → d ∈ es → ∀ c c',
      WinsIn theme ds (contenders f state unit active) c →
      WinsIn theme es (contenders f state unit active) c' →
      c'.layer theme = c.layer theme) ∧
    ((∀ ds es, d ∈ ds → d ∈ es → ∀ c,
      WinsIn theme ds (contenders f state unit active) c →
      WinsIn theme es (contenders f state unit active) c) ↔
      Contender.OneOnTop theme (contenders f state unit active)) ∧
    ∀ c ∈ contenders f state unit active, ∀ other ∈ contenders f state unit active,
      other ≠ c → other.layer theme = c.layer theme →
      (∃ e g, lower theme e = .ok g ∧ GivesOnly g unit c.token) ∧
      ∀ e g, lower theme e = .ok g → GivesOnly g unit c.token → ∀ ds, d ∈ ds →
        ¬ WinsIn theme (e :: ds) (contenders f state unit active) c := by
  refine ⟨fun ds hds => placed hd hds, fun ds hds hne => existsUnique_winsIn hd hds hne, ?_,
    ⟨oneOnTop_of_winsIn hd, ?_⟩, ?_⟩
  · intro ds es _ _ c c' hc hc'
    exact Nat.le_antisymm (Contender.Wins.layer_le hc c' hc'.1)
      (Contender.Wins.layer_le hc' c hc.1)
  · intro hone ds es _ _ c hc
    exact Contender.Wins.of_oneOnTop hc hone
  · intro c hc other hother hne hlayer
    refine ⟨exists_givesOnly hd hc, fun e g he honly ds _ => ?_⟩
    exact not_winsIn_of_givesOnly hd hc hother hne hlayer he honly ds

/-- A fallback, and a value under one condition. -/
def blockOrFlex : StyleDescription :=
  .ofList [("display", .conditional
    [("default", .literal (.text "block")), ("dark", .literal (.text "flex"))])]

/-- The two are in different layers, so the same class wins in every unit. In a new
unit their rules stand one after the other. -/
theorem winner_of_history_fallback :
    ∃ f, lower smallTheme blockOrFlex = .ok f ∧
      (contenders f .empty "a" fun _ => true) = [⟨"aa", []⟩, ⟨"aab", [0]⟩] ∧
      StyleCompiler.unitText smallTheme [blockOrFlex] =
        "@layer _, _a, _b, _c;\n@layer _ \x7b\n  .aa \x7b display: block; \x7d\n\x7d\n" ++
          "@layer _a \x7b\n  .dark & \x7b\n    .aab \x7b display: flex; \x7d\n  \x7d\n\x7d\n" ∧
      StyleCompiler.printOrder smallTheme [blockOrFlex] = ["aa", "aab"] ∧
      Placed smallTheme [blockOrFlex] (contenders f .empty "a" fun _ => true) ∧
      ∀ ds es, blockOrFlex ∈ ds → blockOrFlex ∈ es → ∀ c,
        WinsIn smallTheme ds (contenders f .empty "a" fun _ => true) c →
        WinsIn smallTheme es (contenders f .empty "a" fun _ => true) c := by
  obtain ⟨f, hd, hcontenders⟩ :
      ∃ f, lower smallTheme blockOrFlex = .ok f ∧
        (contenders f .empty "a" fun _ => true) = [⟨"aa", []⟩, ⟨"aab", [0]⟩] :=
    ⟨_, rfl, by decide +kernel⟩
  obtain ⟨hplaced, -, -, hsame, -⟩ := winner_of_history hd .empty "a" fun _ => true
  refine ⟨f, hd, hcontenders, by decide +kernel, by decide +kernel,
    hplaced _ (List.mem_singleton_self _), hsame.2 ?_⟩
  rw [hcontenders]
  decide +kernel

/-- Two values under two conditions each share the layer of `hover`. Compiled in a
new unit, the style shows the second. A unit that has compiled the second alone
before shows the first. -/
theorem winner_differs_between_units :
    ∃ d e f, smallDraft.build = .ok smallTheme ∧ lower smallTheme d = .ok f ∧
      WinsIn smallTheme [d] (contenders f .empty "a" fun _ => true) ⟨"abcb", [1, 2]⟩ ∧
      ¬ WinsIn smallTheme [e, d] (contenders f .empty "a" fun _ => true) ⟨"abcb", [1, 2]⟩ ∧
      WinsIn smallTheme [e, d] (contenders f .empty "a" fun _ => true) ⟨"aaca", [0, 2]⟩ :=
  ⟨.ofList [("display", .conditional
      [("dark", .conditional [("hover", .literal (.text "block"))]),
       ("wide", .conditional [("hover", .literal (.text "flex"))])])],
    .ofList [("display", .conditional
      [("wide", .conditional [("hover", .literal (.text "flex"))])])],
    _, smallDraft_build, rfl, by decide +kernel, by decide +kernel, by decide +kernel⟩

end AtomicStyles
