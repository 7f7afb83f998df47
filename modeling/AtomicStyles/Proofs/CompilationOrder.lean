import Mathlib.Data.Set.Lattice
import AtomicStyles.Proofs.CompilationUnit
import AtomicStyles.Proofs.TokenIdentity

/-!
# The order of compilation

In which sheet a rule stands depends on the order of the calls: it is the sheet
of the first call that needs the rule. What all the sheets of a unit hold does
not depend on it, and neither does what a call answers apart from its sheet.

Both follow from saying what a unit prints without its calls. Its tokens are
those of the forests of its descriptions, each once, so they are settled by
which descriptions there are. A token stands for one rule as long as no two of
the hashed names and texts collide, so the rules are settled as well, whichever
call gets to print them. Where two of them do collide the number of rules is
still the same, but the first of the two rules is the one that is printed.
-/

namespace AtomicStyles

namespace StyleCompiler

section

variable {theme : Theme} {ds es : List StyleDescription}

theorem mem_printOrder_iff {token : String} :
    token ∈ printOrder theme ds ↔ ∃ d ∈ ds, ∃ f, lower theme d = .ok f ∧ token ∈ f.tokens := by
  constructor
  · intro h
    rw [← map_token_printedRules] at h
    obtain ⟨r, hr, rfl⟩ := List.mem_map.1 h
    obtain ⟨d, hd, f, hlower, hf⟩ := mem_printedRules hr
    exact ⟨d, hd, f, hlower, List.mem_map_of_mem hf⟩
  · rintro ⟨d, hd, f, hlower, htoken⟩
    exact mem_printOrder hlower hd htoken

theorem printOrder_perm (h : ∀ d, d ∈ ds ↔ d ∈ es) :
    (printOrder theme ds).Perm (printOrder theme es) := by
  refine (List.perm_ext_iff_of_nodup (nodup_printOrder theme ds) (nodup_printOrder theme es)).2 ?_
  intro token
  rw [mem_printOrder_iff, mem_printOrder_iff]
  simp only [h]

theorem count_afterAll (h : ∀ d, d ∈ ds ↔ d ∈ es) :
    ((new theme).afterAll ds).emitter.count = ((new theme).afterAll es).emitter.count := by
  rw [CssEmitter.count, CssEmitter.count, ← (perm_printOrder theme ds).length_eq,
    ← (perm_printOrder theme es).length_eq]
  exact (printOrder_perm h).length_eq

end

end StyleCompiler

/-! ## One rule for each token -/

section

variable {theme : Theme} {ds : List StyleDescription}

/-- All names, and all texts, that are hashed for a unit. -/
def unitNames (theme : Theme) (ds : List StyleDescription) : Set String :=
  ⋃ d ∈ ds, hashedNames theme d

def unitTexts (theme : Theme) (ds : List StyleDescription) : Set String :=
  ⋃ d ∈ ds, hashedTexts theme d

theorem injOn_names {d e : StyleDescription} (h : Set.InjOn hash32 (unitNames theme ds))
    (hd : d ∈ ds) (he : e ∈ ds) :
    Set.InjOn hash32 (hashedNames theme d ∪ hashedNames theme e) :=
  h.mono (Set.union_subset (Set.subset_biUnion_of_mem (u := hashedNames theme) hd)
    (Set.subset_biUnion_of_mem (u := hashedNames theme) he))

namespace Lowering

/-- A class rule that a unit can print, with the setting, the text and the fragment
that it is made from. -/
structure MadeFrom (theme : Theme) (ds : List StyleDescription) (d : StyleDescription)
    (s : Target × StyleValue) (css : String) (fragment : Code.Fragment) (r : ClassRule) :
    Prop where
  description : d ∈ ds
  setting : s ∈ Meaning.allSettings theme d
  marks : PropertyDefinition.Marks s.1.listed? css fragment
  hashed : fragment = .ofText css → css ∈ unitTexts theme ds
  token : r.token = Code.token s.1.key.unit r.conditions fragment
  declarations : r.declarations = s.1.declare css

theorem exists_madeFrom {d : StyleDescription} (hd : d ∈ ds) {f : RuleForest}
    (hf : lower theme d = .ok f) {r : ClassRule} (hr : r ∈ f.classes) :
    ∃ s css fragment, MadeFrom theme ds d s css fragment r := by
  obtain ⟨s, hs, hfrom⟩ := mem_classes_lowered hf hr
  obtain ⟨name, tree, leaf, css, fragment, htree, hleaf, hvalue, htoken, hdeclarations⟩ :=
    hfrom.exists_value
  refine ⟨s, css, fragment, hd, hs, Target.value_marks hvalue, ?_, htoken, hdeclarations⟩
  intro hhash
  rw [hhash] at hvalue
  exact Set.mem_biUnion hd ⟨s, hs, name, tree, leaf, htree, hleaf, hvalue⟩

/-- In a unit whose hashes do not collide, a token stands for one rule. -/
theorem MadeFrom.eq_of_token (hnames : Set.InjOn hash32 (unitNames theme ds))
    (htexts : Set.InjOn hash32 (unitTexts theme ds)) {d e : StyleDescription}
    {s t : Target × StyleValue} {css css' : String} {fragment fragment' : Code.Fragment}
    {r q : ClassRule} (h : MadeFrom theme ds d s css fragment r)
    (h' : MadeFrom theme ds e t css' fragment' q) (htoken : r.token = q.token) : r = q := by
  have hparts := htoken
  rw [h.token, h'.token] at hparts
  obtain ⟨hkey, hconditions, rfl⟩ := Code.token_injective hparts
  obtain ⟨hdeclare, hlisted⟩ := declare_eq_of_key_eq h.setting h'.setting
    (injOn_names hnames h.description h'.description) hkey
  -- a position stands for one text of the property; a hash might stand for two
  have hcss : css = css' := by
    refine h.marks.text_eq (hlisted ▸ h'.marks) fun hhash hhash' => ?_
    exact htexts (h.hashed hhash) (h'.hashed hhash')
      (Code.Fragment.hashed.inj (hhash.symm.trans hhash'))
  show ClassRule.mk r.token r.conditions r.declarations = q
  rw [htoken, hconditions, h.declarations, hdeclare, hcss, ← h'.declarations]

end Lowering

namespace StyleCompiler

/-- A unit whose hashes do not collide prints the rules of the forests of its
descriptions. -/
theorem mem_printedRules_iff (hnames : Set.InjOn hash32 (unitNames theme ds))
    (htexts : Set.InjOn hash32 (unitTexts theme ds)) {r : ClassRule} :
    r ∈ printedRules theme ds ↔ ∃ d ∈ ds, ∃ f, lower theme d = .ok f ∧ r ∈ f.classes := by
  constructor
  · exact mem_printedRules
  · rintro ⟨d, hd, f, hf, hr⟩
    -- some rule is printed for the token, by whichever call came first
    have htoken := mem_printOrder hf hd (List.mem_map_of_mem hr)
    rw [← map_token_printedRules] at htoken
    obtain ⟨q, hq, htoken⟩ := List.mem_map.1 htoken
    obtain ⟨e, he, g, hg, hq'⟩ := mem_printedRules hq
    obtain ⟨s, css, fragment, hfrom⟩ := Lowering.exists_madeFrom hd hf hr
    obtain ⟨t, css', fragment', hfrom'⟩ := Lowering.exists_madeFrom he hg hq'
    rw [← hfrom'.eq_of_token hnames htexts hfrom htoken]
    exact hq

theorem nodup_printedRules (theme : Theme) (ds : List StyleDescription) :
    (printedRules theme ds).Nodup := by
  have hnodup := nodup_printOrder theme ds
  rw [← map_token_printedRules] at hnodup
  exact hnodup.of_map

end StyleCompiler

end

/-- A permutation of the calls of a unit changes which sheet a rule stands in and
nothing else. All sheets together hold the rules of all forests in either order, the
unit counts as many, and each description gets the same forest and procedure. -/
theorem compilation_order_irrelevant (theme : Theme) {ds es : List StyleDescription}
    (h : ds.Perm es) :
    (Set.InjOn hash32 (unitNames theme ds) → Set.InjOn hash32 (unitTexts theme ds) →
      (StyleCompiler.printedRules theme ds).Perm (StyleCompiler.printedRules theme es) ∧
      ∀ r, r ∈ StyleCompiler.printedRules theme ds ↔
        ∃ d ∈ ds, ∃ f, lower theme d = .ok f ∧ r ∈ f.classes) ∧
    ((StyleCompiler.new theme).afterAll ds).emitter.count =
      ((StyleCompiler.new theme).afterAll es).emitter.count ∧
    ∀ (i j : Nat) (d : StyleDescription) (f : RuleForest), ds[i]? = some d → es[j]? = some d →
      lower theme d = .ok f → ∃ sheet sheet',
        ((StyleCompiler.new theme).calls ds)[i]? =
          some ⟨.ok ⟨Sheet.text theme sheet, .ofForest f, f⟩, sheet⟩ ∧
        ((StyleCompiler.new theme).calls es)[j]? =
          some ⟨.ok ⟨Sheet.text theme sheet', .ofForest f, f⟩, sheet'⟩ := by
  have hmem : ∀ d, d ∈ ds ↔ d ∈ es := fun d => h.mem_iff
  refine ⟨?_, StyleCompiler.count_afterAll hmem, ?_⟩
  · intro hnames htexts
    have hnames' : Set.InjOn hash32 (unitNames theme es) := by
      simpa only [unitNames, hmem] using hnames
    have htexts' : Set.InjOn hash32 (unitTexts theme es) := by
      simpa only [unitTexts, hmem] using htexts
    refine ⟨?_, fun r => StyleCompiler.mem_printedRules_iff hnames htexts⟩
    refine (List.perm_ext_iff_of_nodup (StyleCompiler.nodup_printedRules theme ds)
      (StyleCompiler.nodup_printedRules theme es)).2 fun r => ?_
    rw [StyleCompiler.mem_printedRules_iff hnames htexts,
      StyleCompiler.mem_printedRules_iff hnames' htexts']
    simp only [hmem]
  · intro i j d f hi hj hf
    obtain ⟨sheet, hsheet⟩ := StyleCompiler.call_of_getElem? (c := .new theme) hi hf
    obtain ⟨sheet', hsheet'⟩ := StyleCompiler.call_of_getElem? (c := .new theme) hj hf
    exact ⟨sheet, sheet', hsheet, hsheet'⟩

/-- A raw custom property and a typed one with the same text. -/
def rawTint : StyleDescription := .ofList [("--c", .literal (.text "red"))]

def typedTint : StyleDescription :=
  .ofList [("--c", .conditional
    [("type", .literal (.text "tint")), ("value", .literal (.text "brand"))])]

/-- The two share a class, which the first call prints in either order. -/
theorem compilation_order_irrelevant_shared :
    (StyleCompiler.printedRules tintTheme [rawTint, typedTint]).Perm
        (StyleCompiler.printedRules tintTheme [typedTint, rawTint]) ∧
      ((StyleCompiler.new tintTheme).afterAll [rawTint, typedTint]).emitter.count = 1 ∧
      ((StyleCompiler.new tintTheme).afterAll [typedTint, rawTint]).emitter.count = 1 ∧
      ∃ f sheet sheet',
        ((StyleCompiler.new tintTheme).calls [rawTint, typedTint])[0]? =
          some ⟨.ok ⟨Sheet.text tintTheme sheet, .ofForest f, f⟩, sheet⟩ ∧
        ((StyleCompiler.new tintTheme).calls [typedTint, rawTint])[1]? =
          some ⟨.ok ⟨Sheet.text tintTheme sheet', .ofForest f, f⟩, sheet'⟩ := by
  have hraw : Meaning.allSettings tintTheme rawTint =
      [(.raw "--c", .literal (.text "red"))] := rfl
  have htyped : Meaning.allSettings tintTheme typedTint =
      [(.typed "--c" "tint" (.ofValues [("brand", "red")]), .literal (.text "brand"))] := rfl
  have hnames : unitNames tintTheme [rawTint, typedTint] ⊆ {"--c"} := by
    refine Set.iUnion₂_subset (List.forall_mem_cons.2 ⟨hashedNames_single hraw rfl, ?_⟩)
    exact List.forall_mem_singleton.2 (hashedNames_single htyped rfl)
  have htexts : unitTexts tintTheme [rawTint, typedTint] ⊆ {"red"} := by
    refine Set.iUnion₂_subset (List.forall_mem_cons.2 ⟨hashedTexts_literal hraw rfl, ?_⟩)
    exact List.forall_mem_singleton.2 (hashedTexts_literal htyped rfl)
  obtain ⟨hprints, hcount, hcalls⟩ :=
    compilation_order_irrelevant tintTheme (List.Perm.swap typedTint rawTint [])
  have hone : ((StyleCompiler.new tintTheme).afterAll [rawTint, typedTint]).emitter.count = 1 := by
    decide +kernel
  exact ⟨(hprints ((Set.injOn_singleton hash32 "--c").mono hnames)
    ((Set.injOn_singleton hash32 "red").mono htexts)).1, hone, hcount ▸ hone,
    _, hcalls 0 1 rawTint _ rfl rfl rfl⟩

end AtomicStyles
