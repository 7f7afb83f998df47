import Mathlib
import AtomicStyles.Css.Declaration

/-!
# Hyphens in property names

A theme names its properties in camel case, and CSS has hyphens where the capitals
are. What makes a hyphen is a small letter with a capital behind it. There a name is cut
into words, every word begins small, and the words are joined with hyphens
(`hyphenate_word`).

A capital that follows another one starts no word, and it stays. So a name is the one
with a hyphen for every capital only where no two capitals stand side by side. Of a run
of capitals the second comes to follow a small letter, since the first has been made
small, and a second pass changes the name again.

That closes a circle, which is the main statement, `camel_name_hyphenated`: names whose
capitals stand alone, names that come out right, names that come out without capitals
and names that come out for good are the same names.
-/

namespace AtomicStyles.Css

/-- The name with a hyphen and the small letter for every capital. -/
def kebab (cs : List Char) : List Char :=
  cs.flatMap fun c => if c.isUpper then ['-', c.toLower] else [c]

/-- No two capitals stand side by side. -/
def LoneCapitals (cs : List Char) : Prop :=
  cs.IsChain fun c d => ¬ (c.isUpper ∧ d.isUpper)

instance (cs : List Char) : Decidable (LoneCapitals cs) :=
  inferInstanceAs (Decidable (cs.IsChain fun c d => ¬ (c.isUpper ∧ d.isUpper)))

/-- Whether the second character belongs to the word that the first one is in. -/
def inWord (c d : Char) : Bool := !(c.isLower && d.isUpper)

/-- The words of a camel-cased name. -/
def camelWords (cs : List Char) : List (List Char) := cs.splitBy inWord

/-- The word with its first letter small. -/
def uncapitalized : List Char → List Char
  | [] => []
  | c :: cs => c.toLower :: cs

/-! ## Letters -/

theorem isLower_of_isAlpha {c : Char} (h : c.isAlpha) (hc : ¬ c.isUpper) : c.isLower := by
  simpa [Char.isAlpha, hc] using h

theorem ne_hyphen_of_isAlpha {c : Char} (h : c.isAlpha) : c ≠ '-' := by
  rintro rfl
  exact absurd h (by decide)

/-! ## One character -/

theorem hyphenate_capital {c : Char} (h : c.isUpper) (cs : List Char) :
    hyphenate true (c :: cs) = '-' :: c.toLower :: hyphenate c.isLower cs := by
  rw [hyphenate, if_pos (by simpa using h)]

theorem hyphenate_kept {afterSmall : Bool} {c : Char} (h : ¬ (afterSmall ∧ c.isUpper))
    (cs : List Char) : hyphenate afterSmall (c :: cs) = c :: hyphenate c.isLower cs := by
  rw [hyphenate, if_neg (by simpa using h)]

theorem kebab_capital {c : Char} (h : c.isUpper) (cs : List Char) :
    kebab (c :: cs) = '-' :: c.toLower :: kebab cs := by
  rw [kebab, List.flatMap_cons, if_pos h]
  rfl

theorem kebab_kept {c : Char} (h : ¬ c.isUpper) (cs : List Char) :
    kebab (c :: cs) = c :: kebab cs := by
  rw [kebab, List.flatMap_cons, if_neg h]
  rfl

/-! ## Words -/

theorem camelWords_cut {c d : Char} (hc : c.isLower) (hd : d.isUpper) (cs : List Char) :
    camelWords (c :: d :: cs) = [c] :: camelWords (d :: cs) := by
  have hcut : ∀ x ∈ [c].getLast?, inWord x d = false := by
    simp [inWord, hc, hd]
  exact List.splitBy_append_cons (l := [c]) cs hcut

theorem camelWords_grow {c d : Char} (h : ¬ (c.isLower ∧ d.isUpper)) {word cs : List Char}
    {words : List (List Char)} (hwords : camelWords (d :: cs) = (d :: word) :: words) :
    camelWords (c :: d :: cs) = (c :: d :: word) :: words := by
  obtain ⟨hflat, hne, hinside, hbetween⟩ := List.splitBy_eq_iff.1 hwords
  refine List.splitBy_eq_iff.2 ⟨by rw [hflat]; rfl, by simpa using hne, ?_, ?_⟩
  · obtain ⟨hword, hrest⟩ := List.forall_mem_cons.1 hinside
    have hin : inWord c d := by simpa [inWord, imp_iff_not_or] using h
    exact List.forall_mem_cons.2 ⟨List.isChain_cons_cons.2 ⟨hin, hword⟩, hrest⟩
  · rw [List.isChain_cons] at hbetween ⊢
    refine ⟨fun next hnext => ?_, hbetween.2⟩
    obtain ⟨_, hb, hlast⟩ := hbetween.1 next hnext
    exact ⟨by simp, hb, by simpa using hlast⟩

/-- Behind the first letter of a name comes the rest of its first word, and then the other
words, each with a hyphen in front and its first letter small. -/
theorem hyphenate_word (c : Char) (cs : List Char) :
    ∃ word words, camelWords (c :: cs) = (c :: word) :: words ∧
      hyphenate c.isLower cs = word ++ words.flatMap fun w => '-' :: uncapitalized w := by
  induction cs generalizing c with
  | nil => exact ⟨[], [], rfl, rfl⟩
  | cons d ds ih =>
      obtain ⟨word, words, hwords, hrest⟩ := ih d
      by_cases hcut : c.isLower ∧ d.isUpper
      · refine ⟨[], (d :: word) :: words, ?_, ?_⟩
        · rw [camelWords_cut hcut.1 hcut.2, hwords]
        · rw [hcut.1, hyphenate_capital hcut.2, hrest]
          rfl
      · refine ⟨d :: word, words, camelWords_grow hcut hwords, ?_⟩
        rw [hyphenate_kept hcut, hrest]
        rfl

theorem intercalate_hyphen (word : List Char) (words : List (List Char)) :
    ['-'].intercalate (word :: words) = word ++ words.flatMap ('-' :: ·) := by
  induction words generalizing word with
  | nil => simp
  | cons next words ih =>
      rw [List.intercalate_cons_cons, ih]
      simp

/-! ## Names without a run of capitals -/

theorem hyphenate_eq_kebab {c : Char} {cs : List Char} (hletters : ∀ d ∈ c :: cs, d.isAlpha)
    (h : LoneCapitals (c :: cs)) : hyphenate c.isLower cs = kebab cs := by
  induction cs generalizing c with
  | nil => rfl
  | cons d ds ih =>
      obtain ⟨hc, hds⟩ := List.forall_mem_cons.1 hletters
      obtain ⟨hpair, hlone⟩ := List.isChain_cons_cons.1 h
      by_cases hd : d.isUpper
      · have hsmall := isLower_of_isAlpha hc fun hcapital => hpair ⟨hcapital, hd⟩
        rw [hsmall, hyphenate_capital hd, ih hds hlone, kebab_capital hd]
      · rw [hyphenate_kept fun hboth => hd hboth.2, ih hds hlone, kebab_kept hd]

theorem not_isUpper_of_mem_kebab {c : Char} {cs : List Char} (h : c ∈ kebab cs) :
    ¬ c.isUpper := by
  obtain ⟨d, -, hc⟩ := List.mem_flatMap.1 h
  split at hc
  · rcases List.mem_cons.1 hc with rfl | hc
    · decide
    · rw [List.mem_singleton.1 hc, Char.isUpper_toLower_eq_false]
      exact Bool.false_ne_true
  · next hd => exact List.mem_singleton.1 hc ▸ hd

theorem hyphenate_of_no_capital {cs : List Char} (h : ∀ c ∈ cs, ¬ c.isUpper)
    (afterSmall : Bool) : hyphenate afterSmall cs = cs := by
  induction cs generalizing afterSmall with
  | nil => rfl
  | cons c cs ih =>
      obtain ⟨hc, hcs⟩ := List.forall_mem_cons.1 h
      rw [hyphenate_kept fun hboth => hc hboth.2, ih hcs]

/-- A second pass changes the first capital that stands behind another one. Every letter
before it has come out small, so the second pass is behind a small letter all along. -/
theorem loneCapitals_of_fixed {c : Char} {cs : List Char} (hletters : ∀ d ∈ c :: cs, d.isAlpha)
    (h : hyphenate true (hyphenate c.isLower cs) = hyphenate c.isLower cs) :
    LoneCapitals (c :: cs) := by
  induction cs generalizing c with
  | nil => exact .singleton c
  | cons d ds ih =>
      obtain ⟨hc, hds⟩ := List.forall_mem_cons.1 hletters
      have hletter := hds d List.mem_cons_self
      refine List.isChain_cons_cons.2 ?_
      by_cases hd : d.isUpper
      · by_cases hcapital : c.isUpper
        · -- the first pass keeps this capital, and the second does not
          have hkept : ¬ (c.isLower ∧ d.isUpper) := fun hboth =>
            Char.not_isLower_of_isUpper hcapital hboth.1
          rw [hyphenate_kept hkept, hyphenate_capital hd] at h
          exact absurd (List.cons.inj h).1.symm (ne_hyphen_of_isAlpha hletter)
        · rw [isLower_of_isAlpha hc hcapital, hyphenate_capital hd, hyphenate_kept (by decide),
            hyphenate_kept (by simp), Char.isLower_toLower_eq_isAlpha, hletter] at h
          exact ⟨fun hboth => hcapital hboth.1, ih hds (List.cons.inj (List.cons.inj h).2).2⟩
      · rw [hyphenate_kept fun hboth => hd hboth.2, hyphenate_kept fun hboth => hd hboth.2] at h
        have hrest := (List.cons.inj h).2
        refine ⟨fun hboth => hd hboth.2, ih hds ?_⟩
        rwa [isLower_of_isAlpha hletter hd] at hrest ⊢

/-! ## The names of declarations -/

theorem not_isCustomName {c : Char} (h : c.isLower) (cs : List Char) :
    isCustomName (String.ofList (c :: cs)) = false := by
  have hc : c ≠ '-' := by
    rintro rfl
    exact absurd h (by decide)
  simp [isCustomName, List.isPrefixOf, hc.symm]

theorem propertyName_small {c : Char} (h : c.isLower) (cs : List Char) :
    propertyName (String.ofList (c :: cs)) = String.ofList (c :: hyphenate true cs) := by
  rw [propertyName, not_isCustomName h, if_neg Bool.false_ne_true, String.toList_ofList,
    hyphenate_kept (by simp), h]

/-- A name of letters that begins small is cut into words, which begin small and are
joined with hyphens. The result is the name with a hyphen for every capital if and only if
no two capitals of the name stand side by side. Otherwise there are capitals left in it,
and they get hyphens when it is taken for a name again. -/
theorem camel_name_hyphenated {name : String} (hletters : ∀ c ∈ name.toList, c.isAlpha)
    (hstart : ∃ c ∈ name.toList.head?, c.isLower) :
    (propertyName name).toList =
        ['-'].intercalate ((camelWords name.toList).map uncapitalized) ∧
      [LoneCapitals name.toList,
        (propertyName name).toList = kebab name.toList,
        ∀ c ∈ (propertyName name).toList, ¬ c.isUpper,
        propertyName (propertyName name) = propertyName name].TFAE := by
  obtain ⟨c, hhead, hc⟩ := hstart
  obtain ⟨cs, hname⟩ := List.head?_eq_some_iff.1 hhead
  obtain rfl : name = String.ofList (c :: cs) := by rw [← hname, String.ofList_toList]
  rw [String.toList_ofList] at hletters ⊢
  rw [propertyName_small hc, propertyName_small hc, String.toList_ofList, String.ofList_inj,
    List.cons.injEq, List.forall_mem_cons]
  have hsmall : ¬ c.isUpper := Char.not_isUpper_of_isLower hc
  refine ⟨?_, ?_⟩
  · obtain ⟨word, words, hwords, hrest⟩ := hyphenate_word c cs
    rw [hwords, List.map_cons, intercalate_hyphen, uncapitalized, List.flatMap_map,
      Char.toLower_eq_of_not_isUpper hsmall, ← hc, hrest]
    rfl
  · rw [kebab_kept hsmall, List.cons.injEq]
    tfae_have 1 → 2 := fun hlone => ⟨rfl, hc ▸ hyphenate_eq_kebab hletters hlone⟩
    tfae_have 2 → 3 := fun heq => ⟨hsmall, fun d hd => not_isUpper_of_mem_kebab (heq.2 ▸ hd)⟩
    tfae_have 3 → 4 := fun hnone => ⟨rfl, hyphenate_of_no_capital hnone.2 true⟩
    tfae_have 4 → 1 := fun hfixed => loneCapitals_of_fixed hletters (hc.symm ▸ hfixed.2)
    tfae_finish

/-- A name with a run of capitals and two that stand alone. -/
theorem camel_name_hyphenated_grid :
    (∀ c ∈ "gridXYGapEnd".toList, c.isAlpha) ∧
      (∃ c ∈ "gridXYGapEnd".toList.head?, c.isLower) ∧
      (camelWords "gridXYGapEnd".toList).map String.ofList = ["grid", "XYGap", "End"] ∧
      propertyName "gridXYGapEnd" = "grid-xYGap-end" ∧
      propertyName "grid-xYGap-end" ≠ "grid-xYGap-end" := by
  have hletters : ∀ c ∈ "gridXYGapEnd".toList, c.isAlpha := List.all_eq_true.1 (by decide)
  have hstart : ∃ c ∈ "gridXYGapEnd".toList.head?, c.isLower := ⟨'g', rfl, by decide⟩
  have hwords : camelWords "gridXYGapEnd".toList =
      ["grid".toList, "XYGap".toList, "End".toList] := by decide
  obtain ⟨hname, htfae⟩ := camel_name_hyphenated hletters hstart
  have hresult : propertyName "gridXYGapEnd" = "grid-xYGap-end" := by
    rw [hwords] at hname
    exact String.toList_inj.1 hname
  have hrun : ¬ LoneCapitals "gridXYGapEnd".toList := by decide
  have hchanges := mt (htfae.out 3 0).1 hrun
  rw [hresult] at hchanges
  exact ⟨hletters, hstart, by rw [hwords]; rfl, hresult, hchanges⟩

/-- The second capital of a run is left in the name. -/
theorem capital_run_kept :
    ¬ ∀ name : String, (∀ c ∈ name.toList, c.isAlpha) →
      (∃ c ∈ name.toList.head?, c.isLower) →
      (propertyName name).toList = kebab name.toList ∧
        (∀ c ∈ (propertyName name).toList, ¬ c.isUpper) ∧
        propertyName (propertyName name) = propertyName name := by
  intro h
  obtain ⟨hname, -⟩ := h "aBC" (List.all_eq_true.1 (by decide)) ⟨'a', rfl, by decide⟩
  exact absurd hname (by decide)

end AtomicStyles.Css
