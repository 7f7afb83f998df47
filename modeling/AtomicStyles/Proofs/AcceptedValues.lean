import AtomicStyles.Proofs.LexicalScope

/-!
# Which values are accepted

The normalizer finds faults on its way: it checks an object, goes on to where
its keys and tags lead, and settles again whatever the object takes over. What
it accepts does not depend on that order. A value is accepted when each object
in it is well formed by itself, and what is handed down is not looked at, since
it lies in the same value and is accepted or refused there.

Three inductions over the value carry this, one for each direction and one for
the error. They rest on the account of a single object: what it accepts in
`accepts_conditional_iff`, and whose error it passes on in `error_conditional`.
-/

namespace AtomicStyles.StyleNode

open Meaning (Way ways declared)

/-! ## Well-formed objects -/

/-- An object in a value. Under a variant the tags lead to further objects, and the
tag map itself is none. -/
inductive Contains (theme : Theme) : StyleValue → StyleObject → Prop
  | self {entries : StyleObject} : Contains theme (.conditional entries) entries
  | entry {entries inner : StyleObject} {key : String} {value : StyleValue}
      (h : (key, value) ∈ entries) (hkey : ¬ isVariantKey theme key)
      (hinner : Contains theme value inner) : Contains theme (.conditional entries) inner
  | tag {entries tags inner : StyleObject} {key tag : String} {value : StyleValue}
      (h : (key, .conditional tags) ∈ entries) (hkey : isVariantKey theme key)
      (htag : (tag, value) ∈ tags) (hinner : Contains theme value inner) :
      Contains theme (.conditional entries) inner

/-- An entry is a variant with a tag `default`. -/
def hasFallbackTag (theme : Theme) (e : String × StyleValue) : Bool :=
  isVariantKey theme e.1 &&
    match e.2 with
    | .conditional tags => Entries.has tags "default"
    | .literal _ => false

/-- The number of fallbacks that an object declares, under its key `default` and as
the tag `default` of its variants. -/
def fallbackCount (theme : Theme) (entries : StyleObject) : Nat :=
  (Entries.has entries "default").toNat + entries.countP (hasFallbackTag theme)

/-- Every variant of an object maps tags to values, and there is one fallback at
most. -/
structure WellFormed (theme : Theme) (entries : StyleObject) : Prop where
  tagged : ∀ e ∈ entries, isVariantKey theme e.1 → ∃ tags, e.2 = .conditional tags
  one_fallback : fallbackCount theme entries ≤ 1

/-- The error is about a key among entries that declare `count` fallbacks: a variant
that maps no tags, or one whose tag `default` is not the only fallback. -/
inductive Blames (theme : Theme) (property : String) (entries : List (String × StyleValue))
    (count : Nat) : StyleError → Prop
  | untagged {key : String} {l : Literal} (h : (key, .literal l) ∈ entries)
      (hkey : isVariantKey theme key) :
      Blames theme property entries count (.invalidConditionKey property key)
  | second {key : String} {value : StyleValue} (h : (key, value) ∈ entries)
      (htag : hasFallbackTag theme (key, value)) (hcount : 1 < count) :
      Blames theme property entries count (.conflictingDefault property key)

section

variable {theme : Theme} {property : String}

theorem mem_entryWays_value {key : String} {value v : StyleValue} :
    (∃ c, (c, v) ∈ Meaning.entryWays theme key value) ↔
      ¬ isVariantKey theme key ∧ v = value ∨
        isVariantKey theme key ∧ ∃ tags tag, value = .conditional tags ∧ (tag, v) ∈ tags := by
  by_cases hkey : isVariantKey theme key
  · simp only [hkey, not_true_eq_false, false_and, true_and, false_or]
    cases value with
    | literal l =>
        obtain ⟨hdefault, hcondition, hflag⟩ := isVariantKey_iff.1 hkey
        simp [Meaning.entryWays.eq_def, hdefault, hcondition, hflag]
    | conditional tags =>
        rw [Meaning.entryWays_variant hkey]
        simp
  · obtain ⟨c, hc⟩ := Meaning.entryWays_single hkey
    simp [hc, hkey]

/-- What the ways of an object lead to is what its keys hold, where these are no
variants, and what the tags of its variants hold. -/
theorem exists_mem_ways_iff {entries : StyleObject} {P : StyleValue → Prop} :
    (∃ w ∈ ways theme entries, P w.2) ↔
      ∃ e ∈ entries, (¬ isVariantKey theme e.1 ∧ P e.2) ∨
        (isVariantKey theme e.1 ∧ ∃ tags, e.2 = .conditional tags ∧ ∃ t ∈ tags, P t.2) := by
  constructor
  · rintro ⟨⟨c, v⟩, hw, hv⟩
    obtain ⟨e, he, hmem⟩ := List.mem_flatMap.1 hw
    obtain ⟨hkey, rfl⟩ | ⟨hkey, tags, tag, htags, htag⟩ := mem_entryWays_value.1 ⟨c, hmem⟩
    · exact ⟨e, he, .inl ⟨hkey, hv⟩⟩
    · exact ⟨e, he, .inr ⟨hkey, tags, htags, (tag, v), htag, hv⟩⟩
  · rintro ⟨e, he, ⟨hkey, hv⟩ | ⟨hkey, tags, htags, ⟨tag, v⟩, htag, hv⟩⟩
    · obtain ⟨c, hc⟩ := mem_entryWays_value.2 (.inl ⟨hkey, Eq.refl e.2⟩)
      exact ⟨_, List.mem_flatMap.2 ⟨e, he, hc⟩, hv⟩
    · obtain ⟨c, hc⟩ := mem_entryWays_value.2 (.inr ⟨hkey, tags, tag, htags, htag⟩)
      exact ⟨_, List.mem_flatMap.2 ⟨e, he, hc⟩, hv⟩

/-- The objects in an object are itself and those where its ways lead. -/
theorem contains_conditional_iff {entries inner : StyleObject} :
    Contains theme (.conditional entries) inner ↔
      inner = entries ∨ ∃ w ∈ ways theme entries, Contains theme w.2 inner := by
  rw [exists_mem_ways_iff (P := fun v => Contains theme v inner)]
  constructor
  · intro h
    cases h with
    | self => exact .inl rfl
    | entry h hkey hinner => exact .inr ⟨_, h, .inl ⟨hkey, hinner⟩⟩
    | tag h hkey htag hinner => exact .inr ⟨_, h, .inr ⟨hkey, _, rfl, _, htag, hinner⟩⟩
  · rintro (rfl | ⟨⟨key, value⟩, he, ⟨hkey, hinner⟩ | ⟨hkey, tags, rfl, t, htag, hinner⟩⟩)
    · exact .self
    · exact .entry he hkey hinner
    · exact .tag he hkey htag hinner

/-! ## The check -/

theorem hasFallbackTag_tagged {key : String} (hkey : isVariantKey theme key)
    (tags : List (String × StyleValue)) :
    hasFallbackTag theme (key, .conditional tags) = Entries.has tags "default" := by
  simp [hasFallbackTag, hkey]

theorem hasFallbackTag_other {key : String} (hkey : ¬ isVariantKey theme key)
    (value : StyleValue) : hasFallbackTag theme (key, value) = false := by
  simp [hasFallbackTag, hkey]

variable {found : Bool} {es : List (String × StyleValue)}

theorem check_other {key : String} (hkey : ¬ isVariantKey theme key) (value : StyleValue) :
    check theme property found ((key, value) :: es) = check theme property found es := by
  rw [check, if_neg hkey]

theorem check_untagged {key : String} (hkey : isVariantKey theme key) (l : Literal) :
    check theme property found ((key, .literal l) :: es) =
      .error (.invalidConditionKey property key) := by
  rw [check, if_pos hkey]
  rfl

theorem check_tagged {key : String} (hkey : isVariantKey theme key)
    (tags : List (String × StyleValue)) :
    check theme property found ((key, .conditional tags) :: es) =
      if Entries.has tags "default" then
        if found then .error (.conflictingDefault property key)
        else check theme property true es
      else check theme property found es := by
  rw [check, if_pos hkey]
  cases found <;> rfl

/-- The check goes through the entries with a note whether it has seen a fallback, so
it accepts what leaves one in all. -/
theorem check_ok_iff :
    check theme property found es = .ok () ↔
      (∀ e ∈ es, isVariantKey theme e.1 → ∃ tags, e.2 = .conditional tags) ∧
        found.toNat + es.countP (hasFallbackTag theme) ≤ 1 := by
  induction es generalizing found with
  | nil =>
      have hfound := Bool.toNat_le found
      simpa [check] using hfound
  | cons e es ih =>
      obtain ⟨key, value⟩ := e
      rw [List.forall_mem_cons, List.countP_cons]
      by_cases hkey : isVariantKey theme key
      · cases value with
        | literal l =>
            rw [check_untagged hkey]
            simp [hkey]
        | conditional tags =>
            have hhead : isVariantKey theme key →
                ∃ inner, StyleValue.conditional tags = .conditional inner := fun _ => ⟨tags, rfl⟩
            rw [check_tagged hkey, hasFallbackTag_tagged hkey, and_iff_right hhead]
            by_cases htag : Entries.has tags "default"
            · rw [if_pos htag, if_pos htag]
              cases found with
              | true =>
                  rw [if_pos rfl, Bool.toNat_true]
                  constructor
                  · intro h
                    cases h
                  · rintro ⟨-, hcount⟩
                    omega
              | false =>
                  rw [if_neg Bool.false_ne_true, ih, Bool.toNat_true, Bool.toNat_false,
                    Nat.zero_add, Nat.add_comm]
            · rw [if_neg htag, if_neg htag, ih, Nat.add_zero]
      · rw [check_other hkey, ih, hasFallbackTag_other hkey]
        simp [hkey]

theorem check_entries_ok_iff {entries : StyleObject} :
    check theme property (Entries.has entries "default") entries = .ok () ↔
      WellFormed theme entries := by
  rw [check_ok_iff]
  exact ⟨fun h => ⟨h.1, h.2⟩, fun h => ⟨h.tagged, h.one_fallback⟩⟩

theorem Blames.cons {count more : Nat} {error : StyleError}
    (h : Blames theme property es count error) (hle : count ≤ more) (e : String × StyleValue) :
    Blames theme property (e :: es) more error := by
  cases h with
  | untagged hmem hkey => exact .untagged (List.mem_cons_of_mem _ hmem) hkey
  | second hmem htag hcount => exact .second (List.mem_cons_of_mem _ hmem) htag (by omega)

/-- What the check refuses it refuses for a key of the entries. -/
theorem check_error {error : StyleError} (h : check theme property found es = .error error) :
    Blames theme property es (found.toNat + es.countP (hasFallbackTag theme)) error := by
  induction es generalizing found with
  | nil => cases h
  | cons e es ih =>
      obtain ⟨key, value⟩ := e
      rw [List.countP_cons]
      by_cases hkey : isVariantKey theme key
      · cases value with
        | literal l =>
            rw [check_untagged hkey] at h
            cases h
            exact .untagged List.mem_cons_self hkey
        | conditional tags =>
            have hhead := hasFallbackTag_tagged hkey tags
            rw [check_tagged hkey] at h
            rw [hhead]
            by_cases htag : Entries.has tags "default"
            · rw [if_pos htag] at h
              rw [if_pos htag]
              cases found with
              | true =>
                  cases h
                  refine .second List.mem_cons_self (hhead.trans htag) ?_
                  rw [Bool.toNat_true]
                  omega
              | false =>
                  refine (ih h).cons ?_ _
                  rw [Bool.toNat_true, Bool.toNat_false]
                  omega
            · rw [if_neg htag] at h
              exact (ih h).cons (by omega) _
      · rw [check_other hkey] at h
        exact (ih h).cons (by omega) _

/-! ## One object -/

/-- What a way of an object is handed when the object itself is handed `scope`. -/
def scopeTo (theme : Theme) (property : String) (entries : StyleObject) (scope : Scope)
    (w : Way) : Scope :=
  if w.1.isDynamic then
    settle theme property (declared (ways theme entries)) ++
      missing (settle theme property (declared (ways theme entries))) scope
  else []

theorem branch_armOf (w : Way) (scope : Scope) :
    (armOf theme property w).branch scope =
      (ofValue theme property w.2 (if w.1.isDynamic then scope else [])).map fun n => (w.1, n) := by
  unfold armOf
  split <;> rfl

theorem ofValue_conditional (entries : StyleObject) (scope : Scope) :
    ofValue theme property (.conditional entries) scope = do
      check theme property (Entries.has entries "default") entries
      let branches ← (ways theme entries).mapM fun w =>
        (ofValue theme property w.2 (scopeTo theme property entries scope w)).map fun n => (w.1, n)
      let rest ← (missing (settle theme property (declared (ways theme entries))) scope).mapM
        fun e => e.2.map fun n => (e.1, n)
      return .branching (branches ++ rest) := by
  rw [ofValue, arms_eq_map, ofArms, declared_arms, List.mapM_map]
  simp only [Function.comp_def, branch_armOf, scopeTo]

/-- A scope of values that are accepted. -/
def Scope.Settled (scope : Scope) : Prop :=
  ∀ e ∈ scope, ∃ tree, e.2 = .ok tree

theorem Scope.settled_nil : Scope.Settled [] := fun _ he => absurd he List.not_mem_nil

theorem exists_map_ok_iff {ε α β : Type} {x : Except ε α} {f : α → β} :
    (∃ b, x.map f = .ok b) ↔ ∃ a, x = .ok a := by
  simp [map_eq_ok_iff]

theorem accepts_conditional_iff {entries : StyleObject} {scope : Scope} :
    (∃ tree, ofValue theme property (.conditional entries) scope = .ok tree) ↔
      WellFormed theme entries ∧
      (∀ w ∈ ways theme entries,
        ∃ tree, ofValue theme property w.2 (scopeTo theme property entries scope w) = .ok tree) ∧
      Scope.Settled (missing (settle theme property (declared (ways theme entries))) scope) := by
  rw [ofValue_conditional]
  constructor
  · rintro ⟨tree, h⟩
    obtain ⟨⟨⟩, hcheck, h⟩ := bind_eq_ok_iff.1 h
    obtain ⟨bs, hbs, h⟩ := bind_eq_ok_iff.1 h
    obtain ⟨rest, hrest, -⟩ := bind_eq_ok_iff.1 h
    refine ⟨check_entries_ok_iff.1 hcheck, fun w hw => ?_, fun e he => ?_⟩
    · exact exists_map_ok_iff.1 (exists_mapM_ok_iff.1 ⟨bs, hbs⟩ w hw)
    · exact exists_map_ok_iff.1 (exists_mapM_ok_iff.1 ⟨rest, hrest⟩ e he)
  · rintro ⟨hcheck, hways, htaken⟩
    obtain ⟨bs, hbs⟩ := exists_mapM_ok_iff.2 fun w hw => exists_map_ok_iff.2 (hways w hw)
    obtain ⟨rest, hrest⟩ := exists_mapM_ok_iff.2 fun e he => exists_map_ok_iff.2 (htaken e he)
    exact ⟨_, bind_eq_ok_iff.2 ⟨(), check_entries_ok_iff.2 hcheck,
      bind_eq_ok_iff.2 ⟨bs, hbs, bind_eq_ok_iff.2 ⟨rest, hrest, rfl⟩⟩⟩⟩

theorem error_conditional {entries : StyleObject} {scope : Scope} {error : StyleError}
    (h : ofValue theme property (.conditional entries) scope = .error error) :
    Blames theme property entries (fallbackCount theme entries) error ∨
      (∃ w ∈ ways theme entries,
        ofValue theme property w.2 (scopeTo theme property entries scope w) = .error error) ∨
      ∃ e ∈ scope, e.2 = .error error := by
  rw [ofValue_conditional] at h
  obtain h | ⟨_, -, h⟩ := bind_eq_error_iff.1 h
  · exact .inl (check_error h)
  obtain h | ⟨_, -, h⟩ := bind_eq_error_iff.1 h
  · obtain ⟨w, hw, he⟩ := exists_of_mapM_error h
    exact .inr (.inl ⟨w, hw, map_eq_error_iff.1 he⟩)
  obtain h | ⟨_, -, h⟩ := bind_eq_error_iff.1 h
  · obtain ⟨e, hmem, he⟩ := exists_of_mapM_error h
    exact .inr (.inr ⟨e, (List.mem_filter.1 hmem).1, map_eq_error_iff.1 he⟩)
  · cases h

/-! ## Whole values -/

theorem size_lt_of_mem_ways {entries : StyleObject} {w : Way} (hw : w ∈ ways theme entries) :
    w.2.size < (StyleValue.conditional entries).size := by
  have hlt := Meaning.size_lt_waysSize hw
  have hle := Meaning.waysSize_ways_le theme entries
  rw [StyleValue.size]
  omega

theorem wellFormed_of_ofValue {value : StyleValue} {scope : Scope}
    (h : ∃ tree, ofValue theme property value scope = .ok tree) :
    ∀ o, Contains theme value o → WellFormed theme o := by
  match value with
  | .literal l =>
      intro o ho
      cases ho
  | .conditional entries =>
      obtain ⟨hentries, hways, -⟩ := accepts_conditional_iff.1 h
      intro o ho
      obtain rfl | ⟨w, hw, ho⟩ := contains_conditional_iff.1 ho
      · exact hentries
      · exact wellFormed_of_ofValue (hways w hw) o ho
termination_by value.size
decreasing_by exact size_lt_of_mem_ways hw

theorem mem_scopeTo {entries : StyleObject} {scope : Scope} {w : Way}
    {e : BranchCondition × Except StyleError StyleNode}
    (h : e ∈ scopeTo theme property entries scope w) :
    (∃ v ∈ ways theme entries, e.2 = ofValue theme property v.2 []) ∨ e ∈ scope := by
  rw [scopeTo] at h
  split at h
  · rcases List.mem_append.1 h with h | h
    · obtain ⟨v, hv, rfl⟩ := List.mem_map.1 h
      have hown : v ∈ ways theme entries ∨ v ∈ [] :=
        mem_of_mem_handedDown (List.mem_append_left _ hv)
      exact .inl ⟨v, hown.resolve_right List.not_mem_nil, rfl⟩
    · exact .inr (List.mem_filter.1 h).1
  · cases h

theorem ofValue_of_wellFormed {value : StyleValue} {scope : Scope} (hscope : scope.Settled)
    (h : ∀ o, Contains theme value o → WellFormed theme o) :
    ∃ tree, ofValue theme property value scope = .ok tree := by
  match value with
  | .literal l => exact ⟨.leaf l, by rw [ofValue]⟩
  | .conditional entries =>
      have inside (w : Way) (hw : w ∈ ways theme entries) :
          ∀ o, Contains theme w.2 o → WellFormed theme o :=
        fun o ho => h o (contains_conditional_iff.2 (.inr ⟨w, hw, ho⟩))
      -- what the object declares is settled first, since it is handed to its other ways
      have hways : ∀ w ∈ ways theme entries, ∃ tree, ofValue theme property w.2 [] = .ok tree :=
        fun w hw => ofValue_of_wellFormed Scope.settled_nil (inside w hw)
      refine accepts_conditional_iff.2 ⟨h entries .self, fun w hw => ?_, fun e he => ?_⟩
      · refine ofValue_of_wellFormed (fun e he => ?_) (inside w hw)
        obtain ⟨v, hv, heq⟩ | he := mem_scopeTo he
        · rw [heq]
          exact hways v hv
        · exact hscope e he
      · exact hscope e (List.mem_filter.1 he).1
termination_by value.size
decreasing_by all_goals exact size_lt_of_mem_ways hw

/-- An error comes from an object of the value or with what was handed down. -/
theorem ofValue_error {value : StyleValue} {scope : Scope} {error : StyleError}
    (h : ofValue theme property value scope = .error error) :
    (∃ o, Contains theme value o ∧ Blames theme property o (fallbackCount theme o) error) ∨
      ∃ e ∈ scope, e.2 = .error error := by
  match value with
  | .literal l =>
      rw [ofValue] at h
      cases h
  | .conditional entries =>
      obtain hentries | ⟨w, hw, he⟩ | hscope := error_conditional h
      · exact .inl ⟨entries, .self, hentries⟩
      · obtain ⟨o, ho, hblames⟩ | ⟨e, hmem, he⟩ := ofValue_error he
        · exact .inl ⟨o, contains_conditional_iff.2 (.inr ⟨w, hw, ho⟩), hblames⟩
        · obtain ⟨v, hv, heq⟩ | hmem := mem_scopeTo hmem
          -- the object declares the value, so the fault lies in it even if met elsewhere
          · obtain ⟨o, ho, hblames⟩ | ⟨_, hnone, -⟩ := ofValue_error (heq.symm.trans he)
            · exact .inl ⟨o, contains_conditional_iff.2 (.inr ⟨v, hv, ho⟩), hblames⟩
            · cases hnone
          · exact .inr ⟨e, hmem, he⟩
      · exact .inr hscope
termination_by value.size
decreasing_by all_goals exact size_lt_of_mem_ways (by assumption)

/-- A value is accepted when all objects in it are well formed, and otherwise the
error names a key with which one of them is not. A scope of accepted values makes no
difference. -/
theorem normalize_accepts (theme : Theme) (property : String) (value : StyleValue) :
    ((∃ tree, normalize theme property value = .ok tree) ↔
      ∀ o, Contains theme value o → WellFormed theme o) ∧
    (∀ error, normalize theme property value = .error error →
      ∃ o, Contains theme value o ∧ Blames theme property o (fallbackCount theme o) error) ∧
    ∀ scope : Scope, scope.Settled →
      ((∃ tree, ofValue theme property value scope = .ok tree) ↔
        ∃ tree, normalize theme property value = .ok tree) := by
  have accepted {scope : Scope} (hscope : scope.Settled) :
      (∃ tree, ofValue theme property value scope = .ok tree) ↔
        ∀ o, Contains theme value o → WellFormed theme o :=
    ⟨wellFormed_of_ofValue, ofValue_of_wellFormed hscope⟩
  refine ⟨accepted Scope.settled_nil, fun error h => ?_, fun scope hscope => ?_⟩
  · obtain hblames | ⟨_, he, -⟩ := ofValue_error h
    · exact hblames
    · cases he
  · rw [accepted hscope]
    exact (accepted Scope.settled_nil).symm

/-- A second fallback, which stands in a variant under a flag. -/
def refusedEntries : StyleObject :=
  [("default", .literal (.text "block")),
   ("isOpen", .conditional
     [("default", .literal (.text "flex")),
      ("size", .conditional [("default", .literal (.text "block"))])])]

theorem normalize_accepts_tagged :
    (∀ o, Contains smallTheme (.conditional taggedEntries) o → WellFormed smallTheme o) ∧
    (∃ o, Contains smallTheme (.conditional refusedEntries) o ∧
      Blames smallTheme "display" o (fallbackCount smallTheme o)
        (.conflictingDefault "display" "size")) ∧
    ∃ tree, ofValue smallTheme "display" (.conditional flaggedEntries)
      [(.theme 0, .ok (.leaf (.text "flex")))] = .ok tree := by
  refine ⟨(normalize_accepts smallTheme "display" _).1.1 ⟨_, rfl⟩, ?_, ?_⟩
  · exact (normalize_accepts smallTheme "display" (.conditional refusedEntries)).2.1 _ rfl
  · refine ((normalize_accepts smallTheme "display" _).2.2 _ fun e he => ?_).2 ⟨_, rfl⟩
    rw [List.mem_singleton.1 he]
    exact ⟨_, rfl⟩

end

end AtomicStyles.StyleNode
