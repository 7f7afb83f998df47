import AtomicStyles.Proofs.ClassList
import AtomicStyles.Proofs.Fallback
import AtomicStyles.Proofs.Walk

/-!
# Selected classes in conflict

Two classes conflict when they set one property under the same theme conditions, and
then they differ in their values alone. A selection is not free of this. Where no
state decides, all branches are followed and the renderer is to choose, but if two of
them lead under the same conditions it has nothing to choose by.

That is the only way a conflict comes about. Of the entries that set a property one
decides, so the classes come from one value, and the walks to them part at an object
of which no way holds. For a description this can be ruled out once and for all states:
a theme condition keeps two branches apart that one of them enters and that is neither
active there nor anywhere in the other.
-/

namespace AtomicStyles

open Lowering (Target)
open Relation (ReflTransGen)

/-! ## The identity of a class -/

namespace Code

/-- All of a class but its value. A class that is no token has no identity. -/
def identity? (token : String) : Option String :=
  (parseToken? token).map (·.identity)

theorem identity?_token (key : Fragment) (conditions : List Nat) (value : Fragment) :
    identity? (token key.unit conditions value) =
      some (String.ofList (key.unit ++ conditions.flatMap ordinalUnit)) := by
  rw [identity?, parseToken?_token, Option.map_some, TokenParts.identity, String.ofList_append]

/-- The identity tells the key of the property and the conditions. -/
theorem identity?_token_eq_iff {k l : Fragment} {cs ds : List Nat} {v w : Fragment} :
    identity? (token k.unit cs v) = identity? (token l.unit ds w) ↔ k = l ∧ cs = ds := by
  rw [identity?_token, identity?_token]
  constructor
  · intro h
    have hunits := String.ofList_inj.1 (Option.some.inj h)
    obtain ⟨hk, hrest⟩ := append_unit_injective hunits
    have hconditions : (cs.map Fragment.indexed).flatMap Fragment.unit =
        (ds.map Fragment.indexed).flatMap Fragment.unit := by
      rw [List.flatMap_map, List.flatMap_map]
      exact hrest
    have hmap := unit_flatMap_injective hconditions
    exact ⟨hk, (List.map_inj_right fun _ _ h => Fragment.indexed.inj h).1 hmap⟩
  · rintro ⟨rfl, rfl⟩
    rfl

end Code

namespace Meaning

/-! ## The setting that decides -/

/-- A setting of a description is the last of its property that contributes. -/
def Decides (theme : Theme) (state : RenderState) (d : StyleDescription)
    (s : Target × StyleValue) : Prop :=
  ∃ before after, allSettings theme d = before ++ s :: after ∧
    ∀ t ∈ after, t.1.unit = s.1.unit → follow theme state t.1 ∅ t.2 [] = []

theorem exists_split_cons {α : Type} {P : α → List α → Prop} {x : α} {xs : List α} :
    (∃ before y after, x :: xs = before ++ y :: after ∧ P y after) ↔
      P x xs ∨ ∃ before y after, xs = before ++ y :: after ∧ P y after := by
  constructor
  · rintro ⟨before, y, after, heq, h⟩
    cases before with
    | nil =>
        cases heq
        exact .inl h
    | cons z before => exact .inr ⟨before, y, after, (List.cons.inj heq).2, h⟩
  · rintro (h | ⟨before, y, after, rfl, h⟩)
    · exact ⟨[], x, xs, rfl, h⟩
    · exact ⟨x :: before, y, after, rfl, h⟩

/-- A class counts when the last entry of its unit that contributes contributes it. -/
theorem mem_deciding_iff {es : List (String × List String)} {c : String} :
    c ∈ deciding es ↔ ∃ before e after, es = before ++ e :: after ∧
      c ∈ e.2 ∧ ∀ later ∈ after, later.1 = e.1 → later.2 = [] := by
  induction es with
  | nil => simp [deciding]
  | cons e rest ih =>
      obtain ⟨unit, own⟩ := e
      have hlater : (rest.any fun later => later.1 == unit && !later.2.isEmpty) = false ↔
          ∀ later ∈ rest, later.1 = unit → later.2 = [] := by
        simp [List.any_eq_false]
      rw [exists_split_cons, deciding, ← ih, ← hlater]
      cases rest.any fun later => later.1 == unit && !later.2.isEmpty with
      | true => simp
      | false => simp

theorem exists_split_map {α β : Type} {f : α → β} {P : β → List β → Prop} {xs : List α} :
    (∃ before y after, xs.map f = before ++ y :: after ∧ P y after) ↔
      ∃ before x after, xs = before ++ x :: after ∧ P (f x) (after.map f) := by
  constructor
  · rintro ⟨before, y, after, heq, h⟩
    obtain ⟨before, rest, rfl, -, hrest⟩ := List.map_eq_append_iff.1 heq
    obtain ⟨x, after, rfl, rfl, rfl⟩ := List.map_eq_cons_iff.1 hrest
    exact ⟨before, x, after, rfl, h⟩
  · rintro ⟨before, x, after, rfl, h⟩
    exact ⟨before.map f, f x, after.map f, by rw [List.map_append, List.map_cons], h⟩

section

variable {theme : Theme} {state : RenderState} {d : StyleDescription} {s t : Target × StyleValue}

theorem mem_classes_iff {c : String} :
    c ∈ classes theme state d ↔
      ∃ s, Decides theme state d s ∧ c ∈ follow theme state s.1 ∅ s.2 [] := by
  rw [classes, List.mem_eraseDups, mem_deciding_iff, exists_split_map]
  constructor
  · rintro ⟨before, s, after, hsplit, hc, hlast⟩
    refine ⟨s, ⟨before, after, hsplit, fun t ht hunit => ?_⟩, hc⟩
    exact hlast _ (List.mem_map_of_mem ht) (congrArg String.ofList hunit)
  · rintro ⟨s, ⟨before, after, hsplit, hlast⟩, hc⟩
    refine ⟨before, s, after, hsplit, hc, fun later hlater hunit => ?_⟩
    obtain ⟨t, ht, rfl⟩ := List.mem_map.1 hlater
    exact hlast t ht (String.ofList_inj.1 hunit)

/-- One setting decides a property, if any contributes to it. -/
theorem Decides.unique (hs : Decides theme state d s) (ht : Decides theme state d t)
    (hunit : s.1.unit = t.1.unit) (hsome : follow theme state s.1 ∅ s.2 [] ≠ [])
    (htsome : follow theme state t.1 ∅ t.2 [] ≠ []) : s = t := by
  obtain ⟨before, after, hsplit, hlast⟩ := hs
  obtain ⟨before', after', hsplit', hlast'⟩ := ht
  rw [hsplit] at hsplit'
  -- either stands first or they are one, and the first gives way to the second
  obtain ⟨more, -, hrest⟩ | ⟨more, -, hrest⟩ := List.append_eq_append_iff.1 hsplit'
  · cases more with
    | nil => exact (List.cons.inj hrest).1
    | cons u more =>
        have hmem : t ∈ after := by
          rw [(List.cons.inj hrest).2]
          simp
        exact absurd (hlast t hmem hunit.symm) htsome
  · cases more with
    | nil => exact (List.cons.inj hrest).1.symm
    | cons u more =>
        have hmem : s ∈ after' := by
          rw [(List.cons.inj hrest).2]
          simp
        exact absurd (hlast' s hmem hunit) hsome

end

/-! ## Branches kept apart -/

/-- A theme condition is entered by the first way, and it is neither active nor
anywhere in the second. -/
def KeptApart (theme : Theme) (active : Finset ConditionId) (v w : Way) : Prop :=
  ∃ id, v.1 = .theme id ∧ id ∉ active ∧ w.1 ≠ .theme id ∧
    ∀ value, ¬ Offers theme w.2 (.theme id, value)

/-- A step under some state. -/
def AnyStep (theme : Theme) (σ τ : Walk) : Prop := ∃ state, Step theme state σ τ

/-- At every object of a value, as a walk may come to it, each two ways that no state
decides are kept apart. -/
def Unmixed (theme : Theme) (value : StyleValue) : Prop :=
  ∀ active entries inherited,
    ReflTransGen (AnyStep theme) ⟨∅, value, []⟩ ⟨active, .conditional entries, inherited⟩ →
    ∀ v ∈ undecided (ways theme entries) inherited,
      ∀ w ∈ undecided (ways theme entries) inherited,
        v ≠ w → KeptApart theme active v w ∨ KeptApart theme active w v

section

variable {theme : Theme} {state : RenderState} {value : StyleValue}

theorem mem_enter {c : BranchCondition} {active : Finset ConditionId} {id : ConditionId}
    (h : id ∈ c.enter active) : id ∈ active ∨ c = .theme id := by
  cases c with
  | theme id' =>
      rcases Finset.mem_insert.1 h with rfl | h
      · exact .inr rfl
      · exact .inl h
  | fallback => exact .inl h
  | flag name => exact .inl h
  | variant name tag => exact .inl h

/-- Walks that enter ways kept apart do not end under the same conditions. -/
theorem KeptApart.ends_ne {active around around' : Finset ConditionId} {v w : Way} {l m : Literal}
    (h : KeptApart theme active v w) (hl : EndsAt theme state (.enter active v) around l)
    (hm : EndsAt theme state (.enter active w) around' m) : around ≠ around' := by
  rintro rfl
  obtain ⟨id, hv, hactive, hw, hinside⟩ := h
  obtain ⟨inherited, hl⟩ := hl
  obtain ⟨inherited', hm⟩ := hm
  have hentered : id ∈ (Walk.enter active v).active := by
    rw [Walk.enter, hv]
    exact Finset.mem_insert_self id active
  have hid : id ∈ around := (walk_active hl).1 hentered
  obtain hid | ⟨value, hvalue | ⟨_, hnone, -⟩⟩ := (walk_active hm).2.1 id hid
  · exact (mem_enter hid).elim hactive hw
  · exact hinside value hvalue
  · cases hnone

theorem Unmixed.not_partsTo (h : Unmixed theme value) {around : Finset ConditionId}
    {l m : Literal} : ¬ PartsTo theme state ⟨∅, value, []⟩ around around l m := by
  rintro ⟨active, entries, inherited, hreach, -, v, hv, w, hw, hvw, hl, hm⟩
  have hvisit : ReflTransGen (AnyStep theme) ⟨∅, value, []⟩
      ⟨active, .conditional entries, inherited⟩ :=
    Relation.ReflTransGen.mono (fun _ _ hstep => ⟨state, hstep⟩) _ _ hreach
  obtain hapart | hapart := h active entries inherited hvisit v hv w hw hvw
  · exact hapart.ends_ne hl hm rfl
  · exact hapart.ends_ne hm hl rfl

end

end Meaning

/-! ## Conflicts -/

open Meaning

section

variable {theme : Theme} {d : StyleDescription} {f : RuleForest}

/-- A literal gives one token, made of the unit of its target, the conditions around
it and its value, or none where it does not resolve. -/
theorem literalClasses_eq (target : Target) (around : Finset ConditionId) (l : Literal) :
    literalClasses target around l = [] ∨
      ∃ fragment, literalClasses target around l =
        [Code.token target.key.unit (around.sort (· ≤ ·)) fragment] := by
  cases hres : target.resolve l with
  | error e =>
      rw [literalClasses, hres]
      exact .inl rfl
  | ok resolved => exact .inr ⟨_, StyleNode.literalClasses_ok hres⟩

theorem exists_token {target : Target} {around : Finset ConditionId} {l : Literal} {c : String}
    (hc : c ∈ literalClasses target around l) :
    ∃ fragment, c = Code.token target.key.unit (around.sort (· ≤ ·)) fragment := by
  obtain hnil | ⟨fragment, hone⟩ := literalClasses_eq target around l
  · rw [hnil] at hc
    cases hc
  · rw [hone] at hc
    exact ⟨fragment, List.mem_singleton.1 hc⟩

theorem literalClasses_subsingleton {target : Target} {around : Finset ConditionId} {l : Literal}
    {a b : String} (ha : a ∈ literalClasses target around l)
    (hb : b ∈ literalClasses target around l) : a = b := by
  obtain hnil | ⟨fragment, hone⟩ := literalClasses_eq target around l
  · rw [hnil] at ha
    cases ha
  · rw [hone] at ha hb
    rw [List.mem_singleton.1 ha, List.mem_singleton.1 hb]

/-- The identity of a class of a literal tells the unit of the target and the
conditions around the literal. -/
theorem identity?_eq_iff {target target' : Target} {around around' : Finset ConditionId}
    {l m : Literal} {a b : String} (ha : a ∈ literalClasses target around l)
    (hb : b ∈ literalClasses target' around' m) :
    Code.identity? a = Code.identity? b ↔ target.unit = target'.unit ∧ around = around' := by
  obtain ⟨fragment, rfl⟩ := exists_token ha
  obtain ⟨fragment', rfl⟩ := exists_token hb
  rw [Code.identity?_token_eq_iff, Target.unit_eq, Target.unit_eq]
  constructor
  · rintro ⟨hkey, hconditions⟩
    refine ⟨congrArg _ hkey, ?_⟩
    have hfinset := congrArg List.toFinset hconditions
    rwa [Finset.sort_toFinset, Finset.sort_toFinset] at hfinset
  · rintro ⟨hunit, rfl⟩
    exact ⟨Code.unit_injective hunit, rfl⟩

/-- A selected class is that of a literal where a walk through a deciding setting
ends. -/
theorem mem_words_iff (h : lower theme d = .ok f) (state : RenderState) {c : String} :
    c ∈ Text.words ((SelectionProcedure.ofForest f).select state) ↔
      ∃ s, Decides theme state d s ∧ ∃ around l,
        EndsAt theme state ⟨∅, s.2, []⟩ around l ∧ c ∈ literalClasses s.1 around l := by
  rw [SelectionProcedure.words_select h, selected_lowered h, mem_classes_iff]
  simp only [mem_follow_iff]

theorem conflict_iff (h : lower theme d = .ok f) (state : RenderState) {a b : String}
    (hab : a ≠ b) :
    (a ∈ Text.words ((SelectionProcedure.ofForest f).select state) ∧
        b ∈ Text.words ((SelectionProcedure.ofForest f).select state) ∧
        Code.identity? a = Code.identity? b) ↔
      ∃ s, Decides theme state d s ∧ ∃ around l m,
        PartsTo theme state ⟨∅, s.2, []⟩ around around l m ∧
        a ∈ literalClasses s.1 around l ∧ b ∈ literalClasses s.1 around m := by
  rw [mem_words_iff h, mem_words_iff h]
  constructor
  · rintro ⟨⟨s, hs, around, l, hl, ha⟩, ⟨t, ht, around', m, hm, hb⟩, hidentity⟩
    obtain ⟨hunit, rfl⟩ := (identity?_eq_iff ha hb).1 hidentity
    have hsome := List.ne_nil_of_mem ((mem_follow_iff ∅ s.2 [] a).2 ⟨around, l, hl, ha⟩)
    have htsome := List.ne_nil_of_mem ((mem_follow_iff ∅ t.2 [] b).2 ⟨around, m, hm, hb⟩)
    obtain rfl := hs.unique ht hunit hsome htsome
    obtain ⟨-, rfl⟩ | hparts := ends_alike_or_part hl hm
    · exact absurd (literalClasses_subsingleton ha hb) hab
    · exact ⟨s, hs, around, l, m, hparts, ha, hb⟩
  · rintro ⟨s, hs, around, l, m, hparts, ha, hb⟩
    obtain ⟨hl, hm⟩ := hparts.ends
    exact ⟨⟨s, hs, around, l, hl, ha⟩, ⟨s, hs, around, m, hm, hb⟩,
      (identity?_eq_iff ha hb).2 ⟨rfl, rfl⟩⟩

/-- Two different selected classes have one identity exactly when they are those of
two literals under the same theme conditions to which walks through one deciding
setting part. So classes of different settings never conflict, and if no value of a
description is mixed no selected classes do, whatever the state. -/
theorem selected_conflicts (h : lower theme d = .ok f) :
    (∀ state a b, a ≠ b →
      ((a ∈ Text.words ((SelectionProcedure.ofForest f).select state) ∧
          b ∈ Text.words ((SelectionProcedure.ofForest f).select state) ∧
          Code.identity? a = Code.identity? b) ↔
        ∃ s, Decides theme state d s ∧ ∃ around l m,
          PartsTo theme state ⟨∅, s.2, []⟩ around around l m ∧
          a ∈ literalClasses s.1 around l ∧ b ∈ literalClasses s.1 around m)) ∧
    ((∀ s ∈ allSettings theme d, Unmixed theme s.2) →
      ∀ state, ∀ a ∈ Text.words ((SelectionProcedure.ofForest f).select state),
        ∀ b ∈ Text.words ((SelectionProcedure.ofForest f).select state),
          a ≠ b → Code.identity? a ≠ Code.identity? b) := by
  refine ⟨fun state a b hab => conflict_iff h state hab, ?_⟩
  intro hunmixed state a ha b hb hab hidentity
  obtain ⟨s, ⟨before, after, hsplit, -⟩, around, l, m, hparts, -, -⟩ :=
    (conflict_iff h state hab).1 ⟨ha, hb, hidentity⟩
  have hs : s ∈ allSettings theme d := by
    rw [hsplit]
    simp
  exact (hunmixed s hs).not_partsTo hparts

end

/-- A fallback with a branch for a theme condition that stands beside it too. -/
def mixedDisplay : StyleDescription :=
  .ofList
    [("display", .conditional
      [("default", .conditional [("dark", .literal (.text "block"))]),
       ("dark", .literal (.text "flex"))])]

/-- A fallback beside a theme condition. -/
def plainEntries : List (String × StyleValue) :=
  [("default", .literal (.text "block")), ("dark", .literal (.text "flex"))]

def plainDisplay : StyleDescription := .ofList [("display", .conditional plainEntries)]

theorem visited_plain {ρ : Walk}
    (h : ReflTransGen (AnyStep smallTheme) ⟨∅, .conditional plainEntries, []⟩ ρ) :
    ρ = ⟨∅, .conditional plainEntries, []⟩ ∨ ∃ l, ρ.value = .literal l := by
  have hliteral : ∀ w ∈ ways smallTheme plainEntries, ∃ l, w.2 = .literal l :=
    List.forall_mem_cons.2 ⟨⟨_, rfl⟩, List.forall_mem_singleton.2 ⟨_, rfl⟩⟩
  induction h with
  | refl => exact .inl rfl
  | tail _ hstep ih =>
      obtain ⟨state, hstep⟩ := hstep
      obtain rfl | ⟨l, hl⟩ := ih
      · cases hstep with
        | followed hw => exact .inr (hliteral _ (List.mem_of_find?_eq_some hw))
        | undecided _ hw =>
            obtain hown | hnone := mem_of_mem_undecided hw
            · exact .inr (hliteral _ hown)
            · cases hnone
      · cases hstep with
        | followed => cases hl
        | undecided => cases hl

theorem unmixed_plain : Unmixed smallTheme (.conditional plainEntries) := by
  intro active entries inherited hvisit v hv w hw hvw
  obtain heq | ⟨l, hl⟩ := visited_plain hvisit
  · cases heq
    have hways : undecided (ways smallTheme plainEntries) [] =
        [(.fallback, .literal (.text "block")), (.theme 0, .literal (.text "flex"))] := rfl
    have hapart : KeptApart smallTheme ∅ (.theme 0, .literal (.text "flex"))
        (.fallback, .literal (.text "block")) :=
      ⟨0, rfl, Finset.notMem_empty 0, by decide, fun _ => offers_literal⟩
    rw [hways, List.mem_pair] at hv hw
    obtain rfl | rfl := hv
    · obtain rfl | rfl := hw
      · exact absurd rfl hvw
      · exact .inr hapart
    · obtain rfl | rfl := hw
      · exact .inl hapart
      · exact absurd rfl hvw
  · cases hl

theorem selected_conflicts_display :
    (∃ f, lower smallTheme mixedDisplay = .ok f ∧
      ∃ s, Decides smallTheme .empty mixedDisplay s ∧ ∃ around l m,
        PartsTo smallTheme .empty ⟨∅, s.2, []⟩ around around l m ∧
        "aaa" ∈ literalClasses s.1 around l ∧ "aab" ∈ literalClasses s.1 around m) ∧
    ∃ f, lower smallTheme plainDisplay = .ok f ∧
      ∀ state, ∀ a ∈ Text.words ((SelectionProcedure.ofForest f).select state),
        ∀ b ∈ Text.words ((SelectionProcedure.ofForest f).select state),
          a ≠ b → Code.identity? a ≠ Code.identity? b := by
  constructor
  · obtain ⟨f, hf, ha, hb⟩ :
        ∃ f, lower smallTheme mixedDisplay = .ok f ∧
          "aaa" ∈ Text.words ((SelectionProcedure.ofForest f).select .empty) ∧
          "aab" ∈ Text.words ((SelectionProcedure.ofForest f).select .empty) :=
      ⟨_, rfl, by decide +kernel, by decide +kernel⟩
    have hidentity : Code.identity? "aaa" = Code.identity? "aab" := by decide +kernel
    exact ⟨f, hf, ((selected_conflicts hf).1 .empty "aaa" "aab" (by decide)).1 ⟨ha, hb, hidentity⟩⟩
  · obtain ⟨f, hf⟩ : ∃ f, lower smallTheme plainDisplay = .ok f := ⟨_, rfl⟩
    refine ⟨f, hf, (selected_conflicts hf).2 fun s hs => ?_⟩
    obtain rfl := List.mem_singleton.1 hs
    exact unmixed_plain

/-- Two selected classes that set one property under the same condition. -/
theorem selected_twice_under_dark :
    ∃ f, lower smallTheme mixedDisplay = .ok f ∧
      Text.words ((SelectionProcedure.ofForest f).select .empty) = ["aaa", "aab"] ∧
      Code.identity? "aaa" = some "aa" ∧ Code.identity? "aab" = some "aa" :=
  ⟨_, rfl, by decide +kernel, by decide +kernel, by decide +kernel⟩

end AtomicStyles
