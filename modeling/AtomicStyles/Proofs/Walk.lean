import Mathlib.Logic.Relation
import AtomicStyles.Proofs.NearestFallback

/-!
# The interpreter, one step at a time

The interpreter goes down into a value until it stands at literals. As a walk it has
a choice at one kind of place only: where the state satisfies no way of an object,
each of the undecided ways is gone. So the classes of a value are those of the
literals where a walk can end, and two walks that end differently part at such an
object and go different ways from there.

A step adds a theme condition when it enters one and takes none away. What a walk
comes across later is inside the value where it stands now or was handed to it, so
the conditions at its end are those that were active, or they occur in there.
-/

namespace AtomicStyles.Meaning

open Lowering (Target)
open Relation (ReflTransGen)

/-- Where a walk stands: the active theme conditions, the value that it looks at, and
what enclosing objects hand down to it. -/
structure Walk where
  active : Finset ConditionId
  value : StyleValue
  inherited : List Way

/-- A walk that enters a way without being handed anything. -/
def Walk.enter (active : Finset ConditionId) (w : Way) : Walk :=
  ⟨w.1.enter active, w.2, []⟩

/-- One step of a walk through an object, under a state. -/
inductive Step (theme : Theme) (state : RenderState) : Walk → Walk → Prop
  /-- The first way that the state satisfies is the only one to go. -/
  | followed {active : Finset ConditionId} {entries : List (String × StyleValue)}
      {inherited : List Way} {w : Way}
      (h : (ways theme entries).find? (fun w => w.1.holds state) = some w) :
      Step theme state ⟨active, .conditional entries, inherited⟩
        ⟨active, w.2, handedDown (ways theme entries) inherited⟩
  /-- The state satisfies none, and any way may be gone that no state decides. -/
  | undecided {active : Finset ConditionId} {entries : List (String × StyleValue)}
      {inherited : List Way} {w : Way}
      (h : (ways theme entries).find? (fun w => w.1.holds state) = none)
      (hw : w ∈ undecided (ways theme entries) inherited) :
      Step theme state ⟨active, .conditional entries, inherited⟩ (.enter active w)

/-- A walk ends at a literal, under some theme conditions. -/
def EndsAt (theme : Theme) (state : RenderState) (σ : Walk) (around : Finset ConditionId)
    (l : Literal) : Prop :=
  ∃ inherited, ReflTransGen (Step theme state) σ ⟨around, .literal l, inherited⟩

section

variable {theme : Theme} {state : RenderState} {active : Finset ConditionId}
  {entries : List (String × StyleValue)} {inherited : List Way}

theorem endsAt_literal_iff {l m : Literal} {around : Finset ConditionId} :
    EndsAt theme state ⟨active, .literal l, inherited⟩ around m ↔ around = active ∧ m = l := by
  constructor
  · rintro ⟨inherited', h⟩
    obtain heq | ⟨τ, hstep, -⟩ := Relation.ReflTransGen.cases_head h
    · cases heq
      exact ⟨rfl, rfl⟩
    · cases hstep
  · rintro ⟨rfl, rfl⟩
    exact ⟨inherited, .refl⟩

theorem endsAt_followed_iff {w : Way}
    (hw : (ways theme entries).find? (fun w => w.1.holds state) = some w)
    {around : Finset ConditionId} {l : Literal} :
    EndsAt theme state ⟨active, .conditional entries, inherited⟩ around l ↔
      EndsAt theme state ⟨active, w.2, handedDown (ways theme entries) inherited⟩ around l := by
  constructor
  · rintro ⟨inherited', h⟩
    obtain heq | ⟨τ, hstep, h⟩ := Relation.ReflTransGen.cases_head h
    · cases heq
    · cases hstep with
      | followed hv =>
          cases hw.symm.trans hv
          exact ⟨inherited', h⟩
      | undecided hnone => cases hw.symm.trans hnone
  · rintro ⟨inherited', h⟩
    exact ⟨inherited', .head (.followed hw) h⟩

theorem endsAt_undecided_iff
    (hnone : (ways theme entries).find? (fun w => w.1.holds state) = none)
    {around : Finset ConditionId} {l : Literal} :
    EndsAt theme state ⟨active, .conditional entries, inherited⟩ around l ↔
      ∃ w ∈ undecided (ways theme entries) inherited,
        EndsAt theme state (.enter active w) around l := by
  constructor
  · rintro ⟨inherited', h⟩
    obtain heq | ⟨τ, hstep, h⟩ := Relation.ReflTransGen.cases_head h
    · cases heq
    · cases hstep with
      | followed hv => cases hnone.symm.trans hv
      | undecided _ hw => exact ⟨_, hw, inherited', h⟩
  · rintro ⟨w, hw, inherited', h⟩
    exact ⟨inherited', .head (.undecided hnone hw) h⟩

end

/-! ## What the interpreter gives -/

/-- The interpreter gives the classes of the literals where a walk ends. -/
theorem mem_follow_iff {theme : Theme} {state : RenderState} {target : Target}
    (active : Finset ConditionId) (value : StyleValue) (inherited : List Way) (c : String) :
    c ∈ follow theme state target active value inherited ↔
      ∃ around l, EndsAt theme state ⟨active, value, inherited⟩ around l ∧
        c ∈ literalClasses target around l := by
  refine Meaning.follow.induct theme state
    (fun active value inherited => c ∈ follow theme state target active value inherited ↔
      ∃ around l, EndsAt theme state ⟨active, value, inherited⟩ around l ∧
        c ∈ literalClasses target around l)
    (fun active ws => c ∈ followAll theme state target active ws ↔
      ∃ w ∈ ws, ∃ around l, EndsAt theme state (.enter active w) around l ∧
        c ∈ literalClasses target around l)
    ?literal ?followed ?undecided ?nil ?cons active value inherited
  case literal =>
    intro active inherited l
    simp only [follow, endsAt_literal_iff]
    constructor
    · intro hc
      exact ⟨active, l, ⟨rfl, rfl⟩, hc⟩
    · rintro ⟨around, m, ⟨rfl, rfl⟩, hc⟩
      exact hc
  case followed =>
    intro active inherited entries w hw ih
    simp only [endsAt_followed_iff hw]
    rw [follow, hw]
    exact ih
  case undecided =>
    intro active inherited entries hnone ih
    simp only [endsAt_undecided_iff hnone]
    rw [follow, hnone]
    dsimp only
    rw [ih]
    tauto
  case nil =>
    intro active
    simp [followAll]
  case cons =>
    intro active w ws ih ihs
    rw [followAll, List.mem_append, ih, ihs, List.exists_mem_cons_iff]
    rfl

/-! ## Where walks part -/

section

variable {theme : Theme} {state : RenderState}

/-- A walk comes to an object where the state satisfies no way, and there two of its
ways lead to the two ends. -/
def PartsTo (theme : Theme) (state : RenderState) (σ : Walk) (around around' : Finset ConditionId)
    (l m : Literal) : Prop :=
  ∃ active entries inherited,
    ReflTransGen (Step theme state) σ ⟨active, .conditional entries, inherited⟩ ∧
    (ways theme entries).find? (fun w => w.1.holds state) = none ∧
    ∃ v ∈ undecided (ways theme entries) inherited, ∃ w ∈ undecided (ways theme entries) inherited,
      v ≠ w ∧ EndsAt theme state (.enter active v) around l ∧
        EndsAt theme state (.enter active w) around' m

theorem PartsTo.head {σ τ : Walk} (hstep : Step theme state σ τ)
    {around around' : Finset ConditionId} {l m : Literal}
    (h : PartsTo theme state τ around around' l m) :
    PartsTo theme state σ around around' l m := by
  obtain ⟨active, entries, inherited, hreach, hrest⟩ := h
  exact ⟨active, entries, inherited, .head hstep hreach, hrest⟩

theorem PartsTo.ends {σ : Walk} {around around' : Finset ConditionId} {l m : Literal}
    (h : PartsTo theme state σ around around' l m) :
    EndsAt theme state σ around l ∧ EndsAt theme state σ around' m := by
  obtain ⟨active, entries, inherited, hreach, hnone, v, hv, w, hw, -, ⟨inner, hl⟩, inner', hm⟩ := h
  exact ⟨⟨inner, hreach.trans (.head (.undecided hnone hv) hl)⟩,
    inner', hreach.trans (.head (.undecided hnone hw) hm)⟩

/-- Two walks from one place end alike or part. -/
theorem ends_alike_or_part {σ : Walk} {around around' : Finset ConditionId} {l m : Literal}
    (hl : EndsAt theme state σ around l) (hm : EndsAt theme state σ around' m) :
    (around = around' ∧ l = m) ∨ PartsTo theme state σ around around' l m := by
  obtain ⟨inherited, hl⟩ := hl
  -- the second walk keeps to the first until it takes another way
  induction hl using Relation.ReflTransGen.head_induction_on with
  | refl =>
      obtain ⟨rfl, rfl⟩ := endsAt_literal_iff.1 hm
      exact .inl ⟨rfl, rfl⟩
  | @head σ τ hstep hrest ih =>
      cases hstep with
      | followed hw =>
          exact (ih ((endsAt_followed_iff hw).1 hm)).imp id (PartsTo.head (.followed hw))
      | @undecided active entries handed v hnone hv =>
          obtain ⟨w, hw, hm⟩ := (endsAt_undecided_iff hnone).1 hm
          by_cases hvw : v = w
          · subst hvw
            exact (ih hm).imp id (PartsTo.head (.undecided hnone hv))
          · exact .inr ⟨active, entries, handed, .refl, hnone, v, hv, w, hw, hvw, ⟨_, hrest⟩, hm⟩

/-! ## What a walk comes across -/

/-- A way inside the value where a walk stands or inside what was handed to it. -/
def Walk.Sees (theme : Theme) (σ : Walk) (w : Way) : Prop :=
  Offers theme σ.value w ∨ ∃ v ∈ σ.inherited, v = w ∨ Offers theme v.2 w

/-- The ways of an object, and those handed to it, are seen from it with all that is
inside them. -/
theorem sees_of_mem {active : Finset ConditionId} {entries : List (String × StyleValue)}
    {inherited : List Way} {v w : Way} (hv : v ∈ ways theme entries ∨ v ∈ inherited)
    (hw : v = w ∨ Offers theme v.2 w) :
    Walk.Sees theme ⟨active, .conditional entries, inherited⟩ w := by
  rcases hv with hv | hv
  · rcases hw with rfl | hw
    · exact .inl (.own hv)
    · exact .inl (.deeper hv hw)
  · exact .inr ⟨v, hv, hw⟩

theorem mem_of_mem_undecided {own inherited : List Way} {w : Way}
    (h : w ∈ undecided own inherited) : w ∈ own ∨ w ∈ inherited := by
  rcases List.mem_append.1 h with h | h
  · exact .inl (List.mem_filter.1 h).1
  · exact .inr (List.mem_filter.1 h).1

/-- A step leads to nothing that was not seen before. -/
theorem Step.sees {σ τ : Walk} (h : Step theme state σ τ) {w : Way} (hw : τ.Sees theme w) :
    σ.Sees theme w := by
  cases h with
  | @followed active entries inherited u hu =>
      obtain hw | ⟨v, hv, hw⟩ := hw
      · exact sees_of_mem (.inl (List.mem_of_find?_eq_some hu)) (.inr hw)
      · exact sees_of_mem (StyleNode.mem_of_mem_handedDown hv) hw
  | @undecided active entries inherited u hnone hu =>
      obtain hw | ⟨v, hv, -⟩ := hw
      · exact sees_of_mem (mem_of_mem_undecided hu) (.inr hw)
      · cases hv

/-- A step keeps the active conditions and adds none that was not seen. -/
theorem Step.active {σ τ : Walk} (h : Step theme state σ τ) :
    σ.active ⊆ τ.active ∧
      ∀ id ∈ τ.active, id ∈ σ.active ∨ ∃ value, σ.Sees theme (.theme id, value) := by
  cases h with
  | followed hu => exact ⟨subset_rfl, fun id hid => .inl hid⟩
  | @undecided active entries inherited u hnone hu =>
      obtain ⟨c, value⟩ := u
      cases c with
      | theme id' =>
          refine ⟨Finset.subset_insert id' active, fun id hid => ?_⟩
          rcases Finset.mem_insert.1 hid with rfl | hid
          · exact .inr ⟨value, sees_of_mem (mem_of_mem_undecided hu) (.inl rfl)⟩
          · exact .inl hid
      | fallback => exact ⟨subset_rfl, fun id hid => .inl hid⟩
      | flag name => exact ⟨subset_rfl, fun id hid => .inl hid⟩
      | variant name tag => exact ⟨subset_rfl, fun id hid => .inl hid⟩

/-- So does a walk. -/
theorem walk_active {σ τ : Walk} (h : ReflTransGen (Step theme state) σ τ) :
    σ.active ⊆ τ.active ∧
      (∀ id ∈ τ.active, id ∈ σ.active ∨ ∃ value, σ.Sees theme (.theme id, value)) ∧
      ∀ w, τ.Sees theme w → σ.Sees theme w := by
  induction h with
  | refl => exact ⟨subset_rfl, fun id hid => .inl hid, fun w => id⟩
  | tail _ hstep ih =>
      obtain ⟨hsubset, hseen, hsees⟩ := ih
      obtain ⟨hmore, hadded⟩ := hstep.active
      refine ⟨hsubset.trans hmore, fun id hid => ?_, fun w hw => hsees w (hstep.sees hw)⟩
      rcases hadded id hid with hid | ⟨value, hvalue⟩
      · exact hseen id hid
      · exact .inr ⟨value, hsees _ hvalue⟩

end

end AtomicStyles.Meaning
