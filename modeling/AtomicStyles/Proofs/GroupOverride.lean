import AtomicStyles.Proofs.SelectedMeaning

/-!
# The last group that gives a class decides

A forest may hold several groups for one property. A procedure goes through them
from the last to the first and keeps a list of the properties that it has settled,
so what a group does depends on the groups behind it and on the state. Looked at
from outside it is a condition on each group by itself: it counts when it gives a
class and no later group of its unit gives one.

Nothing here asks where the forest comes from. The tokens may be any text, and
then the joining needs a word: a space is written after what stands there, so an
empty token that comes first is lost. The tokens that lowering makes are never
empty.
-/

namespace AtomicStyles

namespace RuleForest

/-- The tokens that the nodes of a group give under a state. -/
def output (f : RuleForest) (state : RenderState) (i : Fin f.groups.length) : List String :=
  Node.runAll state (Node.ofRules f.groups[i].rules)

/-- The group gives a token, and no later group of its unit does. -/
def Counts (f : RuleForest) (state : RenderState) (i : Fin f.groups.length) : Prop :=
  f.output state i ≠ [] ∧
    ∀ j, i < j → f.groups[j].unit = f.groups[i].unit → f.output state j = []

instance (f : RuleForest) (state : RenderState) : DecidablePred (f.Counts state) :=
  fun _ => inferInstanceAs (Decidable (_ ∧ _))

/-- The tokens of the groups that count, in the order of the groups and without
repeats. -/
def decided (f : RuleForest) (state : RenderState) : List String :=
  (((List.finRange f.groups.length).filter (f.Counts state)).flatMap (f.output state)).eraseDups

/-! ## One group more at the front -/

section

variable {g : PropertyRules} {gs : List PropertyRules} {state : RenderState}

theorem output_succ (i : Fin gs.length) :
    output ⟨g :: gs⟩ state i.succ = output ⟨gs⟩ state i := rfl

/-- A group in front of it does not matter to a group. -/
theorem counts_succ_iff (i : Fin gs.length) :
    Counts ⟨g :: gs⟩ state i.succ ↔ Counts ⟨gs⟩ state i := by
  rw [Counts, Counts, output_succ]
  refine and_congr_right fun _ => ?_
  constructor
  · intro h j hij hunit
    exact h j.succ (Fin.succ_lt_succ_iff.2 hij) hunit
  · intro h j hij hunit
    cases j using Fin.cases with
    | zero => exact absurd hij (Fin.not_lt_zero _)
    | succ j => exact h j (Fin.succ_lt_succ_iff.1 hij) hunit

/-- The first group counts when all others of its unit give nothing. -/
theorem counts_zero_iff :
    Counts ⟨g :: gs⟩ state (0 : Fin (gs.length + 1)) ↔
      Node.runAll state (Node.ofRules g.rules) ≠ [] ∧
        ∀ later ∈ gs, later.unit = g.unit → Node.runAll state (Node.ofRules later.rules) = [] := by
  refine and_congr_right fun _ => ?_
  constructor
  · intro h later hlater hunit
    obtain ⟨j, rfl⟩ := List.mem_iff_get.1 hlater
    exact h j.succ (Fin.succ_pos j) hunit
  · intro h j hj hunit
    cases j using Fin.cases with
    | zero => exact absurd hj (Nat.lt_irrefl 0)
    | succ j => exact h gs[j] (List.getElem_mem j.2) hunit

/-- The first group counts when it gives a class and no later contribution of its
unit does. -/
theorem counts_zero_iff_any :
    Counts ⟨g :: gs⟩ state (0 : Fin (gs.length + 1)) ↔
      Node.runAll state (Node.ofRules g.rules) ≠ [] ∧
        ((SelectionProcedure.ofForest ⟨gs⟩).groups.map
          (SelectionProcedure.contribution state)).any
            (fun later => later.1 == g.unit && !later.2.isEmpty) = false := by
  rw [counts_zero_iff]
  refine and_congr_right fun _ => ?_
  rw [SelectionProcedure.ofForest, List.map_map, List.any_map, List.any_eq_false]
  refine forall₂_congr fun later _ => ?_
  simp [SelectionProcedure.contribution]

end

/-! ## All groups -/

/-- Going backwards with the settled properties finds the groups that count. -/
theorem effective_eq (state : RenderState) (groups : List PropertyRules) :
    (SelectionProcedure.effective state (SelectionProcedure.ofForest ⟨groups⟩).groups).1 =
      ((List.finRange groups.length).filter (Counts ⟨groups⟩ state)).flatMap
        (output ⟨groups⟩ state) := by
  rw [(SelectionProcedure.effective_deciding state _).1]
  induction groups with
  | nil => rfl
  | cons g gs ih =>
      have htail : ((List.finRange gs.length).map Fin.succ).filter (Counts ⟨g :: gs⟩ state) =
          ((List.finRange gs.length).filter (Counts ⟨gs⟩ state)).map Fin.succ := by
        rw [List.filter_map]
        refine congrArg _ (List.filter_congr fun i _ => ?_)
        exact decide_eq_decide.2 (counts_succ_iff i)
      show Meaning.deciding (SelectionProcedure.contribution state _ ::
        (SelectionProcedure.ofForest ⟨gs⟩).groups.map (SelectionProcedure.contribution state)) = _
      rw [SelectionProcedure.contribution, Meaning.deciding, ih]
      show _ = ((List.finRange (gs.length + 1)).filter _).flatMap _
      rw [List.finRange_succ]
      by_cases hzero : Counts ⟨g :: gs⟩ state (0 : Fin (gs.length + 1))
      · rw [List.filter_cons_of_pos (by simpa using hzero), List.flatMap_cons, htail,
          List.flatMap_map, if_neg]
        · rfl
        · rw [(counts_zero_iff_any.1 hzero).2]
          exact Bool.false_ne_true
      · rw [List.filter_cons_of_neg (by simpa using hzero), htail, List.flatMap_map]
        split
        · rfl
        · rename_i hany
          have hnone : Node.runAll state (Node.ofRules g.rules) = [] := by
            by_contra hne
            exact hzero (counts_zero_iff_any.2 ⟨hne, by simpa using hany⟩)
          rw [hnone]
          rfl

end RuleForest

namespace SelectionProcedure

/-- The selected class list has the tokens of the groups that count, for any
forest. An empty token is left out when it comes first. -/
theorem select_of_groups (f : RuleForest) (state : RenderState) :
    (ofForest f).select state =
      " ".intercalate ((f.decided state).dropWhile (·.isEmpty)) := by
  have hselected : (ofForest f).selected state = f.decided state := by
    rw [selected, firsts_eq_eraseDups, RuleForest.decided]
    exact congrArg List.eraseDups (RuleForest.effective_eq state f.groups)
  rw [select, foldl_addClass, hselected]

/-- Joining all the tokens is a different list: it starts with a space here. -/
theorem select_without_empty_token :
    let f : RuleForest := ⟨[⟨"a", "display",
      [.leaf (.class "" []) none none [], .leaf (.class "ab" []) none none []]⟩]⟩
    f.decided .empty = ["", "ab"] ∧ (ofForest f).select .empty = "ab" ∧
      (ofForest f).select .empty ≠ " ".intercalate (f.decided .empty) := by
  decide +kernel

end SelectionProcedure

end AtomicStyles
