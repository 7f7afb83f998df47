import AtomicStyles.Proofs.AcceptedValues
import AtomicStyles.Proofs.LoweredClasses

/-!
# The literals of a value are the leaves of its normal form

Normalizing moves literals around. An object that takes over a value settles it
once more, so a literal may have several leaves, and a leaf may stand far from its
literal. But none is lost and none is made up. What is found inside a normal form is
in the value or was handed to it, and a whole value is handed nothing.
-/

namespace AtomicStyles

namespace StyleValue

mutual

/-- The literals in a value, at any depth. -/
def literals : StyleValue → List Literal
  | .literal l => [l]
  | .conditional entries => entryLiterals entries

/-- The literals in the values of entries. -/
def entryLiterals : List (String × StyleValue) → List Literal
  | [] => []
  | (_, value) :: es => value.literals ++ entryLiterals es

end

theorem mem_literals_conditional {entries : List (String × StyleValue)} {l : Literal} :
    l ∈ (conditional entries).literals ↔ ∃ e ∈ entries, l ∈ e.2.literals := by
  rw [literals]
  induction entries with
  | nil => simp [entryLiterals]
  | cons e es ih => rw [entryLiterals, List.mem_append, ih, List.exists_mem_cons_iff]

end StyleValue

namespace StyleNode

open Meaning (Way ways waysSize handedDown undeclared)

variable {theme : Theme} {property : String}

/-- The literals of a well-formed object are those where its ways lead. -/
theorem mem_literals_ways {entries : StyleObject} (h : WellFormed theme entries) {l : Literal} :
    l ∈ (StyleValue.conditional entries).literals ↔ ∃ w ∈ ways theme entries, l ∈ w.2.literals := by
  rw [StyleValue.mem_literals_conditional, exists_mem_ways_iff (P := fun v => l ∈ v.literals)]
  constructor
  · rintro ⟨⟨key, value⟩, he, hl⟩
    by_cases hkey : isVariantKey theme key
    · obtain ⟨tags, rfl⟩ := h.tagged _ he hkey
      exact ⟨_, he, .inr ⟨hkey, tags, rfl, StyleValue.mem_literals_conditional.1 hl⟩⟩
    · exact ⟨_, he, .inl ⟨hkey, hl⟩⟩
  · rintro ⟨⟨key, value⟩, he, ⟨-, hl⟩ | ⟨-, tags, rfl, htags⟩⟩
    · exact ⟨_, he, hl⟩
    · exact ⟨_, he, StyleValue.mem_literals_conditional.2 htags⟩

theorem mem_branchLeaves {active : List ConditionId} {bs : List (BranchCondition × StyleNode)}
    {leaf : List ConditionId × Literal} :
    leaf ∈ branchLeaves active bs ↔ ∃ b ∈ bs, leaf ∈ b.2.leaves (b.1.within active) := by
  induction bs with
  | nil => simp [branchLeaves]
  | cons b bs ih => rw [branchLeaves, List.mem_append, ih, List.exists_mem_cons_iff]

/-- Every literal of a value is a leaf of its normal form. -/
theorem exists_leaf {value : StyleValue} {inherited : List Way} {tree : StyleNode}
    (h : ofValue theme property value (settle theme property inherited) = .ok tree) {l : Literal}
    (hl : l ∈ value.literals) (active : List ConditionId) :
    ∃ leaf ∈ tree.leaves active, leaf.2 = l := by
  match value with
  | .literal l' =>
      rw [ofValue_literal_ok_iff.1 h]
      rw [StyleValue.literals, List.mem_singleton] at hl
      exact ⟨_, List.mem_singleton.2 rfl, hl.symm⟩
  | .conditional entries =>
      obtain ⟨hcheck, bs, rest, hbs, -, rfl⟩ := ofValue_conditional_ok_iff.1 h
      obtain ⟨w, hw, hl⟩ := (mem_literals_ways (check_entries_ok_iff.1 hcheck)).1 hl
      obtain ⟨b, hb, -, hn⟩ := exists_of_forall₂_left hbs hw
      obtain ⟨leaf, hleaf, heq⟩ := exists_leaf hn hl (b.1.within active)
      exact ⟨leaf, mem_branchLeaves.2 ⟨b, List.mem_append_left _ hb, hleaf⟩, heq⟩
termination_by value.size
decreasing_by exact size_lt_of_mem_ways hw

theorem mem_of_mem_handedTo {own inherited : List Way} {w v : Way}
    (h : v ∈ handedTo (handedDown own inherited) w) : v ∈ own ∨ v ∈ inherited := by
  rw [handedTo] at h
  split at h
  · exact mem_of_mem_handedDown h
  · cases h

theorem waysSize_handedTo_lt {own : List Way} {w : Way} (hw : w ∈ own) (inherited : List Way) :
    w.2.size + waysSize (handedTo (handedDown own inherited) w) <
      waysSize own + waysSize inherited := by
  rw [handedTo]
  split
  · next hd => exact Meaning.waysSize_handedDown_lt hw hd inherited
  · have hlt := Meaning.size_lt_waysSize hw
    rw [Meaning.waysSize_nil]
    omega

/-- Every leaf of a normal form is a literal of the value or of what was handed to
it. -/
theorem literal_of_leaf {value : StyleValue} {inherited : List Way} {tree : StyleNode}
    (h : ofValue theme property value (settle theme property inherited) = .ok tree)
    {active : List ConditionId} {leaf : List ConditionId × Literal}
    (hleaf : leaf ∈ tree.leaves active) :
    leaf.2 ∈ value.literals ∨ ∃ w ∈ inherited, leaf.2 ∈ w.2.literals := by
  match value with
  | .literal l =>
      rw [ofValue_literal_ok_iff.1 h, leaves, List.mem_singleton] at hleaf
      rw [hleaf]
      exact .inl (List.mem_singleton.2 rfl)
  | .conditional entries =>
      obtain ⟨hcheck, bs, rest, hbs, hrest, rfl⟩ := ofValue_conditional_ok_iff.1 h
      have hown := mem_literals_ways (l := leaf.2) (check_entries_ok_iff.1 hcheck)
      obtain ⟨b, hb, hleaf⟩ := mem_branchLeaves.1 hleaf
      rcases List.mem_append.1 hb with hb | hb
      · obtain ⟨w, hw, -, hn⟩ := exists_of_forall₂_right hbs hb
        obtain hl | ⟨v, hv, hl⟩ := literal_of_leaf hn hleaf
        · exact .inl (hown.2 ⟨w, hw, hl⟩)
        · rcases mem_of_mem_handedTo hv with hv | hv
          · exact .inl (hown.2 ⟨v, hv, hl⟩)
          · exact .inr ⟨v, hv, hl⟩
      · obtain ⟨w, hw, -, hn⟩ := exists_of_forall₂_right hrest hb
        have hinherited := (List.mem_filter.1 hw).1
        have hsettled : ofValue theme property w.2 (settle theme property []) = .ok b.2 := hn
        obtain hl | ⟨v, hv, -⟩ := literal_of_leaf hsettled hleaf
        · exact .inr ⟨w, hinherited, hl⟩
        · cases hv
termination_by value.size + waysSize inherited
decreasing_by
  · have hlt := waysSize_handedTo_lt hw inherited
    have hle := Meaning.waysSize_ways_le theme entries
    rw [StyleValue.size]
    omega
  · have hlt := Meaning.size_lt_waysSize hinherited
    rw [Meaning.waysSize_nil]
    omega

/-- The leaves of a normal form are the literals of its value. -/
theorem literals_of_normalize {value : StyleValue} {tree : StyleNode}
    (h : normalize theme property value = .ok tree) {l : Literal} :
    (∃ leaf ∈ tree.leaves [], leaf.2 = l) ↔ l ∈ value.literals := by
  have hsettled : ofValue theme property value (settle theme property []) = .ok tree := h
  constructor
  · rintro ⟨leaf, hleaf, rfl⟩
    obtain hl | ⟨v, hv, -⟩ := literal_of_leaf hsettled hleaf
    · exact hl
    · cases hv
  · intro hl
    exact exists_leaf hsettled hl []

end StyleNode

end AtomicStyles
