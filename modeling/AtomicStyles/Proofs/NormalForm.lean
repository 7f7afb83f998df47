import AtomicStyles.Proofs.Meaning
import AtomicStyles.Proofs.Success

/-!
# The normal form, way by way

The normalizer gathers the arms of an object and then gives each its branch.
Seen from the interpreter's side the arms are the ways of the object and a
scope is what the object hands down, each way settled with nothing handed to
it. `ofValue_conditional_ok_iff` puts both together and says all that
normalizing an object does: its branches are the normal forms of its ways, in
order, and then those of the ways that it takes over.
-/

namespace AtomicStyles.StyleNode

open Meaning (Way ways handedDown undeclared)

theorem mem_of_mem_handedDown {own inherited : List Way} {w : Way}
    (h : w ∈ handedDown own inherited) : w ∈ own ∨ w ∈ inherited := by
  rcases List.mem_append.1 h with h | h
  · rcases List.mem_append.1 h with h | h
    · exact .inl (List.mem_of_find?_eq_some (Option.mem_toList.1 h))
    · exact .inl (List.mem_filter.1 h).1
  · exact .inr (List.mem_filter.1 h).1

/-- The scope that ways make: each with its normal form when nothing is handed
to it. -/
def settle (theme : Theme) (property : String) (ws : List Way) : Scope :=
  ws.map fun w => (w.1, ofValue theme property w.2 [])

/-- The arm of a way. -/
def armOf (theme : Theme) (property : String) (w : Way) : Arm :=
  if w.1.isDynamic then .dynamic w.1 (ofValue theme property w.2)
  else .settled w.1 (ofValue theme property w.2 [])

/-- What is handed to a way: the scope when a state decides it, and nothing
otherwise. -/
def handedTo (handed : List Way) (w : Way) : List Way :=
  if w.1.isDynamic then handed else []

/-- A branch is the normal form of a way. -/
def BranchOf (theme : Theme) (property : String) (handed : List Way) (w : Way)
    (b : BranchCondition × StyleNode) : Prop :=
  b.1 = w.1 ∧ ofValue theme property w.2 (settle theme property (handedTo handed w)) = .ok b.2

/-- A branch is the normal form of a way that is handed nothing. -/
def SettledOf (theme : Theme) (property : String) (w : Way)
    (b : BranchCondition × StyleNode) : Prop :=
  b.1 = w.1 ∧ ofValue theme property w.2 [] = .ok b.2

section

variable {theme : Theme} {property : String}

theorem isVariantKey_iff {key : String} :
    isVariantKey theme key ↔
      key ≠ "default" ∧ theme.condition? key = none ∧ isFlagName key = false := by
  rw [isVariantKey]
  simp only [Bool.and_eq_true, bne_iff_ne, Option.isNone_iff_eq_none, Bool.not_eq_true', and_assoc]

theorem tagArms_eq_map (name : String) (tags : List (String × StyleValue)) :
    tagArms theme property name tags =
      tags.map fun t => armOf theme property (Meaning.tagCondition name t.1, t.2) := by
  induction tags with
  | nil => rfl
  | cons t ts ih =>
      obtain ⟨tag, value⟩ := t
      rw [tagArms, ih, List.map_cons, armOf, Meaning.tagCondition]
      by_cases htag : tag = "default"
      · rw [if_pos htag, if_pos htag]
        rfl
      · rw [if_neg htag, if_neg htag]
        rfl

/-- The arms of an object are its ways. -/
theorem arms_eq_map (entries : List (String × StyleValue)) :
    arms theme property entries = (ways theme entries).map (armOf theme property) := by
  induction entries with
  | nil => rfl
  | cons e es ih =>
      obtain ⟨key, value⟩ := e
      have hways : ways theme ((key, value) :: es) =
          Meaning.entryWays theme key value ++ ways theme es := by
        simp [ways]
      rw [hways, List.map_append, ← ih, arms.eq_def, Meaning.entryWays.eq_def]
      dsimp only
      congr 1
      by_cases hkey : key = "default"
      · rw [if_pos hkey, if_pos hkey]
        rfl
      · rw [if_neg hkey, if_neg hkey]
        cases theme.condition? key with
        | some kind => cases kind <;> rfl
        | none =>
            dsimp only
            by_cases hflag : isFlagName key
            · rw [if_pos hflag, if_pos hflag]
              rfl
            · rw [if_neg hflag, if_neg hflag]
              cases value with
              | literal l => rfl
              | conditional tags =>
                  dsimp only
                  rw [tagArms_eq_map, List.map_map]
                  rfl

theorem fallbackArm_map (ws : List Way) :
    fallbackArm (ws.map (armOf theme property)) =
      settle theme property (ws.find? fun w => w.1 = .fallback).toList := by
  induction ws with
  | nil => rfl
  | cons w ws ih =>
      obtain ⟨c, value⟩ := w
      cases c with
      | fallback => rfl
      | theme id => exact ih
      | flag name => exact ih
      | variant name tag => exact ih

theorem themeArms_map (ws : List Way) :
    themeArms (ws.map (armOf theme property)) =
      settle theme property (ws.filter fun w => w.1.isTheme) := by
  induction ws with
  | nil => rfl
  | cons w ws ih =>
      obtain ⟨c, value⟩ := w
      cases c with
      | fallback => exact ih
      | theme id => exact congrArg _ ih
      | flag name => exact ih
      | variant name tag => exact ih

/-- What the arms declare is what the ways declare. -/
theorem declared_arms (ws : List Way) :
    fallbackArm (ws.map (armOf theme property)) ++ themeArms (ws.map (armOf theme property)) =
      settle theme property (Meaning.declared ws) := by
  rw [fallbackArm_map, themeArms_map, Meaning.declared, settle, settle, settle, List.map_append]

theorem missing_settle (own inherited : List Way) :
    missing (settle theme property (Meaning.declared own)) (settle theme property inherited) =
      settle theme property (undeclared own inherited) := by
  rw [missing, settle, settle, settle, undeclared, List.filter_map]
  simp only [Function.comp_def, List.all_map]

theorem branch_armOf_ok_iff {handed : List Way} {w : Way} {b : BranchCondition × StyleNode} :
    (armOf theme property w).branch (settle theme property handed) = .ok b ↔
      BranchOf theme property handed w b := by
  have branch : (armOf theme property w).branch (settle theme property handed) =
      (ofValue theme property w.2 (settle theme property (handedTo handed w))).map
        fun n => (w.1, n) := by
    unfold armOf handedTo
    split <;> rfl
  rw [branch, map_eq_ok_iff, BranchOf]
  constructor
  · rintro ⟨n, hn, rfl⟩
    exact ⟨rfl, hn⟩
  · rintro ⟨hc, hn⟩
    exact ⟨b.2, hn, by rw [← hc]⟩

theorem settled_ok_iff {w : Way} {b : BranchCondition × StyleNode} :
    (ofValue theme property w.2 []).map (fun n => (w.1, n)) = .ok b ↔
      SettledOf theme property w b := by
  rw [map_eq_ok_iff, SettledOf]
  constructor
  · rintro ⟨n, hn, rfl⟩
    exact ⟨rfl, hn⟩
  · rintro ⟨hc, hn⟩
    exact ⟨b.2, hn, by rw [← hc]⟩

/-- A way that no state decides is settled wherever it stands. -/
theorem branchOf_static_iff {handed : List Way} {w : Way} {b : BranchCondition × StyleNode}
    (hw : ¬ w.1.isDynamic) :
    BranchOf theme property handed w b ↔ SettledOf theme property w b := by
  rw [BranchOf, handedTo, if_neg hw]
  exact Iff.rfl

theorem ofArms_ways_ok_iff {own inherited : List Way} {tree : StyleNode} :
    ofArms (own.map (armOf theme property)) (settle theme property inherited) = .ok tree ↔
      ∃ bs rest,
        List.Forall₂ (BranchOf theme property (handedDown own inherited)) own bs ∧
        List.Forall₂ (SettledOf theme property) (undeclared own inherited) rest ∧
        tree = .branching (bs ++ rest) := by
  have handed : settle theme property (Meaning.declared own) ++
      settle theme property (undeclared own inherited) =
        settle theme property (handedDown own inherited) := by
    rw [settle, settle, settle, handedDown, List.map_append]
  rw [ofArms, declared_arms, missing_settle, handed, bind_eq_ok_iff]
  constructor
  · rintro ⟨bs, hbs, h⟩
    obtain ⟨rest, hrest, h⟩ := bind_eq_ok_iff.1 h
    refine ⟨bs, rest, ?_, ?_, (Except.ok.inj h).symm⟩
    · exact (List.forall₂_map_left_iff.1 (mapM_eq_ok_iff.1 hbs)).imp
        fun _ _ => branch_armOf_ok_iff.1
    · exact (List.forall₂_map_left_iff.1 (mapM_eq_ok_iff.1 hrest)).imp
        fun _ _ => settled_ok_iff.1
  · rintro ⟨bs, rest, hbs, hrest, rfl⟩
    refine ⟨bs, ?_, bind_eq_ok_iff.2 ⟨rest, ?_, rfl⟩⟩
    · exact mapM_eq_ok_iff.2 (List.forall₂_map_left_iff.2
        (hbs.imp fun _ _ => branch_armOf_ok_iff.2))
    · exact mapM_eq_ok_iff.2 (List.forall₂_map_left_iff.2
        (hrest.imp fun _ _ => settled_ok_iff.2))

theorem ofValue_literal_ok_iff {l : Literal} {scope : Scope} {tree : StyleNode} :
    ofValue theme property (.literal l) scope = .ok tree ↔ tree = .leaf l := by
  rw [ofValue]
  exact ⟨fun h => (Except.ok.inj h).symm, fun h => congrArg Except.ok h.symm⟩

/-- An object normalizes when its entries pass the check and all its ways and
all the ways that it takes over normalize. The branches stand in this order. -/
theorem ofValue_conditional_ok_iff {entries : List (String × StyleValue)}
    {inherited : List Way} {tree : StyleNode} :
    ofValue theme property (.conditional entries) (settle theme property inherited) = .ok tree ↔
      check theme property (Entries.has entries "default") entries = .ok () ∧
      ∃ bs rest,
        List.Forall₂
          (BranchOf theme property (handedDown (ways theme entries) inherited))
          (ways theme entries) bs ∧
        List.Forall₂ (SettledOf theme property)
          (undeclared (ways theme entries) inherited) rest ∧
        tree = .branching (bs ++ rest) := by
  rw [ofValue, bind_eq_ok_iff, arms_eq_map]
  constructor
  · rintro ⟨⟨⟩, hcheck, h⟩
    exact ⟨hcheck, ofArms_ways_ok_iff.1 h⟩
  · rintro ⟨hcheck, h⟩
    exact ⟨(), hcheck, ofArms_ways_ok_iff.2 h⟩

end

end AtomicStyles.StyleNode
