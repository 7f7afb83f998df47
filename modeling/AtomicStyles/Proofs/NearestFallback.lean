import AtomicStyles.Proofs.SelectedMeaning

/-!
# The nearest fallback

An object may declare a fallback under the key `default` or as the `default` of a
variant, and what it declares is handed down to the objects inside it until a
nearer one declares its own. A second fallback of one object is refused.

So it can be said which fallback an object ends up with: its own if it declares
one, and otherwise the one handed to it. That leaves one at most. There is one as
soon as some object above declared one, and this is the invariant of the
induction over a value: once it holds it holds for everything inside. Flags and
tags hand all of it down. Behind a theme condition nothing is promised, because
what is there is a class of its own that no state chooses.
-/

namespace AtomicStyles

/-- The fallbacks among ways or branches. -/
def fallbacks {α : Type} (bs : List (BranchCondition × α)) : List (BranchCondition × α) :=
  bs.filter fun b => b.1 = .fallback

theorem fallbacks_cons {α : Type} (b : BranchCondition × α) (bs : List (BranchCondition × α)) :
    fallbacks (b :: bs) = if b.1 = .fallback then b :: fallbacks bs else fallbacks bs := by
  simp [fallbacks, List.filter_cons]

theorem fallbacks_append {α : Type} (bs cs : List (BranchCondition × α)) :
    fallbacks (bs ++ cs) = fallbacks bs ++ fallbacks cs :=
  List.filter_append ..

theorem mem_fallbacks {α : Type} {bs : List (BranchCondition × α)} {b : BranchCondition × α} :
    b ∈ fallbacks bs ↔ b ∈ bs ∧ b.1 = .fallback := by
  rw [fallbacks, List.mem_filter, decide_eq_true_iff]

namespace Meaning

/-- An object declares a fallback, under the key `default` or as the `default` of a
variant. -/
def DeclaresFallback (theme : Theme) (entries : List (String × StyleValue)) : Prop :=
  (∃ value, ("default", value) ∈ entries) ∨
    ∃ key tags value, (key, .conditional tags) ∈ entries ∧ StyleNode.isVariantKey theme key ∧
      ("default", value) ∈ tags

/-- A way of an object, or of an object inside it at any depth. -/
inductive Offers (theme : Theme) : StyleValue → Way → Prop
  | own {entries : List (String × StyleValue)} {w : Way} (h : w ∈ ways theme entries) :
      Offers theme (.conditional entries) w
  | deeper {entries : List (String × StyleValue)} {v w : Way} (h : v ∈ ways theme entries)
      (hw : Offers theme v.2 w) : Offers theme (.conditional entries) w

section

variable {theme : Theme}

theorem offers_literal {l : Literal} {w : Way} : ¬ Offers theme (.literal l) w := by
  intro h
  cases h

theorem offers_conditional {entries : List (String × StyleValue)} {w : Way} :
    Offers theme (.conditional entries) w ↔
      w ∈ ways theme entries ∨ ∃ v ∈ ways theme entries, Offers theme v.2 w := by
  constructor
  · intro h
    cases h with
    | own h => exact .inl h
    | deeper h hw => exact .inr ⟨_, h, hw⟩
  · rintro (h | ⟨v, h, hw⟩)
    · exact .own h
    · exact .deeper h hw

theorem ways_cons (e : String × StyleValue) (es : List (String × StyleValue)) :
    ways theme (e :: es) = entryWays theme e.1 e.2 ++ ways theme es :=
  List.flatMap_cons

theorem entryWays_variant {key : String} (h : StyleNode.isVariantKey theme key)
    (tags : List (String × StyleValue)) :
    entryWays theme key (.conditional tags) = tags.map fun t => (tagCondition key t.1, t.2) := by
  obtain ⟨hdefault, hcondition, hflag⟩ := StyleNode.isVariantKey_iff.1 h
  rw [entryWays.eq_def, if_neg hdefault, hcondition]
  simp [hflag]

theorem entryWays_literal {key : String} (h : StyleNode.isVariantKey theme key) (l : Literal) :
    entryWays theme key (.literal l) = [] := by
  obtain ⟨hdefault, hcondition, hflag⟩ := StyleNode.isVariantKey_iff.1 h
  rw [entryWays.eq_def, if_neg hdefault, hcondition]
  simp [hflag]

/-- A key that names no variant offers one way, decided by the key alone. -/
theorem entryWays_single {key : String} (h : ¬ StyleNode.isVariantKey theme key) :
    ∃ c, ∀ value, entryWays theme key value = [(c, value)] := by
  rw [StyleNode.isVariantKey_iff] at h
  simp only [entryWays.eq_def]
  split
  · exact ⟨_, fun _ => rfl⟩
  · next hdefault =>
      split
      · exact ⟨_, fun _ => rfl⟩
      · exact ⟨_, fun _ => rfl⟩
      · next hcondition =>
          exact ⟨_, fun _ => if_pos (by simpa [hdefault, hcondition] using h)⟩

theorem fallbacks_entryWays_default (value : StyleValue) :
    fallbacks (entryWays theme "default" value) = [(.fallback, value)] := by
  rfl

theorem fallbacks_entryWays_other {key : String} {value : StyleValue} (hdefault : key ≠ "default")
    (h : ¬ StyleNode.isVariantKey theme key) : fallbacks (entryWays theme key value) = [] := by
  rw [entryWays.eq_def, if_neg hdefault]
  split
  · rfl
  · rfl
  · next hcondition =>
      split
      · rfl
      · next hflag =>
          exact absurd (StyleNode.isVariantKey_iff.2
            ⟨hdefault, hcondition, Bool.eq_false_of_not_eq_true hflag⟩) h

theorem exists_fallback {entries : List (String × StyleValue)}
    (h : DeclaresFallback theme entries) : ∃ w ∈ ways theme entries, w.1 = .fallback := by
  obtain ⟨value, hmem⟩ | ⟨key, tags, value, hmem, hkey, htag⟩ := h
  · exact ⟨(.fallback, value), List.mem_flatMap.2 ⟨_, hmem, List.mem_singleton.2 rfl⟩, rfl⟩
  · refine ⟨(.fallback, value), List.mem_flatMap.2 ⟨_, hmem, ?_⟩, rfl⟩
    dsimp only
    rw [entryWays_variant hkey]
    exact List.mem_map.2 ⟨("default", value), htag, rfl⟩

end

/-! ## No object has two fallbacks -/

theorem length_fallbacks_tags (name : String) (tags : List (String × StyleValue)) :
    (fallbacks (tags.map fun t => ((tagCondition name t.1, t.2) : Way))).length =
      (Entries.keys tags).count "default" := by
  induction tags with
  | nil => rfl
  | cons t tags ih =>
      obtain ⟨tag, value⟩ := t
      have hkeys : Entries.keys ((tag, value) :: tags) = tag :: Entries.keys tags := rfl
      rw [List.map_cons, fallbacks_cons, hkeys, List.count_cons, ← ih]
      by_cases htag : tag = "default"
      · simp [htag, tagCondition]
      · simp [htag, tagCondition]

theorem count_default_eq_zero {entries : Entries StyleValue} (h : ¬ entries.has "default") :
    (Entries.keys entries).count "default" = 0 := by
  refine List.count_eq_zero.2 fun hmem => h ?_
  obtain ⟨e, he, hkey⟩ := List.mem_map.1 hmem
  exact List.any_eq_true.2 ⟨e, he, by simpa using hkey⟩

theorem count_default_le {entries : Entries StyleValue} (hd : entries.Distinct) :
    (Entries.keys entries).count "default" ≤ (entries.has "default").toNat := by
  by_cases h : entries.has "default"
  · rw [h]
    exact List.nodup_iff_count_le_one.1 hd "default"
  · rw [count_default_eq_zero h]
    exact Nat.zero_le _

/-- The check goes through the entries with a note whether it has seen a fallback. It
never looks at the key `default` itself, which was noted before it started. -/
theorem length_fallbacks_ways_le {theme : Theme} {property : String} {found : Bool}
    {es : List (String × StyleValue)} (h : StyleNode.check theme property found es = .ok ())
    (hd : StyleValue.EachDistinct es) :
    (fallbacks (ways theme es)).length + found.toNat ≤
      1 + (Entries.keys es).count "default" := by
  induction es generalizing found with
  | nil =>
      have hfound := Bool.toNat_le found
      show 0 + found.toNat ≤ 1 + 0
      omega
  | cons e es ih =>
      obtain ⟨key, value⟩ := e
      obtain ⟨hvalue, hes⟩ := hd
      have hkeys : Entries.keys ((key, value) :: es) = key :: Entries.keys es := rfl
      rw [StyleNode.check] at h
      rw [ways_cons, fallbacks_append, List.length_append, hkeys, List.count_cons]
      by_cases hkey : StyleNode.isVariantKey theme key
      · rw [if_pos hkey, bind_eq_ok_iff] at h
        obtain ⟨tags, htags, h⟩ := h
        cases value with
        | literal l => cases htags
        | conditional inner =>
            cases htags
            have htags := count_default_le hvalue.1
            rw [entryWays_variant hkey, length_fallbacks_tags]
            by_cases hdefault : Entries.has tags "default"
            -- a second fallback is refused, so none has been noted before this one
            · rw [if_pos hdefault] at h
              rw [hdefault] at htags
              cases found with
              | true => cases h
              | false =>
                  have hrest := ih h hes
                  rw [Bool.toNat_true] at htags hrest
                  rw [Bool.toNat_false]
                  omega
            · rw [if_neg hdefault] at h
              have hrest := ih h hes
              rw [Bool.eq_false_of_not_eq_true hdefault, Bool.toNat_false] at htags
              omega
      · rw [if_neg hkey] at h
        have hrest := ih h hes
        by_cases hdefault : key = "default"
        · rw [hdefault, fallbacks_entryWays_default, List.length_singleton, beq_self_eq_true,
            if_pos rfl]
          omega
        · rw [fallbacks_entryWays_other hdefault hkey, List.length_nil]
          omega

theorem filter_eq_find?_toList {α : Type} {p : α → Bool} {xs : List α}
    (h : (xs.filter p).length ≤ 1) : xs.filter p = (xs.find? p).toList := by
  rw [← List.head?_filter]
  generalize xs.filter p = ys at h
  match ys with
  | [] => rfl
  | [y] => rfl
  | _ :: _ :: _ => simp at h

theorem fallbacks_ways {theme : Theme} {property : String} {entries : List (String × StyleValue)}
    (h : StyleNode.check theme property (Entries.has entries "default") entries = .ok ())
    (hd : (StyleValue.conditional entries).Distinct) :
    fallbacks (ways theme entries) =
      ((ways theme entries).find? fun w => w.1 = .fallback).toList := by
  obtain ⟨hkeys, hvalues⟩ := hd
  have hle := length_fallbacks_ways_le h hvalues
  have hdefault := count_default_le hkeys
  refine filter_eq_find?_toList ?_
  rw [← fallbacks]
  omega

/-! ## What is handed down -/

section

variable {own : List Way}

theorem filter_handedDown (own inherited : List Way) (c : BranchCondition) :
    (handedDown own inherited).filter (fun w => w.1 = c) =
      if ((declared own).filter fun w => w.1 = c).isEmpty then
        inherited.filter fun w => w.1 = c
      else (declared own).filter fun w => w.1 = c := by
  have htaken : (undeclared own inherited).filter (fun w => w.1 = c) =
      if ((declared own).filter fun w => w.1 = c).isEmpty then
        inherited.filter fun w => w.1 = c
      else [] := by
    rw [undeclared, List.filter_filter]
    split
    · next hnone =>
        refine List.filter_congr fun v _ => ?_
        by_cases hv : v.1 = c
        · have hall : ((declared own).all fun o => o.1 != v.1) = true := by
            rw [List.all_eq_true]
            intro o ho
            rw [hv, bne_iff_ne]
            simpa using List.filter_eq_nil_iff.1 (List.isEmpty_iff.1 hnone) o ho
          rw [hall, Bool.and_true]
        · simp [hv]
    · next hsome =>
        obtain ⟨o, ho⟩ := List.exists_mem_of_ne_nil _ fun hnil => hsome (List.isEmpty_iff.2 hnil)
        obtain ⟨ho, hoc⟩ := List.mem_filter.1 ho
        refine List.filter_eq_nil_iff.2 fun v _ => ?_
        rw [Bool.and_eq_true, List.all_eq_true, decide_eq_true_iff]
        rintro ⟨hv, hall⟩
        exact bne_iff_ne.1 (hall o ho) ((of_decide_eq_true hoc).trans hv.symm)
  rw [handedDown, List.filter_append, htaken]
  split
  · next hnone => rw [List.isEmpty_iff.1 hnone, List.nil_append]
  · exact List.append_nil _

theorem filter_declared_fallback :
    (declared own).filter (fun w => w.1 = .fallback) =
      (own.find? fun w => w.1 = .fallback).toList := by
  have hthemes : (own.filter fun w => w.1.isTheme).filter (fun w => w.1 = .fallback) = [] := by
    refine List.filter_eq_nil_iff.2 fun w hw => ?_
    obtain ⟨c, value⟩ := w
    have hc : c.isTheme := (List.mem_filter.1 hw).2
    cases c <;> simp [BranchCondition.isTheme] at hc ⊢
  rw [declared, List.filter_append, hthemes, List.append_nil]
  refine List.filter_eq_self.2 fun w hw => ?_
  simpa using List.find?_some (Option.mem_toList.1 hw)

theorem filter_declared_theme (id : ConditionId) :
    (declared own).filter (fun w => w.1 = .theme id) =
      own.filter fun w => w.1 = .theme id := by
  have hfallback : (own.find? fun w => w.1 = .fallback).toList.filter
      (fun w => w.1 = .theme id) = [] := by
    refine List.filter_eq_nil_iff.2 fun w hw => ?_
    have hw : w.1 = .fallback := by simpa using List.find?_some (Option.mem_toList.1 hw)
    simp [hw]
  rw [declared, List.filter_append, hfallback, List.nil_append, List.filter_filter]
  refine List.filter_congr fun w _ => ?_
  obtain ⟨c, value⟩ := w
  cases c <;> simp [BranchCondition.isTheme]

/-- Of all fallbacks in sight an object hands down the nearest. -/
theorem fallbacks_handedDown (own inherited : List Way) :
    fallbacks (handedDown own inherited) =
      match own.find? fun w => w.1 = .fallback with
      | some w => [w]
      | none => fallbacks inherited := by
  rw [fallbacks, filter_handedDown, filter_declared_fallback]
  cases own.find? fun w => w.1 = .fallback <;> rfl

/-- An object that passes the check declares all its ways that no state decides. -/
theorem filter_declared {theme : Theme} {property : String}
    {entries : List (String × StyleValue)}
    (h : StyleNode.check theme property (Entries.has entries "default") entries = .ok ())
    (hd : (StyleValue.conditional entries).Distinct) {c : BranchCondition}
    (hc : ¬ c.isDynamic) :
    (declared (ways theme entries)).filter (fun w => w.1 = c) =
      (ways theme entries).filter fun w => w.1 = c := by
  cases c with
  | fallback => exact filter_declared_fallback.trans (fallbacks_ways h hd).symm
  | theme id => exact filter_declared_theme id
  | flag name => exact absurd rfl hc
  | variant name tag => exact absurd rfl hc

end

end Meaning

/-! ## The fallback of a normal form -/

namespace StyleNode

open Meaning (Way Offers ways handedDown undeclared)

section

variable {theme : Theme} {property : String}

theorem forall₂_filter {α β : Type} {R S : BranchCondition × α → BranchCondition × β → Prop}
    {ws : List (BranchCondition × α)} {bs : List (BranchCondition × β)} (h : List.Forall₂ R ws bs)
    (c : BranchCondition) (hR : ∀ w b, R w b → b.1 = w.1)
    (hS : ∀ w b, w.1 = c → R w b → S w b) :
    List.Forall₂ S (ws.filter fun w => w.1 = c) (bs.filter fun b => b.1 = c) := by
  induction h with
  | nil => exact .nil
  | @cons w b ws bs hb _ ih =>
      have hcondition := hR w b hb
      rw [List.filter_cons, List.filter_cons, hcondition]
      by_cases hw : w.1 = c
      · rw [if_pos (decide_eq_true hw), if_pos (decide_eq_true hw)]
        exact .cons (hS w b hw hb) ih
      · rw [if_neg (by simpa using hw), if_neg (by simpa using hw)]
        exact ih

/-- The branches of a normal form under a condition that no state decides are the
values that its object would hand down. -/
theorem filter_ofValue {entries : List (String × StyleValue)} {inherited : List Way}
    {tree : StyleNode} (hd : (StyleValue.conditional entries).Distinct)
    (h : ofValue theme property (.conditional entries) (settle theme property inherited) =
      .ok tree) :
    ∃ bs, tree = .branching bs ∧ ∀ c : BranchCondition, ¬ c.isDynamic →
      List.Forall₂ (SettledOf theme property)
        ((handedDown (ways theme entries) inherited).filter fun w => w.1 = c)
        (bs.filter fun b => b.1 = c) := by
  obtain ⟨hcheck, bs, rest, hbs, hrest, rfl⟩ := ofValue_conditional_ok_iff.1 h
  refine ⟨bs ++ rest, rfl, fun c hc => ?_⟩
  have hown : List.Forall₂ (SettledOf theme property)
      ((ways theme entries).filter fun w => w.1 = c) (bs.filter fun b => b.1 = c) := by
    refine forall₂_filter hbs c (fun _ _ hb => hb.1) fun w b hw hb => ?_
    exact (branchOf_static_iff (hw ▸ hc)).1 hb
  have htaken : List.Forall₂ (SettledOf theme property)
      ((undeclared (ways theme entries) inherited).filter fun w => w.1 = c)
      (rest.filter fun b => b.1 = c) :=
    forall₂_filter hrest c (fun _ _ hb => hb.1) fun _ _ _ hb => hb
  rw [handedDown, List.filter_append, Meaning.filter_declared hcheck hd hc, List.filter_append]
  exact List.rel_append hown htaken

mutual

/-- Every object that is reached by flags and tags has one fallback, a literal. -/
def Grounded : StyleNode → Prop
  | .leaf _ => True
  | .branching bs => (∃ l, fallbacks bs = [(.fallback, .leaf l)]) ∧ EachGrounded bs

def EachGrounded : List (BranchCondition × StyleNode) → Prop
  | [] => True
  | (c, n) :: bs => (c.isDynamic → n.Grounded) ∧ EachGrounded bs

end

theorem eachGrounded_iff {bs : List (BranchCondition × StyleNode)} :
    EachGrounded bs ↔ ∀ b ∈ bs, b.1.isDynamic → b.2.Grounded := by
  induction bs with
  | nil => simp [EachGrounded]
  | cons b bs ih => rw [EachGrounded, ih, List.forall_mem_cons]

/-- A value in its place: its fallbacks and those handed to it are literals, and if it
is an object there is one that it falls back to. -/
structure Covered (theme : Theme) (value : StyleValue) (inherited : List Way) : Prop where
  distinct : value.Distinct
  static : ∀ w ∈ inherited, ¬ w.1.isDynamic
  own : ∀ w, Offers theme value w → w.1 = .fallback → ∃ l, w.2 = .literal l
  handed : ∀ w ∈ inherited, w.1 = .fallback → ∃ l, w.2 = .literal l
  one : ∀ entries, value = .conditional entries →
    ∃ w, fallbacks (handedDown (ways theme entries) inherited) = [w]

theorem distinct_of_mem {es : List (String × StyleValue)} (h : StyleValue.EachDistinct es)
    {e : String × StyleValue} (he : e ∈ es) : e.2.Distinct :=
  StyleValue.eachDistinct_iff.1 h e he

theorem distinct_of_mem_ways {entries : List (String × StyleValue)}
    (h : (StyleValue.conditional entries).Distinct) {w : Way} (hw : w ∈ ways theme entries) :
    w.2.Distinct := by
  obtain ⟨e, he, hw⟩ := List.mem_flatMap.1 hw
  have hvalue := distinct_of_mem h.2 he
  unfold Meaning.entryWays at hw
  split at hw
  · rw [List.mem_singleton.1 hw]
    exact hvalue
  · split at hw
    · rw [List.mem_singleton.1 hw]
      exact hvalue
    · rw [List.mem_singleton.1 hw]
      exact hvalue
    · split at hw
      · rw [List.mem_singleton.1 hw]
        exact hvalue
      · split at hw
        · next tags htags =>
            rw [htags] at hvalue
            obtain ⟨t, ht, rfl⟩ := List.mem_map.1 hw
            exact distinct_of_mem hvalue.2 ht
        · cases hw

/-- A value under a flag or a tag is covered by what the object around it hands
down. -/
theorem Covered.inside {entries : List (String × StyleValue)} {inherited : List Way}
    (h : Covered theme (.conditional entries) inherited) {w : Way} (hw : w ∈ ways theme entries) :
    Covered theme w.2 (handedDown (ways theme entries) inherited) where
  distinct := distinct_of_mem_ways h.distinct hw
  static := handedDown_static _ h.static
  own := fun v hv => h.own v (.deeper hw hv)
  handed := by
    intro v hv
    rcases mem_of_mem_handedDown hv with hv | hv
    · exact h.own v (.own hv)
    · exact h.handed v hv
  one := by
    intro inner _
    rw [Meaning.fallbacks_handedDown]
    split
    · exact ⟨_, rfl⟩
    · exact h.one entries rfl

theorem grounded_ofValue {value : StyleValue} {inherited : List Way} {tree : StyleNode}
    (hc : Covered theme value inherited)
    (h : ofValue theme property value (settle theme property inherited) = .ok tree) :
    tree.Grounded := by
  match value with
  | .literal l =>
      rw [ofValue_literal_ok_iff.1 h]
      trivial
  | .conditional entries =>
      obtain ⟨all, rfl, hstatic⟩ := filter_ofValue hc.distinct h
      have hfallbacks : List.Forall₂ (SettledOf theme property)
          (fallbacks (handedDown (ways theme entries) inherited)) (fallbacks all) :=
        hstatic .fallback (by decide)
      obtain ⟨-, bs, rest, hbs, hrest, heq⟩ := ofValue_conditional_ok_iff.1 h
      cases heq
      constructor
      -- the one fallback in sight is declared here or was handed down, a literal either way
      · obtain ⟨w, hw⟩ := hc.one entries rfl
        have hmem : w ∈ fallbacks (handedDown (ways theme entries) inherited) := by
          rw [hw]
          exact List.mem_singleton.2 rfl
        obtain ⟨hhanded, hcondition⟩ := mem_fallbacks.1 hmem
        obtain ⟨l, hl⟩ : ∃ l, w.2 = .literal l := by
          rcases mem_of_mem_handedDown hhanded with hown | hinherited
          · exact hc.own w (.own hown) hcondition
          · exact hc.handed w hinherited hcondition
        rw [hw, List.forall₂_cons_left_iff] at hfallbacks
        obtain ⟨b, _, hb, hnil, heq⟩ := hfallbacks
        rw [List.forall₂_nil_left_iff.1 hnil] at heq
        obtain ⟨hbc, hbn⟩ := hb
        rw [hl] at hbn
        refine ⟨l, ?_⟩
        rw [heq, ← hcondition, ← hbc, ← ofValue_literal_ok_iff.1 hbn]
      · refine eachGrounded_iff.2 fun b hb hdyn => ?_
        rcases List.mem_append.1 hb with hb | hb
        · obtain ⟨w, hw, hbc, hbn⟩ := exists_of_forall₂_right hbs hb
          rw [handedTo, if_pos (hbc ▸ hdyn)] at hbn
          have hlt := Meaning.size_lt_waysSize hw
          have hle := Meaning.waysSize_ways_le theme entries
          exact grounded_ofValue (hc.inside hw) hbn
        -- what is handed down stands under theme conditions or is the fallback
        · obtain ⟨w, hw, hbc, -⟩ := exists_of_forall₂_right hrest hb
          exact absurd (hbc ▸ hdyn) (hc.static w (List.mem_filter.1 hw).1)
termination_by value.size
decreasing_by
  rw [StyleValue.size]
  omega

end

end StyleNode

end AtomicStyles
