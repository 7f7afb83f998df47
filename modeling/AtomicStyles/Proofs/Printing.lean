import Mathlib.Data.List.Induction
import AtomicStyles.Sheet.Emitter

/-!
# What a sheet holds

A sheet sorts its rules into blocks, and sorting loses none of them and doubles
none. So the rules of a sheet can be counted in the list that it was made from.
Where a rule stands in the text is another matter: `printed` is the list in the
order of the text.

An emitter that has written some tokens gives a sheet the rules whose tokens are
new to it, each once, and has then written the tokens of all the rules that it
was shown.
-/

namespace AtomicStyles

namespace Sheet

/-- The rules of a sheet in the order of its text. -/
def printed (rules : List ClassRule) : List ClassRule :=
  (blocks rules).flatMap (·.rules)

theorem blocks_concat (rules : List ClassRule) (r : ClassRule) :
    blocks (rules ++ [r]) = addRule (blocks rules) r := by
  rw [blocks, List.foldl_append, List.foldl_cons, List.foldl_nil, blocks]

theorem addRule_perm (bs : List Block) (r : ClassRule) :
    ((addRule bs r).flatMap (·.rules)).Perm (bs.flatMap (·.rules) ++ [r]) := by
  induction bs with
  | nil => exact List.Perm.refl _
  | cons b bs ih =>
      rw [addRule]
      split
      · rw [List.flatMap_cons, List.flatMap_cons, List.append_assoc, List.append_assoc]
        exact List.perm_append_comm.append_left b.rules
      · split
        · rw [List.flatMap_cons]
          exact List.perm_append_comm
        · rw [List.flatMap_cons, List.flatMap_cons, List.append_assoc]
          exact ih.append_left b.rules

/-- A sheet prints the rules that it was made from, in an order of its own. -/
theorem printed_perm (rules : List ClassRule) : (printed rules).Perm rules := by
  induction rules using List.reverseRecOn with
  | nil => exact List.Perm.refl _
  | append_singleton rules r ih =>
      rw [printed, blocks_concat]
      exact (addRule_perm _ r).trans (ih.append_right [r])

theorem addRule_conditions {bs : List Block} {r : ClassRule}
    (h : ∀ b ∈ bs, ∀ s ∈ b.rules, s.conditions = b.conditions) :
    ∀ b ∈ addRule bs r, ∀ s ∈ b.rules, s.conditions = b.conditions := by
  induction bs with
  | nil =>
      intro b hb s hs
      rw [addRule, List.mem_singleton] at hb
      subst hb
      rw [List.mem_singleton.1 hs]
  | cons a bs ih =>
      obtain ⟨ha, hbs⟩ := List.forall_mem_cons.1 h
      rw [addRule]
      split
      · rename_i heq
        refine List.forall_mem_cons.2 ⟨fun s hs => ?_, hbs⟩
        rcases List.mem_append.1 hs with hs | hs
        · exact ha s hs
        · rw [List.mem_singleton.1 hs]
          exact heq
      · split
        · refine List.forall_mem_cons.2 ⟨fun s hs => ?_, h⟩
          rw [List.mem_singleton.1 hs]
        · exact List.forall_mem_cons.2 ⟨ha, ih hbs⟩

/-- The rules of a block stand under its conditions. -/
theorem blocks_conditions (rules : List ClassRule) :
    ∀ b ∈ blocks rules, ∀ r ∈ b.rules, r.conditions = b.conditions := by
  induction rules using List.reverseRecOn with
  | nil => simp [blocks]
  | append_singleton rules r ih =>
      rw [blocks_concat]
      exact addRule_conditions ih

theorem mem_addRule_conditions {bs : List Block} {r : ClassRule} {b : Block}
    (h : b ∈ addRule bs r) :
    b.conditions = r.conditions ∨ ∃ old ∈ bs, b.conditions = old.conditions := by
  induction bs with
  | nil =>
      rw [addRule, List.mem_singleton] at h
      exact .inl (congrArg _ h)
  | cons a bs ih =>
      rw [addRule] at h
      split at h
      · rcases List.mem_cons.1 h with rfl | h
        · exact .inr ⟨a, List.mem_cons_self, rfl⟩
        · exact .inr ⟨b, List.mem_cons_of_mem _ h, rfl⟩
      · split at h
        · rcases List.mem_cons.1 h with rfl | h
          · exact .inl rfl
          · exact .inr ⟨b, h, rfl⟩
        · rcases List.mem_cons.1 h with rfl | h
          · exact .inr ⟨b, List.mem_cons_self, rfl⟩
          · exact (ih h).imp id fun ⟨old, hold, heq⟩ => ⟨old, List.mem_cons_of_mem _ hold, heq⟩

/-- A block is opened for the conditions of a rule. -/
theorem exists_rule_of_block {rules : List ClassRule} {b : Block} (h : b ∈ blocks rules) :
    ∃ r ∈ rules, b.conditions = r.conditions := by
  induction rules using List.reverseRecOn generalizing b with
  | nil => cases h
  | append_singleton rules r ih =>
      rw [blocks_concat] at h
      obtain heq | ⟨old, hold, heq⟩ := mem_addRule_conditions h
      · exact ⟨r, List.mem_append_right _ (List.mem_singleton_self r), heq⟩
      · obtain ⟨s, hs, hconditions⟩ := ih hold
        exact ⟨s, List.mem_append_left _ hs, heq.trans hconditions⟩

theorem blocks_eq_nil_iff {rules : List ClassRule} : blocks rules = [] ↔ rules = [] := by
  constructor
  · intro h
    have hperm := printed_perm rules
    rw [printed, h] at hperm
    exact hperm.symm.eq_nil
  · rintro rfl
    rfl

/-- The text of a sheet after its first line. -/
def body (theme : Theme) (rules : List ClassRule) : String :=
  String.join ((blocks rules).map (Block.text theme))

theorem text_of_ne_nil (theme : Theme) {rules : List ClassRule} (h : rules ≠ []) :
    text theme rules = theme.layerDeclaration ++ "\n" ++ body theme rules := by
  rw [text]
  split
  · next hnil => exact absurd (blocks_eq_nil_iff.1 hnil) h
  · rfl

/-- Only a sheet without rules is empty. -/
theorem text_eq_empty_iff {theme : Theme} {rules : List ClassRule} :
    text theme rules = "" ↔ rules = [] := by
  constructor
  · intro h
    by_contra hne
    rw [text_of_ne_nil theme hne, String.append_eq_empty_iff, String.append_eq_empty_iff] at h
    exact absurd h.1.2 (by decide)
  · rintro rfl
    rfl

theorem join_split {texts : List String} {text : String} (h : text ∈ texts) :
    ∃ before after, String.join texts = before ++ text ++ after := by
  obtain ⟨xs, ys, rfl⟩ := List.append_of_mem h
  refine ⟨String.join xs, String.join ys, ?_⟩
  rw [String.join_append, String.join_cons, String.append_assoc]

/-- The text of a block after the line that opens its layer. -/
def Block.inner (theme : Theme) (b : Block) : String :=
  openings theme 1 b.conditions ++ String.join (b.rules.map (ruleText (b.conditions.length + 1)))
    ++ closings b.conditions.length ++ "\x7d\n"

theorem Block.text_eq (theme : Theme) (b : Block) :
    b.text theme = "@layer " ++ layerName b.conditions.getLast? ++ " \x7b\n" ++ b.inner theme := by
  rw [Block.text, Block.inner]
  simp only [String.append_assoc]

/-- A block holds the text of each of its rules, nested as deep as its conditions
say. -/
theorem Block.inner_holds_rule (theme : Theme) {b : Block} {r : ClassRule} (h : r ∈ b.rules) :
    ∃ before after,
      b.inner theme = before ++ ruleText (b.conditions.length + 1) r ++ after := by
  obtain ⟨before, after, hrules⟩ :=
    join_split (List.mem_map_of_mem (f := ruleText (b.conditions.length + 1)) h)
  refine ⟨openings theme 1 b.conditions ++ before,
    after ++ (closings b.conditions.length ++ "\x7d\n"), ?_⟩
  rw [Block.inner, hrules]
  simp only [String.append_assoc]

end Sheet

namespace CssEmitter

/-- An emitter remembers what it has written before and what it writes now. -/
theorem fresh_printed (e : CssEmitter) (rs : List ClassRule) :
    (e.fresh rs).1.printed = e.printed ++ (e.fresh rs).2.map (·.token) := by
  induction rs generalizing e with
  | nil => simp [fresh]
  | cons r rs ih =>
      rw [fresh]
      split
      · exact ih e
      · dsimp only
        rw [ih, List.map_cons, List.append_assoc, List.singleton_append]

theorem fresh_sublist (e : CssEmitter) (rs : List ClassRule) : (e.fresh rs).2.Sublist rs := by
  induction rs generalizing e with
  | nil => exact List.Sublist.refl _
  | cons r rs ih =>
      rw [fresh]
      split
      · exact (ih e).cons r
      · exact (ih _).cons_cons r

/-- Every token that it is shown has been written in the end. -/
theorem mem_fresh_printed (e : CssEmitter) {rs : List ClassRule} {r : ClassRule} (h : r ∈ rs) :
    r.token ∈ (e.fresh rs).1.printed := by
  induction rs generalizing e with
  | nil => cases h
  | cons s rs ih =>
      rw [fresh]
      split
      · rename_i hs
        rcases List.mem_cons.1 h with rfl | h
        · rw [fresh_printed]
          exact List.mem_append_left _ (List.contains_iff_mem.1 hs)
        · exact ih e h
      · rcases List.mem_cons.1 h with rfl | h
        · dsimp only
          rw [fresh_printed]
          simp
        · exact ih _ h

/-- There is nothing to write when all tokens have been written. -/
theorem fresh_eq_nil_iff {e : CssEmitter} {rs : List ClassRule} :
    (e.fresh rs).2 = [] ↔ ∀ r ∈ rs, r.token ∈ e.printed := by
  constructor
  · intro h r hr
    have hprinted := mem_fresh_printed e hr
    rw [fresh_printed, h] at hprinted
    simpa using hprinted
  · intro h
    induction rs with
    | nil => rfl
    | cons r rs ih =>
        obtain ⟨hr, hrs⟩ := List.forall_mem_cons.1 h
        have hprinted : e.isPrinted r.token := List.contains_iff_mem.2 hr
        rw [fresh, if_pos hprinted]
        exact ih hrs

theorem fresh_nodup {e : CssEmitter} (h : e.printed.Nodup) (rs : List ClassRule) :
    (e.fresh rs).1.printed.Nodup := by
  induction rs generalizing e with
  | nil => exact h
  | cons r rs ih =>
      rw [fresh]
      split
      · exact ih h
      · rename_i hr
        refine ih (List.nodup_append.2 ⟨h, by simp, ?_⟩)
        intro t ht u hu htu
        rw [List.mem_singleton.1 hu] at htu
        exact hr (List.contains_iff_mem.2 (htu ▸ ht))

end CssEmitter

end AtomicStyles
