import Mathlib.Data.Finset.Sort
import Mathlib.Data.List.Lex
import AtomicStyles.Proofs.Meaning
import AtomicStyles.Proofs.Printing
import AtomicStyles.Proofs.Success

/-!
# The shape of a sheet

The emitter writes a sheet as one long text. It sorts rules into blocks as they
come, opens levels as it goes and counts how many it has to close. Here the same
sheet is said as a tree: what blocks there are, what stands inside what, and
which rules each block has. A tree closes what it opens, because printing a block
is printing what is inside it between its own two lines.

Two invariants carry the blocks. They are strictly ascending by their conditions,
so a list of conditions has one block at most. And the rules of a block are those
of the sheet with its conditions, in the order in which they came. For the rules
that are new to an emitter the walk goes from the end of the list: whether the
last rule is new depends on all rules before it, and on nothing else.
-/

namespace AtomicStyles

namespace Sheet

/-- A part of a sheet: one line, or parts inside braces. -/
inductive Piece where
  | line (text : String)
  | block (head : String) (pieces : List Piece)

namespace Piece

mutual

/-- The text of a piece that is nested `level` deep. -/
def text (level : Nat) : Piece → String
  | .line text => indent level ++ text ++ "\n"
  | .block head pieces =>
      indent level ++ head ++ " \x7b\n" ++ allText (level + 1) pieces ++ indent level ++ "\x7d\n"

/-- The text of several pieces, one after the other. -/
def allText (level : Nat) : List Piece → String
  | [] => ""
  | p :: ps => p.text level ++ allText level ps

end

/-- Puts pieces inside blocks, of which the outermost is the first. -/
def inside (heads : List String) (pieces : List Piece) : List Piece :=
  heads.foldr (fun head inner => [.block head inner]) pieces

/-- The line of a class rule. -/
def ofRule (r : ClassRule) : Piece :=
  .line ("." ++ String.ofList (Css.identifier r.token.toList) ++ " \x7b"
    ++ String.join (r.declarations.map fun d => " " ++ d.text ++ ";") ++ " \x7d")

end Piece

/-- The lists of conditions that rules have, each once and in ascending
lexicographic order. -/
def conditionLists (rules : List ClassRule) : List (List ConditionId) :=
  (rules.map (·.conditions)).toFinset.sort (· ≤ ·)

/-- The rules with the given conditions. -/
def under (conditions : List ConditionId) (rules : List ClassRule) : List ClassRule :=
  rules.filter (·.conditions = conditions)

/-- The layer of the last of some conditions, inside it their preludes, and inside
these the rules that have the conditions. -/
def layerPiece (rules : List ClassRule) (conditions : List ConditionId)
    (preludes : List String) : Piece :=
  .block ("@layer " ++ layerName conditions.getLast?)
    (Piece.inside preludes ((under conditions rules).map Piece.ofRule))

/-- The pieces of a sheet, one for each list of conditions. There are none when a
condition has no prelude. -/
def pieces? (theme : Theme) (rules : List ClassRule) : Option (List Piece) :=
  (conditionLists rules).mapM fun conditions =>
    (conditions.mapM theme.prelude?).map (layerPiece rules conditions)

/-! ## Blocks -/

theorem precedes_iff {as bs : List ConditionId} : precedes as bs = true ↔ as < bs := by
  induction as generalizing bs with
  | nil => cases bs <;> simp [precedes]
  | cons a as ih =>
      cases bs with
      | nil => simp [precedes]
      | cons b bs =>
          rw [precedes, List.cons_lt_cons_iff, ← ih]
          by_cases hlt : a < b
          · simp [hlt]
          · by_cases heq : a = b <;> simp [hlt, heq]

/-- The conditions of the blocks are strictly ascending. -/
def Ascending (bs : List Block) : Prop :=
  (bs.map (·.conditions)).Pairwise (· < ·)

theorem ascending_cons_iff {b : Block} {bs : List Block} :
    Ascending (b :: bs) ↔ (∀ c ∈ bs, b.conditions < c.conditions) ∧ Ascending bs := by
  rw [Ascending, List.map_cons, List.pairwise_cons, List.forall_mem_map]
  exact Iff.rfl

theorem addRule_ascending {bs : List Block} (r : ClassRule) (h : Ascending bs) :
    Ascending (addRule bs r) := by
  induction bs with
  | nil => exact List.pairwise_singleton _ _
  | cons b bs ih =>
      obtain ⟨hb, hbs⟩ := ascending_cons_iff.1 h
      rw [addRule]
      split
      · exact ascending_cons_iff.2 ⟨hb, hbs⟩
      · rename_i hne
        split
        · rename_i hprecedes
          have hlt := precedes_iff.1 hprecedes
          refine ascending_cons_iff.2 ⟨?_, h⟩
          exact List.forall_mem_cons.2 ⟨hlt, fun c hc => lt_trans hlt (hb c hc)⟩
        · rename_i hprecedes
          have hlt : b.conditions < r.conditions :=
            lt_of_le_of_ne (not_lt.1 (precedes_iff.not.1 hprecedes)) (Ne.symm hne)
          refine ascending_cons_iff.2 ⟨fun c hc => ?_, ih hbs⟩
          obtain heq | ⟨old, hold, heq⟩ := mem_addRule_conditions hc
          · rw [heq]
            exact hlt
          · rw [heq]
            exact hb old hold

theorem blocks_ascending (rules : List ClassRule) : Ascending (blocks rules) := by
  induction rules using List.reverseRecOn with
  | nil => exact List.Pairwise.nil
  | append_singleton rules r ih =>
      rw [blocks_concat]
      exact addRule_ascending r ih

/-- A block after a rule has been added: one of other conditions, as it was, or the
block of the rule's own conditions, which has the rule at its end. -/
theorem mem_addRule {bs : List Block} {r : ClassRule} {b : Block} (h : Ascending bs)
    (hb : b ∈ addRule bs r) :
    (b ∈ bs ∧ r.conditions ≠ b.conditions) ∨
      b.conditions = r.conditions ∧
        ((∃ old ∈ bs, old.conditions = r.conditions ∧ b.rules = old.rules ++ [r]) ∨
          (∀ old ∈ bs, old.conditions ≠ r.conditions) ∧ b.rules = [r]) := by
  induction bs with
  | nil =>
      rw [addRule, List.mem_singleton] at hb
      subst hb
      exact .inr ⟨rfl, .inr ⟨by simp, rfl⟩⟩
  | cons a bs ih =>
      obtain ⟨ha, hbs⟩ := ascending_cons_iff.1 h
      rw [addRule] at hb
      split at hb
      · rename_i heq
        rcases List.mem_cons.1 hb with rfl | hb
        · exact .inr ⟨heq.symm, .inl ⟨a, List.mem_cons_self, heq.symm, rfl⟩⟩
        · refine .inl ⟨List.mem_cons_of_mem _ hb, ?_⟩
          rw [heq]
          exact (ha b hb).ne
      · rename_i hne
        split at hb
        · rename_i hprecedes
          have hlt := precedes_iff.1 hprecedes
          have hall : ∀ c ∈ a :: bs, r.conditions < c.conditions :=
            List.forall_mem_cons.2 ⟨hlt, fun c hc => lt_trans hlt (ha c hc)⟩
          rcases List.mem_cons.1 hb with rfl | hb
          · exact .inr ⟨rfl, .inr ⟨fun c hc => (hall c hc).ne', rfl⟩⟩
          · exact .inl ⟨hb, (hall b hb).ne⟩
        · rcases List.mem_cons.1 hb with rfl | hb
          · exact .inl ⟨List.mem_cons_self, hne⟩
          · obtain ⟨hold, hother⟩ | ⟨hown, ⟨old, hold, hsame⟩ | ⟨hno, hrules⟩⟩ := ih hbs hb
            · exact .inl ⟨List.mem_cons_of_mem _ hold, hother⟩
            · exact .inr ⟨hown, .inl ⟨old, List.mem_cons_of_mem _ hold, hsame⟩⟩
            · exact .inr ⟨hown, .inr ⟨List.forall_mem_cons.2 ⟨Ne.symm hne, hno⟩, hrules⟩⟩

theorem exists_block_of_rule {rules : List ClassRule} {r : ClassRule} (h : r ∈ rules) :
    ∃ b ∈ blocks rules, b.conditions = r.conditions := by
  obtain ⟨b, hb, hr⟩ := List.mem_flatMap.1 ((printed_perm rules).mem_iff.2 h)
  exact ⟨b, hb, (blocks_conditions rules b hb r hr).symm⟩

/-- A block has the rules with its conditions, in the order in which they came. -/
theorem rules_of_block {rules : List ClassRule} {b : Block} (h : b ∈ blocks rules) :
    b.rules = under b.conditions rules := by
  induction rules using List.reverseRecOn generalizing b with
  | nil => cases h
  | append_singleton rules r ih =>
      rw [blocks_concat] at h
      rw [under, List.filter_append]
      obtain ⟨hold, hother⟩ | ⟨hown, ⟨old, hold, hsame, hrules⟩ | ⟨hno, hrules⟩⟩ :=
        mem_addRule (blocks_ascending rules) h
      · rw [List.filter_cons_of_neg (by simpa using hother), List.filter_nil, List.append_nil]
        exact ih hold
      · rw [hrules, ih hold, hsame, hown, under]
        simp
      · have hnone : rules.filter (·.conditions = b.conditions) = [] := by
          refine List.filter_eq_nil_iff.2 fun s hs => ?_
          obtain ⟨c, hc, hconditions⟩ := exists_block_of_rule hs
          simpa [← hconditions, hown] using hno c hc
        rw [hrules, hnone]
        simp [hown]

theorem conditionLists_eq (rules : List ClassRule) :
    conditionLists rules = (blocks rules).map (·.conditions) := by
  have hascending : ((blocks rules).map (·.conditions)).Pairwise (· < ·) := blocks_ascending rules
  have hmem : (rules.map (·.conditions)).toFinset = ((blocks rules).map (·.conditions)).toFinset := by
    ext conditions
    rw [List.mem_toFinset, List.mem_toFinset, List.mem_map, List.mem_map]
    constructor
    · rintro ⟨r, hr, rfl⟩
      exact exists_block_of_rule hr
    · rintro ⟨b, hb, rfl⟩
      obtain ⟨r, hr, heq⟩ := exists_rule_of_block hb
      exact ⟨r, hr, heq.symm⟩
  rw [conditionLists, hmem, List.toFinset_sort]
  · exact hascending.imp le_of_lt
  · exact hascending.imp ne_of_lt

/-- The blocks of a sheet are those of its lists of conditions. -/
theorem blocks_eq (rules : List ClassRule) :
    blocks rules = (conditionLists rules).map fun conditions =>
      ⟨conditions, under conditions rules⟩ := by
  rw [conditionLists_eq, List.map_map]
  symm
  refine (List.map_congr_left fun b hb => ?_).trans (List.map_id _)
  rw [Function.comp_apply, ← rules_of_block hb]
  rfl

/-! ## Levels -/

/-- The preludes of conditions, for those that have one. -/
def heads (theme : Theme) (conditions : List ConditionId) : List String :=
  conditions.map fun id => (theme.prelude? id).getD ""

theorem mapM_prelude? {theme : Theme} {conditions : List ConditionId}
    (h : ∀ id ∈ conditions, id < theme.preludes.length) :
    conditions.mapM theme.prelude? = some (heads theme conditions) := by
  refine mapM_eq_some fun id hid => ?_
  rw [Theme.prelude?, List.getElem?_eq_getElem (h id hid)]
  rfl

theorem Piece.text_ofRule (level : Nat) (r : ClassRule) :
    (Piece.ofRule r).text level = ruleText level r := by
  rw [Piece.ofRule, Piece.text, ruleText]
  simp [String.append_assoc]

theorem Piece.allText_eq_join (level : Nat) (pieces : List Piece) :
    Piece.allText level pieces = String.join (pieces.map (Piece.text level)) := by
  induction pieces with
  | nil => rfl
  | cons p ps ih => rw [Piece.allText, ih, List.map_cons, String.join_cons]

theorem Piece.allText_ofRule (level : Nat) (rules : List ClassRule) :
    Piece.allText level (rules.map Piece.ofRule) = String.join (rules.map (ruleText level)) := by
  rw [Piece.allText_eq_join, List.map_map]
  exact congrArg String.join (List.map_congr_left fun r _ => Piece.text_ofRule level r)

/-- Opening levels, writing what is inside and closing the levels again is writing
blocks inside each other. The levels around them are closed on both sides, so that
the induction can go inwards. -/
theorem Piece.allText_inside (theme : Theme) (level : Nat) (conditions : List ConditionId)
    (pieces : List Piece) :
    Piece.allText (level + 1) (Piece.inside (heads theme conditions) pieces) ++ closings level =
      openings theme (level + 1) conditions ++
        Piece.allText (level + 1 + conditions.length) pieces ++
          closings (level + conditions.length) := by
  induction conditions generalizing level with
  | nil => rw [openings, String.empty_append]; rfl
  | cons id ids ih =>
      have hlevel : level + 1 + 1 + ids.length = level + 1 + (id :: ids).length := by
        rw [List.length_cons]
        omega
      have hclose : level + 1 + ids.length = level + (id :: ids).length := by
        rw [List.length_cons]
        omega
      have hinner := ih (level + 1)
      rw [closings, hlevel, hclose] at hinner
      rw [openings, heads, List.map_cons, Piece.inside, List.foldr_cons, Piece.allText,
        Piece.allText, Piece.text, String.append_empty]
      simp only [String.append_assoc] at hinner ⊢
      rw [← hinner]
      rfl

theorem layerPiece_text (theme : Theme) (rules : List ClassRule)
    (conditions : List ConditionId) :
    (layerPiece rules conditions (heads theme conditions)).text 0 =
      Block.text theme ⟨conditions, under conditions rules⟩ := by
  have hinside := Piece.allText_inside theme 0 conditions
    ((under conditions rules).map Piece.ofRule)
  rw [closings, String.append_empty, Piece.allText_ofRule, Nat.zero_add, Nat.zero_add,
    Nat.add_comm 1] at hinside
  rw [layerPiece, Piece.text, hinside, Block.text, indent, Nat.mul_zero, List.replicate_zero]
  simp only [String.append_assoc, String.ofList_nil, String.empty_append]

/-- Behind its first line a sheet is the text of its pieces. -/
theorem body_eq {theme : Theme} {rules : List ClassRule}
    (h : ∀ r ∈ rules, ∀ id ∈ r.conditions, id < theme.preludes.length) :
    ∃ pieces, pieces? theme rules = some pieces ∧ body theme rules = Piece.allText 0 pieces := by
  have hlists : ∀ conditions ∈ conditionLists rules,
      (conditions.mapM theme.prelude?).map (layerPiece rules conditions) =
        some (layerPiece rules conditions (heads theme conditions)) := by
    intro conditions hconditions
    rw [conditionLists, Finset.mem_sort, List.mem_toFinset] at hconditions
    obtain ⟨r, hr, rfl⟩ := List.mem_map.1 hconditions
    rw [mapM_prelude? (h r hr)]
    rfl
  have hpieces : pieces? theme rules = some ((conditionLists rules).map fun conditions =>
      layerPiece rules conditions (heads theme conditions)) := mapM_eq_some hlists
  refine ⟨_, hpieces, ?_⟩
  rw [body, blocks_eq, List.map_map, Piece.allText_eq_join, List.map_map]
  refine congrArg String.join (List.map_congr_left fun conditions _ => ?_)
  exact (layerPiece_text theme rules conditions).symm

end Sheet

/-! ## Rules that are new to an emitter -/

namespace CssEmitter

/-- The rules whose token has not been written and is not that of an earlier rule,
in order. -/
def unseen (e : CssEmitter) (rules : List ClassRule) : List ClassRule :=
  (rules.zipIdx.filter fun p =>
    p.1.token ∉ e.printed ∧ p.1.token ∉ (rules.take p.2).map (·.token)).map (·.1)

theorem unseen_concat (e : CssEmitter) (rules : List ClassRule) (r : ClassRule) :
    e.unseen (rules ++ [r]) = e.unseen rules ++
      if r.token ∉ e.printed ∧ r.token ∉ rules.map (·.token) then [r] else [] := by
  rw [unseen, List.zipIdx_append, List.filter_append, List.map_append]
  congr 1
  · rw [unseen]
    refine congrArg _ (List.filter_congr fun p hp => ?_)
    have hlt : p.2 ≤ rules.length := by
      have := List.mem_zipIdx hp
      omega
    rw [List.take_append_of_le_length hlt]
  · rw [Nat.zero_add, List.zipIdx_cons, List.zipIdx_nil, List.filter_cons, List.filter_nil,
      List.take_left]
    by_cases hr : r.token ∉ e.printed ∧ r.token ∉ rules.map (·.token)
    · rw [if_pos hr, if_pos (decide_eq_true hr), List.map_singleton]
    · rw [if_neg hr, if_neg (by simpa using hr), List.map_nil]

theorem fresh_append (e : CssEmitter) (rs ss : List ClassRule) :
    e.fresh (rs ++ ss) = (((e.fresh rs).1.fresh ss).1,
      (e.fresh rs).2 ++ ((e.fresh rs).1.fresh ss).2) := by
  induction rs generalizing e with
  | nil => rfl
  | cons r rs ih =>
      rw [List.cons_append, fresh, fresh]
      split
      · exact ih e
      · dsimp only
        rw [ih, List.cons_append]

theorem mem_fresh_printed_iff {e : CssEmitter} {rs : List ClassRule} {token : String} :
    token ∈ (e.fresh rs).1.printed ↔ token ∈ e.printed ∨ token ∈ rs.map (·.token) := by
  constructor
  · intro h
    rw [fresh_printed, List.mem_append] at h
    exact h.imp id fun h => ((fresh_sublist e rs).map _).subset h
  · rintro (h | h)
    · rw [fresh_printed]
      exact List.mem_append_left _ h
    · obtain ⟨r, hr, rfl⟩ := List.mem_map.1 h
      exact mem_fresh_printed e hr

/-- An emitter takes the rules that it has not seen. -/
theorem fresh_eq_unseen (e : CssEmitter) (rules : List ClassRule) :
    (e.fresh rules).2 = e.unseen rules := by
  induction rules using List.reverseRecOn with
  | nil => rfl
  | append_singleton rules r ih =>
      have hnew : r.token ∉ (e.fresh rules).1.printed ↔
          r.token ∉ e.printed ∧ r.token ∉ rules.map (·.token) := by
        rw [mem_fresh_printed_iff, not_or]
      rw [fresh_append, unseen_concat, ← ih]
      show _ ++ _ = _ ++ _
      congr 1
      rw [fresh, isPrinted]
      by_cases hr : r.token ∈ (e.fresh rules).1.printed
      · rw [if_pos (List.contains_iff_mem.2 hr), if_neg (hnew.not.1 (not_not.2 hr)), fresh]
      · rw [if_neg (List.contains_iff_mem.not.2 hr), if_pos (hnew.1 hr), fresh]

/-- After a forest an emitter has written the tokens that it had written and those of
the forest. The sheet is empty when no rule is new. Otherwise it starts with the
declaration of the layers, and then comes a piece for each list of conditions that a
new rule has. -/
theorem emit_of_unseen (e : CssEmitter) {theme : Theme} {f : RuleForest}
    (h : ∀ r ∈ f.classes, ∀ id ∈ r.conditions, id < theme.preludes.length) :
    (∀ token, token ∈ (e.emit theme f).1.printed ↔ token ∈ e.printed ∨ token ∈ f.tokens) ∧
    (e.unseen f.classes = [] → (e.emit theme f).2 = "") ∧
    (e.unseen f.classes ≠ [] → ∃ pieces,
      Sheet.pieces? theme (e.unseen f.classes) = some pieces ∧
      (e.emit theme f).2 = theme.layerDeclaration ++ "\n" ++ Sheet.Piece.allText 0 pieces) := by
  have hnew : (e.emit theme f).2 = Sheet.text theme (e.unseen f.classes) := by
    rw [emit, fresh_eq_unseen]
  refine ⟨fun token => mem_fresh_printed_iff, fun hnil => ?_, fun hne => ?_⟩
  · rw [hnew, hnil]
    rfl
  · have hrange : ∀ r ∈ e.unseen f.classes, ∀ id ∈ r.conditions, id < theme.preludes.length := by
      intro r hr
      rw [← fresh_eq_unseen] at hr
      exact h r ((fresh_sublist e f.classes).subset hr)
    obtain ⟨pieces, hpieces, hbody⟩ := Sheet.body_eq hrange
    refine ⟨pieces, hpieces, ?_⟩
    rw [hnew, Sheet.text_of_ne_nil theme hne, hbody]

/-- The base class has been written before, and one class comes twice. The class under
`dark` and `hover` comes first, since `dark` comes before `wide`. -/
theorem emit_of_unseen_nested :
    let f : RuleForest := ⟨[⟨"a", "display",
      [.leaf (.class "aa" []) none none [⟨"display", "block"⟩],
       .leaf (.class "abb" [1]) (some 1) none [⟨"display", "flex"⟩],
       .leaf (.class "aacb" [0, 2]) (some 2) none [⟨"display", "flex"⟩],
       .leaf (.class "abb" [1]) (some 1) none [⟨"display", "flex"⟩]]⟩]⟩
    (∀ r ∈ f.classes, ∀ id ∈ r.conditions, id < smallTheme.preludes.length) ∧
    (∀ token, token ∈ (emit ⟨["aa"]⟩ smallTheme f).1.printed ↔
      token ∈ ["aa"] ∨ token ∈ ["aa", "abb", "aacb", "abb"]) ∧
    (emit ⟨["aa"]⟩ smallTheme f).2 =
      "@layer _, _a, _b, _c;" ++ "\n" ++ Sheet.Piece.allText 0
        [.block "@layer _c" [.block ".dark &" [.block "&:hover"
          [.line ".aacb \x7b display: flex; \x7d"]]],
         .block "@layer _b" [.block "@media (min-width: 60rem)"
          [.line ".abb \x7b display: flex; \x7d"]]] := by
  intro f
  have hrange : ∀ r ∈ f.classes, ∀ id ∈ r.conditions, id < smallTheme.preludes.length := by
    decide
  have hlayers : smallTheme.layerDeclaration = "@layer _, _a, _b, _c;" := by decide +kernel
  have hpieces : Sheet.pieces? smallTheme (unseen ⟨["aa"]⟩ f.classes) = some
      [.block "@layer _c" [.block ".dark &" [.block "&:hover"
        [.line ".aacb \x7b display: flex; \x7d"]]],
       .block "@layer _b" [.block "@media (min-width: 60rem)"
        [.line ".abb \x7b display: flex; \x7d"]]] := by
    rw [Sheet.pieces?, Sheet.conditionLists_eq]
    rfl
  obtain ⟨hprinted, -, hsheet⟩ := emit_of_unseen ⟨["aa"]⟩ hrange
  obtain ⟨pieces, hsome, htext⟩ := hsheet (by decide)
  rw [Option.some.inj (hsome.symm.trans hpieces), hlayers] at htext
  exact ⟨hrange, hprinted, htext⟩

end CssEmitter

end AtomicStyles
