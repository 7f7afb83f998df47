import AtomicStyles.Proofs.LoweredClasses
import AtomicStyles.Selection.Procedure

/-!
# Class lists

A procedure joins the tokens that it selects by spaces, and a browser takes the
list apart at separators. No token holds a separator and none is empty, so
nothing is lost between the two, and the words of a class list are the tokens
that were selected.

What is selected stands in the forest: a decision node holds the token of a
class rule and nothing else, whatever the state.
-/

namespace AtomicStyles

theorem eraseDups_append_singleton (ts : List String) (t : String) :
    (ts ++ [t]).eraseDups = if t ∈ ts then ts.eraseDups else ts.eraseDups ++ [t] := by
  rw [List.eraseDups_append]
  by_cases ht : t ∈ ts
  · simp [List.removeAll, ht]
  · simp [List.removeAll, ht, List.eraseDups_cons]

theorem firsts_eq_eraseDups (items : List String) : firsts items = items.eraseDups := by
  induction items using List.reverseRecOn with
  | nil => rfl
  | append_singleton items x ih =>
      rw [firsts, List.foldl_append, List.foldl_cons, List.foldl_nil, ← firsts, ih,
        eraseDups_append_singleton]
      simp only [List.contains_iff_mem, List.mem_eraseDups]

theorem nodup_eraseDups (ts : List String) : ts.eraseDups.Nodup := by
  induction ts using List.reverseRecOn with
  | nil => exact List.nodup_nil
  | append_singleton ts t ih =>
      rw [eraseDups_append_singleton]
      split
      · exact ih
      · next ht =>
          refine List.nodup_append.2 ⟨ih, by simp, ?_⟩
          rintro u hu v hv rfl
          exact ht (List.mem_singleton.1 hv ▸ List.mem_eraseDups.1 hu)

/-- The first appearances among some of the items are those of the whole list. -/
theorem filter_eraseDups (p : String → Bool) (ts : List String) :
    ts.eraseDups.filter p = (ts.filter p).eraseDups := by
  induction ts using List.reverseRecOn with
  | nil => rfl
  | append_singleton ts t ih =>
      rw [eraseDups_append_singleton, List.filter_append]
      by_cases hp : p t
      · have hlast : [t].filter p = [t] := by simp [hp]
        have hmem : t ∈ ts.filter p ↔ t ∈ ts := by simp [hp]
        rw [hlast, eraseDups_append_singleton, ← ih]
        simp only [hmem]
        split
        · rfl
        · rw [List.filter_append, hlast]
      · have hlast : [t].filter p = [] := by simp [hp]
        rw [hlast, List.append_nil, ← ih]
        split
        · rfl
        · rw [List.filter_append, hlast, List.append_nil]

/-! ## Joining and splitting -/

theorem intercalate_cons_ne_empty {t : String} (h : t ≠ "") (tokens : List String) :
    " ".intercalate (t :: tokens) ≠ "" := by
  cases tokens with
  | nil => rwa [String.intercalate_singleton]
  | cons u rest =>
      intro hempty
      have hlist := congrArg String.toList hempty
      rw [String.intercalate_cons_cons] at hlist
      simp at hlist

namespace SelectionProcedure

/-- Tokens are joined by single spaces. A space is only written after something, so
the tokens before the first that is not empty leave no trace. -/
theorem foldl_addClass (tokens : List String) :
    tokens.foldl addClass "" = " ".intercalate (tokens.dropWhile (·.isEmpty)) := by
  induction tokens using List.reverseRecOn with
  | nil => rfl
  | append_singleton tokens t ih =>
      rw [List.foldl_append, List.foldl_cons, List.foldl_nil, ih, addClass, List.dropWhile_append]
      cases hrest : tokens.dropWhile (·.isEmpty) with
      | nil => by_cases ht : t = "" <;> simp [ht]
      | cons u rest =>
          have hu : u ≠ "" := by
            have hhead := List.head?_dropWhile_not (fun u : String => u.isEmpty) tokens
            rw [hrest] at hhead
            simpa using hhead
          have hjoined := intercalate_cons_ne_empty hu rest
          rw [if_neg (by simpa using hjoined), if_neg (by simp),
            String.intercalate_append_of_ne_nil (List.cons_ne_nil u rest) (List.cons_ne_nil t []),
            String.intercalate_singleton]

end SelectionProcedure

namespace Text

theorem stretches_of_no_separator {cs : List Char} (h : ∀ c ∈ cs, isSeparator c = false) :
    stretches cs = [cs] := by
  induction cs with
  | nil => rfl
  | cons c cs ih =>
      obtain ⟨hc, hcs⟩ := List.forall_mem_cons.1 h
      rw [stretches, if_neg (by rw [hc]; decide), ih hcs]

theorem stretches_append_separator {cs : List Char} (h : ∀ c ∈ cs, isSeparator c = false)
    {s : Char} (hs : isSeparator s) (rest : List Char) :
    stretches (cs ++ s :: rest) = cs :: stretches rest := by
  induction cs with
  | nil => rw [List.nil_append, stretches, if_pos hs]
  | cons c cs ih =>
      obtain ⟨hc, hcs⟩ := List.forall_mem_cons.1 h
      rw [List.cons_append, stretches, if_neg (by rw [hc]; decide), ih hcs]

/-- A joined class list splits into the classes that it was joined from. -/
theorem words_intercalate {tokens : List String} (h : ∀ t ∈ tokens, IsClassName t) :
    words (" ".intercalate tokens) = tokens := by
  induction tokens with
  | nil => rfl
  | cons t tokens ih =>
      obtain ⟨⟨hne, ht⟩, htokens⟩ := List.forall_mem_cons.1 h
      have hword : (!t.toList.isEmpty) = true := by simpa using hne
      match tokens, ih with
      | [], _ =>
          rw [String.intercalate_singleton, words, stretches_of_no_separator ht,
            List.filter_cons, if_pos hword, List.filter_nil, List.map_singleton, String.ofList_toList]
      | u :: rest, ih =>
          have hsplit : (" ".intercalate (t :: u :: rest)).toList =
              t.toList ++ ' ' :: (" ".intercalate (u :: rest)).toList := by
            rw [String.intercalate_cons_cons, String.toList_append, String.toList_append,
              List.append_assoc]
            rfl
          rw [words, hsplit, stretches_append_separator ht (by decide), List.filter_cons,
            if_pos hword, List.map_cons, String.ofList_toList, ← words, ih htokens]

end Text

/-! ## What is selected stands in the forest -/

namespace Node

mutual

theorem run_subset (state : RenderState) (r : Rule) :
    run state (ofRule r) ⊆ r.classes.map (·.token) := by
  match r with
  | .leaf (.class token conditions) _ _ declarations =>
      rw [ofRule, run, chosen?, unconditional, Rule.classes]
      simp
  | .leaf .group _ _ _ | .leaf (.prelude _) _ _ _ =>
      rw [ofRule.eq_def]
      simp [run, chosen?, unconditional]
  | .nested _ _ _ children =>
      rw [run_nested, Rule.classes, runAll]
      obtain ⟨hchosen, hrest⟩ := runRules_subset state children
      cases hc : chosen? state (ofRules children) with
      | none => exact hrest
      | some out => exact hchosen out hc

theorem runRules_subset (state : RenderState) (rules : List Rule) :
    (∀ out, chosen? state (ofRules rules) = some out →
        out ⊆ (Rule.allClasses rules).map (·.token)) ∧
      unconditional state (ofRules rules) ⊆ (Rule.allClasses rules).map (·.token) := by
  match rules with
  | [] => simp [ofRules, chosen?, unconditional]
  | r :: rs =>
      have hr := run_subset state r
      obtain ⟨hchosen, hrest⟩ := runRules_subset state rs
      rw [ofRules, Rule.allClasses, List.map_append, chosen?, unconditional]
      constructor
      · intro out hout
        split at hout
        · rw [← Option.some.inj hout]
          exact List.Subset.trans hr (List.subset_append_left _ _)
        · exact List.Subset.trans (hchosen out hout) (List.subset_append_right _ _)
      · split
        · exact List.append_subset.2
            ⟨List.Subset.trans hr (List.subset_append_left _ _),
              List.Subset.trans hrest (List.subset_append_right _ _)⟩
        · exact List.Subset.trans hrest (List.subset_append_right _ _)

end

/-- The nodes of rules select tokens of these rules, whatever the state. -/
theorem runAll_subset (state : RenderState) (rules : List Rule) :
    runAll state (ofRules rules) ⊆ (Rule.allClasses rules).map (·.token) := by
  obtain ⟨hchosen, hrest⟩ := runRules_subset state rules
  rw [runAll]
  cases hc : chosen? state (ofRules rules) with
  | none => exact hrest
  | some out => exact hchosen out hc

end Node

namespace SelectionProcedure

theorem mem_effective {state : RenderState} {groups : List PropertyGroup} {token : String}
    (h : token ∈ (effective state groups).1) :
    ∃ g ∈ groups, token ∈ Node.runAll state g.nodes := by
  induction groups with
  | nil => cases h
  | cons g gs ih =>
      rw [effective] at h
      dsimp only at h
      split at h
      · obtain ⟨g', hg', ht⟩ := ih h
        exact ⟨g', List.mem_cons_of_mem _ hg', ht⟩
      · split at h
        · obtain ⟨g', hg', ht⟩ := ih h
          exact ⟨g', List.mem_cons_of_mem _ hg', ht⟩
        · rename_i own hown
          rcases List.mem_append.1 h with ht | ht
          · exact ⟨g, List.mem_cons_self, ht⟩
          · obtain ⟨g', hg', ht⟩ := ih ht
            exact ⟨g', List.mem_cons_of_mem _ hg', ht⟩

/-- Every selected token is a token of the forest. -/
theorem selected_subset (f : RuleForest) (state : RenderState) :
    (ofForest f).selected state ⊆ f.tokens := by
  intro token h
  rw [selected, firsts_eq_eraseDups, List.mem_eraseDups] at h
  obtain ⟨g, hg, ht⟩ := mem_effective h
  obtain ⟨rules, hrules, rfl⟩ := List.mem_map.1 hg
  obtain ⟨r, hr, rfl⟩ := List.mem_map.1 (Node.runAll_subset state rules.rules ht)
  exact List.mem_map.2 ⟨r, List.mem_flatMap.2 ⟨rules, hrules, hr⟩, rfl⟩

theorem select_eq_intercalate {theme : Theme} {d : StyleDescription} {f : RuleForest}
    (h : lower theme d = .ok f) (state : RenderState) :
    (ofForest f).select state = " ".intercalate ((ofForest f).selected state) := by
  have hne : ∀ t ∈ (ofForest f).selected state, t ≠ "" := fun t ht =>
    (isClassName_of_mem_tokens h (selected_subset f state ht)).1
  rw [select, foldl_addClass]
  cases hselected : (ofForest f).selected state with
  | nil => rfl
  | cons t ts =>
      rw [List.dropWhile_cons_of_neg]
      simpa using hne t (hselected ▸ List.mem_cons_self)

/-- The words of the class list are the selected tokens. -/
theorem words_select {theme : Theme} {d : StyleDescription} {f : RuleForest}
    (h : lower theme d = .ok f) (state : RenderState) :
    Text.words ((ofForest f).select state) = (ofForest f).selected state := by
  rw [select_eq_intercalate h state]
  exact Text.words_intercalate fun t ht =>
    isClassName_of_mem_tokens h (selected_subset f state ht)

end SelectionProcedure

end AtomicStyles
