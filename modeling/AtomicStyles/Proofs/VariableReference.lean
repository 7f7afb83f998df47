import AtomicStyles.Proofs.BracketedValue

/-!
# Two ways to refer to a custom property

A value that starts with two dashes is a reference to the custom property of that
name, and the same reference can be written out in brackets. The first way takes
the name as it is. The second has the whole reference checked, and the check
knows no names: it opens a parenthesis for the reference and skips what stands in
it.

So a name does no harm as long as it stays inside. It leaves the reference when
one of its own parentheses closes it, and then the check goes through whatever
comes behind. The two ways agree for every name but those where it finds a fault
there, and for these the first way lets pass what the second refuses.
-/

namespace AtomicStyles.Css

/-! ## Leaving a parenthesis -/

/-- One of the tokens closes the parenthesis that they stand in, and behind it comes
something that no value may hold. -/
def Leaves (ts : List Token) : Prop :=
  ∃ before after, ts = before ++ .closing .round :: after ∧
    before.foldl follow [.round] = [.round] ∧ firstFault [] after ≠ none

/-- Inside a parenthesis a token other than its closing one leaves it open. -/
theorem follow_inside (inner : List Bracket) (t : Token) :
    (inner = [] ∧ t = .closing .round) ∨
      ∃ inner', follow (inner ++ [.round]) t = inner' ++ [.round] := by
  cases t with
  | opening b => exact .inr ⟨b :: inner, by cases inner <;> rfl⟩
  | closing b =>
      cases inner with
      | nil =>
          by_cases hb : b = .round
          · exact .inl ⟨rfl, by rw [hb]⟩
          · exact .inr ⟨[], if_neg hb⟩
      | cons open' inner =>
          by_cases hb : b = open'
          · exact .inr ⟨inner, if_pos hb⟩
          · exact .inr ⟨open' :: inner, if_neg hb⟩
  | _ => exact .inr ⟨inner, by cases inner <;> rfl⟩

theorem firstFault_inside {ts : List Token} {inner : List Bracket}
    (h : firstFault (inner ++ [.round]) ts ≠ none) :
    ∃ before after, ts = before ++ .closing .round :: after ∧
      before.foldl follow (inner ++ [.round]) = [.round] ∧ firstFault [] after ≠ none := by
  induction ts generalizing inner with
  | nil =>
      rw [firstFault] at h
      exact absurd rfl h
  | cons t ts ih =>
      have hne : inner ++ [.round] ≠ [] := List.append_ne_nil_of_right_ne_nil _ (by simp)
      rw [firstFault_cons, if_neg hne, Option.none_or] at h
      obtain ⟨rfl, rfl⟩ | ⟨inner', hfollow⟩ := follow_inside inner t
      · exact ⟨[], ts, rfl, rfl, h⟩
      · rw [hfollow] at h
        obtain ⟨before, after, rfl, hopen, hfault⟩ := ih h
        exact ⟨t :: before, after, rfl, by rw [List.foldl_cons, hfollow, hopen], hfault⟩

theorem firstFault_inside_iff {ts : List Token} :
    firstFault [.round] ts ≠ none ↔ Leaves ts := by
  constructor
  · intro h
    have hinside : firstFault ([] ++ [.round]) ts ≠ none := h
    exact firstFault_inside hinside
  · rintro ⟨before, after, rfl, hopen, hfault⟩
    have hclosed : firstFault [.round] (.closing .round :: after) = firstFault [] after := rfl
    rw [firstFault_append, hopen, hclosed, Ne, Option.or_eq_none_iff]
    exact fun h => hfault h.2

/-! ## Closing parentheses are written out -/

namespace Scan

/-- The token is no closing parenthesis. -/
def NoClose (r : Token × List Char) : Prop := r.1 ≠ .closing .round

theorem noClose_mk {t : Token} (h : decide (t = .closing .round) = false) {cs : List Char} :
    NoClose (t, cs) := of_decide_eq_false h

theorem noClose_string (quote : Char) (cs : List Char) : NoClose (string quote cs) := by
  fun_induction string quote cs with
  | case1 => exact noClose_mk rfl
  | case2 cs hnewline hle ih => exact ih
  | case3 cs hnewline hle ih => exact ih
  | case4 => exact noClose_mk rfl
  | case5 => exact noClose_mk rfl
  | case6 => assumption

theorem noClose_urlEnd (cs : List Char) : NoClose (urlEnd cs) := by
  fun_induction urlEnd cs with
  | case3 => assumption
  | _ => exact noClose_mk rfl

theorem noClose_unquotedUrl (cs : List Char) : NoClose (unquotedUrl cs) := by
  fun_induction unquotedUrl cs with
  | case3 cs hnewline hle ih => exact ih
  | case5 => exact noClose_urlEnd _
  | case7 => assumption
  | _ => exact noClose_mk rfl

theorem noClose_url (cs : List Char) : NoClose (url cs) := by
  unfold url
  split
  · exact noClose_mk rfl
  · exact noClose_mk rfl
  · exact noClose_unquotedUrl _

theorem noClose_nameLike (cs : List Char) : NoClose (nameLike cs) := by
  rw [nameLike_eq]
  split
  · split
    · exact noClose_url _
    · exact noClose_mk rfl
  · exact noClose_mk rfl

theorem noClose_number (cs : List Char) : NoClose (number cs) := by
  rw [number_eq]
  fun_cases numberUnit (numberTail cs) with
  | _ => exact noClose_mk rfl

theorem noClose_token {c : Char} (h : c ≠ ')') (cs : List Char) : NoClose (token c cs) := by
  have ite {p : Prop} [Decidable p] {r₁ r₂ : Token × List Char} (h₁ : NoClose r₁)
      (h₂ : NoClose r₂) : NoClose (if p then r₁ else r₂) :=
    iteInduction (motive := NoClose) (fun _ => h₁) fun _ => h₂
  have skip {p : Prop} [Decidable p] {t : Token} {rest : List Char} {r : Token × List Char}
      (ht : decide (t = .closing .round) = false) (hr : NoClose r) :
      NoClose (if p then (t, rest) else r) := ite (noClose_mk ht) hr
  have last : NoClose (.other, cs) := noClose_mk rfl
  have hround : (c == ')') = false := by simpa using h
  unfold token
  rw [hround, if_neg (c := false = true) Bool.false_ne_true]
  refine skip rfl <| ite (noClose_string c cs) <| ite ?hash <|
    skip rfl <| skip rfl <| skip rfl <| skip rfl <| skip rfl <| skip rfl <| skip rfl <|
    ite (ite (noClose_number cs) last) <| ite ?minus <| ite (noClose_number _) <| ite ?slash <|
    ite (skip rfl last) <| ite (skip rfl last) <| ite (noClose_nameLike _) last
  case hash =>
    cases cs with
    | nil => exact last
    | cons d ds => exact skip rfl last
  case minus => exact ite (noClose_number cs) <| skip rfl <| ite (noClose_nameLike _) last
  case slash =>
    split
    · exact noClose_mk rfl
    · exact last

end Scan

theorem token_round (cs : List Char) : Scan.token ')' cs = (.closing .round, cs) := by
  have hspace : Scan.isSpace ')' = false := by decide
  simp [Scan.token, hspace]

/-- Where a text has a closing parenthesis among its tokens it has the character, and
the later tokens are those of what follows it. -/
theorem tokens_closing {cs : List Char} {before after : List Token}
    (h : tokens cs = before ++ .closing .round :: after) :
    ∃ rest, ')' :: rest <:+ cs ∧ after = tokens rest := by
  induction before generalizing cs with
  | nil =>
      cases cs with
      | nil =>
          rw [tokens] at h
          cases h
      | cons c cs =>
          rw [tokens_cons, List.nil_append] at h
          obtain ⟨hhead, htail⟩ := List.cons.inj h
          obtain rfl : c = ')' := by
            by_contra hc
            exact Scan.noClose_token hc cs hhead
          rw [token_round] at htail
          exact ⟨cs, List.suffix_rfl, htail.symm⟩
  | cons t before ih =>
      cases cs with
      | nil =>
          rw [tokens] at h
          cases h
      | cons c cs =>
          rw [tokens_cons] at h
          obtain ⟨rest, hrest, hafter⟩ := ih (List.cons.inj h).2
          have hsuffix := (Scan.token_suffix c cs).trans (List.suffix_cons c cs)
          exact ⟨rest, hrest.trans hsuffix, hafter⟩

/-- A text leaves its parenthesis at a closing one of its own only. -/
theorem mem_of_leaves {cs : List Char} (h : Leaves (tokens (cs ++ [')']))) : ')' ∈ cs := by
  obtain ⟨before, after, htokens, -, hfault⟩ := h
  obtain ⟨rest, ⟨init, hinit⟩, rfl⟩ := tokens_closing htokens
  -- behind the last character nothing is left to find fault with
  obtain rfl | ⟨rest', c, rfl⟩ := List.eq_nil_or_concat rest
  · rw [tokens] at hfault
    exact absurd rfl hfault
  · have hcs : (init ++ ')' :: rest') ++ [c] = cs ++ [')'] := by simpa using hinit
    rw [← (List.append_inj' hcs rfl).1]
    simp

/-! ## The check of a reference -/

/-- The reference to a custom property. -/
def reference (v : String) : String := "var(" ++ v ++ ")"

theorem toList_reference (v : String) :
    (reference v).toList = 'v' :: 'a' :: 'r' :: '(' :: (v.toList ++ [')']) := by
  rw [reference, String.toList_append, String.toList_append]
  rfl

theorem trim_reference (v : String) : Text.trim (reference v).toList = (reference v).toList := by
  rw [toList_reference]
  refine Text.trim_eq_self (fun c hc => ?_) fun c hc => ?_
  · obtain rfl := Option.some.inj hc
    decide
  · have hlast : ('v' :: 'a' :: 'r' :: '(' :: (v.toList ++ [')'])).getLast? = some ')' := by
      simp [List.getLast?_cons, List.getLast?_append]
    obtain rfl := Option.some.inj (hlast.symm.trans hc)
    decide

theorem tokens_reference (v : String) :
    tokens (reference v).toList = .opening .round :: tokens (v.toList ++ [')']) := by
  have hname (rest : List Char) :
      Scan.name ('v' :: 'a' :: 'r' :: '(' :: rest) = (['v', 'a', 'r'], '(' :: rest) := by
    simp [Scan.name, Scan.isNameChar, Scan.isNameStart]
  have htoken (rest : List Char) :
      Scan.token 'v' ('a' :: 'r' :: '(' :: rest) = (.opening .round, rest) := by
    have hurl : ['v', 'a', 'r'].map Char.toLower ≠ ['u', 'r', 'l'] := by decide
    have hlike := Scan.nameLike_function (congrArg Prod.snd (hname rest)) (by rwa [hname])
    rw [← hlike]
    rfl
  rw [toList_reference, tokens_cons, htoken]

theorem checkValue_reference (v : String) :
    checkValue (reference v).toList =
      match firstFault [.round] (tokens (v.toList ++ [')'])) with
      | some fault => .error fault
      | none => .ok () := by
  have hne : Text.trim (reference v).toList ≠ [] := by
    rw [trim_reference, toList_reference]
    exact List.cons_ne_nil _ _
  rw [checkValue_eq hne, tokens_reference]
  rfl

end AtomicStyles.Css

namespace AtomicStyles.PropertyDefinition

open Css

theorem resolve_custom {v : String} (h : isCustomName v) (d : PropertyDefinition) (name : String) :
    d.resolve name (.text v) = .ok ⟨d.declarations name (reference v), .ofText (reference v)⟩ := by
  rw [resolve, resolveValue, if_pos h]
  rfl

theorem resolve_reference (d : PropertyDefinition) (name v : String) :
    d.resolve name (.text ("[" ++ reference v ++ "]")) =
      match firstFault [.round] (tokens (v.toList ++ [')'])) with
      | some fault => .error (.invalidArbitraryValue name ("[" ++ reference v ++ "]") fault)
      | none => .ok ⟨d.declarations name (reference v), .ofText (reference v)⟩ := by
  have htrimmed : Text.trimmed (reference v) = reference v := by
    rw [Text.trimmed, trim_reference, String.ofList_toList]
  rw [resolve, resolveValue_bracketed, checkValue_reference, htrimmed]
  cases firstFault [.round] (tokens (v.toList ++ [')'])) <;> rfl

/-- A name that starts with two dashes always resolves, to a reference, and the same
reference in brackets resolves alike unless the name leaves it. Then the brackets
are refused. No name without a closing parenthesis does that. -/
theorem reference_in_brackets {v : String} (h : isCustomName v) (d : PropertyDefinition)
    (name : String) :
    d.resolve name (.text v) = .ok ⟨d.declarations name (reference v), .ofText (reference v)⟩ ∧
    (d.resolve name (.text ("[" ++ reference v ++ "]")) = d.resolve name (.text v) ↔
      ¬ Leaves (tokens (v.toList ++ [')']))) ∧
    (Leaves (tokens (v.toList ++ [')'])) →
      ')' ∈ v.toList ∧ ∃ fault, d.resolve name (.text ("[" ++ reference v ++ "]")) =
        .error (.invalidArbitraryValue name ("[" ++ reference v ++ "]") fault)) := by
  rw [← firstFault_inside_iff, resolve_custom h, resolve_reference]
  cases hfault : firstFault [.round] (tokens (v.toList ++ [')'])) with
  | none => simp
  | some fault =>
      have hleaves : Leaves (tokens (v.toList ++ [')'])) :=
        firstFault_inside_iff.1 (by rw [hfault]; exact Option.some_ne_none fault)
      simp [mem_of_leaves hleaves]

theorem reference_in_brackets_brand :
    (ofNames ["auto"]).resolve "width" (.text ("[" ++ reference "--brand" ++ "]")) =
      .ok ⟨[⟨"width", "var(--brand)"⟩], .ofText "var(--brand)"⟩ := by
  obtain ⟨hplain, hsame, hleaves⟩ :=
    reference_in_brackets (v := "--brand") (by decide) (ofNames ["auto"]) "width"
  rw [hsame.2 fun h => absurd (hleaves h).1 (by decide), hplain]
  rfl

/-- The name closes the reference and goes on behind it. As a name it is accepted, and
the style sheet has another declaration than was asked for. -/
theorem reference_left_early :
    (ofNames ["auto"]).resolve "width" (.text "--x);color:red") =
      .ok ⟨[⟨"width", "var(--x);color:red)"⟩], .ofText "var(--x);color:red)"⟩ ∧
    (ofNames ["auto"]).resolve "width" (.text ("[" ++ "var(" ++ "--x);color:red" ++ ")" ++ "]")) =
      .error (.invalidArbitraryValue "width" "[var(--x);color:red)]" .semicolon) := by
  decide +kernel

end AtomicStyles.PropertyDefinition
