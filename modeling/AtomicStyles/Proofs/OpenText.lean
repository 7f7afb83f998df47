import AtomicStyles.Proofs.OpenScan

/-!
# Texts that leave their last token open

A token that is no string, comment or address ends by itself. Only one thing makes
it take a semicolon behind the text: a backslash at the very end, which escapes the
semicolon. With that the readers of names and numbers follow suit, and then every
branch of `token`.

Put together, a text leaves its last token open or it does not. If it does not, its
tokens stand as they are before those of anything that follows a semicolon. If it
does, a semicolon behind it adds no token.
-/

namespace AtomicStyles.Css

namespace Scan

/-! ## Tokens that a backslash leaves open -/

/-- Reading a token off the text gives `r`, and `s more` with a semicolon and more
behind the text. Only a last backslash takes the semicolon. -/
structure Ends (cs : List Char) (r : Token × List Char)
    (s : List Char → Token × List Char) : Prop where
  closed : (r.2 = [] → dangling cs = false) → ∀ more, s more = (r.1, r.2 ++ ';' :: more)
  opened : r.2 = [] → dangling cs = true → s [] = (r.1, [])

theorem Ends.of_dangling {cs ds : List Char} {r : Token × List Char}
    {s : List Char → Token × List Char} (h : Ends ds r s) (heq : dangling ds = dangling cs) :
    Ends cs r s where
  closed hclosed := h.closed fun hrest => heq.trans (hclosed hrest)
  opened hrest hopen := h.opened hrest (heq.trans hopen)

theorem Ends.cons {c : Char} (hc : c ≠ '\\') {cs : List Char} {r : Token × List Char}
    {s : List Char → Token × List Char} (h : Ends cs r s) : Ends (c :: cs) r s :=
  h.of_dangling (dangling_cons hc cs).symm

theorem Ends.ite {p : Prop} [Decidable p] {cs : List Char} {r₁ r₂ : Token × List Char}
    {s₁ s₂ : List Char → Token × List Char} (h₁ : p → Ends cs r₁ s₁) (h₂ : ¬p → Ends cs r₂ s₂) :
    Ends cs (if p then r₁ else r₂) fun more => if p then s₁ more else s₂ more := by
  by_cases h : p
  · simpa only [if_pos h] using h₁ h
  · simpa only [if_neg h] using h₂ h

theorem ends_plain (t : Token) {f : List Char → List Char} (hf : Plain f) (cs : List Char) :
    Ends cs (t, f cs) fun more => (t, f (cs ++ ';' :: more)) where
  closed _ more := by rw [hf.append]
  opened hrest hopen := by
    have hnil : dangling (f cs) = false := congrArg dangling hrest
    rw [hf.dangling, hopen] at hnil
    exact absurd hnil.symm Bool.false_ne_true

theorem ends_rest (t : Token) (cs : List Char) :
    Ends cs (t, cs) fun more => (t, cs ++ ';' :: more) :=
  ends_plain t (f := id) ⟨fun _ => List.suffix_rfl, fun _ => rfl, fun _ _ => rfl⟩ cs

theorem ends_name (cs : List Char) :
    Ends cs (.other, (name cs).2) fun more => (.other, (name (cs ++ ';' :: more)).2) where
  closed hclosed more := by rw [name_append hclosed]
  opened hrest hopen := by rw [name_dangling hrest hopen]

/-- Reads the unit or percent sign of a number. -/
def numberUnit (cs : List Char) : Token × List Char :=
  match cs with
  | '%' :: rest => (.other, rest)
  | rest => if atName rest then (.other, (name rest).2) else (.other, rest)

theorem number_eq (cs : List Char) : number cs = numberUnit (numberTail cs) := rfl

theorem ends_numberUnit (cs : List Char) :
    Ends cs (numberUnit cs) fun more => numberUnit (cs ++ ';' :: more) := by
  fun_cases numberUnit cs with
  | case1 cs => exact (ends_rest .other cs).cons (by decide)
  | case2 cs hpercent hname =>
      have happend (more : List Char) :
          numberUnit (cs ++ ';' :: more) = (.other, (name (cs ++ ';' :: more)).2) := by
        rw [numberUnit, atName_append, if_pos hname]
        exact not_ahead_append (by decide) hpercent
      simp only [happend]
      exact ends_name cs
  | case3 cs hpercent hname =>
      have happend (more : List Char) :
          numberUnit (cs ++ ';' :: more) = (.other, cs ++ ';' :: more) := by
        rw [numberUnit, atName_append, if_neg hname]
        exact not_ahead_append (by decide) hpercent
      simp only [happend]
      exact ends_rest .other cs

theorem ends_number (cs : List Char) :
    Ends cs (number cs) fun more => number (cs ++ ';' :: more) := by
  simp only [number_eq, plain_numberTail.append]
  exact (ends_numberUnit (numberTail cs)).of_dangling (plain_numberTail.dangling cs)

/-- What follows the parenthesis of `url(`, if the text starts so. -/
def address? (cs : List Char) : Option (List Char) :=
  match (name cs).2 with
  | '(' :: rest =>
      if (name cs).1.map Char.toLower = ['u', 'r', 'l'] then some rest else none
  | _ => none

theorem nameLike_eq (cs : List Char) :
    nameLike cs =
      match (name cs).2 with
      | '(' :: rest =>
          if (name cs).1.map Char.toLower = ['u', 'r', 'l'] then url rest
          else (.opening .round, rest)
      | rest => (.other, rest) := rfl

theorem address?_eq_some_iff {cs rest : List Char} :
    address? cs = some rest ↔
      (name cs).2 = '(' :: rest ∧ (name cs).1.map Char.toLower = ['u', 'r', 'l'] := by
  unfold address?
  split
  · next rest' heq =>
      rw [heq]
      by_cases hurl : (name cs).1.map Char.toLower = ['u', 'r', 'l']
      · simp [hurl]
      · simp [hurl]
  · next hparen =>
      constructor
      · intro h
        exact absurd h.symm (Option.some_ne_none rest)
      · rintro ⟨hrest, _⟩
        exact (hparen rest hrest).elim

theorem address?_append {cs rest : List Char} (h : address? cs = some rest) (more : List Char) :
    address? (cs ++ ';' :: more) = some (rest ++ ';' :: more) := by
  obtain ⟨hrest, hurl⟩ := address?_eq_some_iff.mp h
  have hne : (name cs).2 ≠ [] := by
    rw [hrest]
    exact List.cons_ne_nil _ _
  rw [address?_eq_some_iff, name_append fun hnil => absurd hnil hne]
  exact ⟨by rw [hrest, List.cons_append], hurl⟩

theorem nameLike_address {cs rest : List Char} (h : address? cs = some rest) :
    nameLike cs = url rest := by
  obtain ⟨hrest, hurl⟩ := address?_eq_some_iff.mp h
  simp only [nameLike_eq, hrest, if_pos hurl]

theorem nameLike_function {cs rest : List Char} (h : (name cs).2 = '(' :: rest)
    (hurl : (name cs).1.map Char.toLower ≠ ['u', 'r', 'l']) :
    nameLike cs = (.opening .round, rest) := by
  simp only [nameLike_eq, h, if_neg hurl]

theorem nameLike_other {cs : List Char} (h : ∀ rest, (name cs).2 = '(' :: rest → False) :
    nameLike cs = (.other, (name cs).2) := by
  rw [nameLike_eq]
  split
  · next heq => exact (h _ heq).elim
  · rfl

theorem ends_nameLike {cs : List Char} (h : address? cs = none) :
    Ends cs (nameLike cs) fun more => nameLike (cs ++ ';' :: more) := by
  by_cases hparen : ∃ rest, (name cs).2 = '(' :: rest
  · obtain ⟨rest, hrest⟩ := hparen
    have hne : (name cs).2 ≠ [] := by
      rw [hrest]
      exact List.cons_ne_nil _ _
    have hurl : (name cs).1.map Char.toLower ≠ ['u', 'r', 'l'] := fun hurl =>
      Option.some_ne_none rest ((address?_eq_some_iff.mpr ⟨hrest, hurl⟩).symm.trans h)
    have hfunction (more : List Char) :
        nameLike (cs ++ ';' :: more) = (.opening .round, rest ++ ';' :: more) := by
      have happend := name_append (fun hnil => absurd hnil hne) more
      apply nameLike_function
      · rw [happend, hrest, List.cons_append]
      · rw [happend]
        exact hurl
    rw [nameLike_function hrest hurl]
    simp only [hfunction]
    refine ((ends_rest (.opening .round) rest).cons (c := '(') (by decide)).of_dangling ?_
    rw [← hrest, dangling_name hne]
  · have hother (rest : List Char) (heq : (name cs).2 = '(' :: rest) : False :=
      hparen ⟨rest, heq⟩
    rw [nameLike_other hother]
    constructor
    · intro hclosed more
      have happend := name_append hclosed more
      rw [nameLike_other, happend]
      rw [happend]
      exact not_ahead_append (by decide) hother
    · intro hrest hopen
      have hnil := name_dangling hrest hopen
      rw [nameLike_other, hnil]
      rw [hnil]
      exact fun _ heq => List.cons_ne_nil _ _ heq.symm

theorem isPrefixOf_append {p : List Char} (h : ';' ∉ p) (cs more : List Char) :
    p.isPrefixOf (cs ++ ';' :: more) = p.isPrefixOf cs := by
  induction p generalizing cs with
  | nil => rfl
  | cons a p ih =>
      rw [List.mem_cons, not_or] at h
      cases cs with
      | nil => simp [List.isPrefixOf, Ne.symm h.1]
      | cons c cs => rw [List.cons_append, List.isPrefixOf, List.isPrefixOf, ih h.2]

theorem ends_drop {p cs : List Char} (h : p.isPrefixOf cs = true) (hp : '\\' ∉ p) :
    Ends cs (.other, cs.drop p.length) fun more => (.other, (cs ++ ';' :: more).drop p.length) := by
  obtain ⟨rest, rfl⟩ := List.isPrefixOf_iff_prefix.mp h
  simp only [List.append_assoc, List.drop_left]
  refine (ends_rest .other rest).of_dangling ?_
  clear h
  induction p with
  | nil => rfl
  | cons c p ih =>
      rw [List.mem_cons, not_or] at hp
      rw [ih hp.2, List.cons_append, dangling_cons (Ne.symm hp.1)]

theorem token_slash {cs : List Char} (h : ∀ rest, cs = '*' :: rest → False) :
    token '/' cs = (.other, cs) := by
  have hspace : isSpace '/' = false := by decide
  have hnumber : atNumber ('/' :: cs) = false := rfl
  simp only [token, hspace, hnumber]
  simp

theorem ends_token {c : Char} {cs : List Char} (hquote : (c == '"' || c == '\'') = false)
    (hcomment : ∀ rest, c = '/' → cs = '*' :: rest → False) (haddress : address? (c :: cs) = none) :
    Ends (c :: cs) (token c cs) fun more => token c (cs ++ ';' :: more) := by
  have hnumber (more : List Char) : atNumber (c :: (cs ++ ';' :: more)) = atNumber (c :: cs) :=
    atNumber_append (c :: cs) more
  have hname (more : List Char) : atName (c :: (cs ++ ';' :: more)) = atName (c :: cs) :=
    atName_append (c :: cs) more
  have behind {d : Char} (h : (c == d) = true) {r : Token × List Char}
      {s : List Char → Token × List Char} (hends : Ends cs r s) (hd : d ≠ '\\' := by decide) :
      Ends (c :: cs) r s := by
    rw [beq_iff_eq] at h
    exact hends.cons (h ▸ hd)
  have alone {d : Char} (t : Token) (h : (c == d) = true) (hd : d ≠ '\\' := by decide) :
      Ends (c :: cs) (t, cs) fun more => (t, cs ++ ';' :: more) :=
    behind h (ends_rest t cs) hd
  by_cases hslash : c = '/'
  · subst hslash
    have hstar (rest : List Char) : cs = '*' :: rest → False := hcomment rest rfl
    have happend (more : List Char) :
        token '/' (cs ++ ';' :: more) = (.other, cs ++ ';' :: more) :=
      token_slash (not_ahead_append (by decide) hstar)
    simp only [token_slash hstar, happend]
    exact (ends_rest .other cs).cons (by decide)
  simp only [token, atNumber_append, atName_append, hnumber, hname,
    isPrefixOf_append (p := ['-', '>']) (by decide),
    isPrefixOf_append (p := ['!', '-', '-']) (by decide)]
  refine .ite (fun hspace => ?space) fun _ => .ite (fun h => ?quote) fun _ =>
    .ite (fun h => behind h ?hash) fun _ =>
    .ite (alone (.opening .round)) fun _ => .ite (alone (.opening .square)) fun _ =>
    .ite (alone (.opening .curly)) fun _ => .ite (alone (.closing .round)) fun _ =>
    .ite (alone (.closing .square)) fun _ => .ite (alone (.closing .curly)) fun _ =>
    .ite (alone .semicolon) fun _ => .ite (alone .exclamation) fun _ =>
    .ite (fun h => behind h ?plus) fun _ => .ite (fun h => ?minus) fun _ =>
    .ite (fun _ => ends_number (c :: cs)) fun _ => .ite (fun h => behind h ?slash) fun _ =>
    .ite (fun h => behind h ?less) fun _ => .ite (fun h => behind h ?hand) fun _ =>
    .ite (fun _ => ends_nameLike haddress) fun h => ?other
  case space =>
    exact (ends_plain .other plain_spaces cs).cons (ne_backslash (by decide) hspace)
  case quote => exact absurd h (by rw [hquote]; exact Bool.false_ne_true)
  case hash =>
    cases cs with
    | nil => exact ends_rest .other []
    | cons d ds => exact .ite (fun _ => ends_name (d :: ds)) fun _ => ends_rest .other (d :: ds)
  case plus => exact .ite (fun _ => ends_number cs) fun _ => ends_rest .other cs
  case minus =>
    refine .ite (fun _ => behind h (ends_number cs)) fun _ =>
      .ite (fun hprefix => behind h (ends_drop hprefix (by decide))) fun _ =>
      .ite (fun _ => ends_nameLike haddress) fun _ => behind h (ends_rest .other cs)
  case slash => exact absurd (beq_iff_eq.mp h) hslash
  case less =>
    exact .ite (fun hprefix => ends_drop hprefix (by decide)) fun _ => ends_rest .other cs
  case hand => exact .ite (fun _ => ends_name cs) fun _ => ends_rest .other cs
  case other =>
    -- Here the character may be a backslash, but then a newline stands behind it.
    by_cases hc : c = '\\'
    · subst hc
      cases cs with
      | nil => exact absurd rfl h
      | cons d ds =>
          exact ⟨fun _ _ => rfl, fun hrest => absurd hrest (List.cons_ne_nil d ds)⟩
    · exact (ends_rest .other cs).cons hc

theorem toLower_eq_u {c : Char} (h : c.toLower = 'u') : c = 'u' ∨ c = 'U' := by
  unfold Char.toLower at h
  split at h
  · have hval : c.val + ('a'.val - 'A'.val) = 'U'.val + ('a'.val - 'A'.val) :=
      congrArg Char.val h
    exact Or.inr (Char.ext ((UInt32.add_left_inj _).mp hval))
  · exact Or.inl h

theorem address?_start {c : Char} {cs rest : List Char} (h : address? (c :: cs) = some rest) :
    c = 'u' ∨ c = 'U' ∨ c = '\\' ∧ atNewline cs = false := by
  have hurl := (address?_eq_some_iff.mp h).2
  by_cases hc : c = '\\'
  · subst hc
    refine Or.inr (Or.inr ⟨rfl, ?_⟩)
    by_contra hnewline
    rw [name, if_pos (by simpa using hnewline)] at hurl
    exact absurd hurl (List.cons_ne_nil _ _).symm
  · rw [name] at hurl
    · split at hurl
      · obtain rfl | rfl := toLower_eq_u (List.cons.inj hurl).1
        · exact Or.inl rfl
        · exact Or.inr (Or.inl rfl)
      · exact absurd hurl (List.cons_ne_nil _ _).symm
    · exact hc

theorem token_address {c : Char} {cs rest : List Char} (h : address? (c :: cs) = some rest) :
    token c cs = url rest := by
  rw [← nameLike_address h]
  obtain rfl | rfl | ⟨rfl, hnewline⟩ := address?_start h
  · have hspace : isSpace 'u' = false := by decide
    simp [token, hspace, atNumber, atDigit, atName, isNameStart]
  · have hspace : isSpace 'U' = false := by decide
    simp [token, hspace, atNumber, atDigit, atName, isNameStart]
  · have hspace : isSpace '\\' = false := by decide
    simp [token, hspace, atNumber, atDigit, atName, hnewline]

/-- Whether the text leaves its first token open. -/
def tokenOpen (c : Char) (cs : List Char) : Bool :=
  if c == '"' || c == '\'' then stringOpen c cs
  else
    match c, cs with
    | '/', '*' :: rest => commentOpen rest
    | c, cs =>
        match address? (c :: cs) with
        | some rest => urlOpen rest
        | none => (token c cs).2.isEmpty && dangling (c :: cs)

theorem token_quote {c : Char} (h : (c == '"' || c == '\'') = true) (cs : List Char) :
    token c cs = string c cs := by
  have hspace : isSpace c = false := by
    obtain rfl | rfl : c = '"' ∨ c = '\'' := by simpa using h
    · decide
    · decide
  rw [token.eq_def, hspace, if_neg Bool.false_ne_true, if_pos h]

theorem token_comment (rest : List Char) : token '/' ('*' :: rest) = (.other, comment rest) := by
  have hspace : isSpace '/' = false := by decide
  have hnumber : atNumber ('/' :: '*' :: rest) = false := rfl
  simp [token, hspace, hnumber]

theorem token_append {c : Char} {cs : List Char} (h : tokenOpen c cs = false)
    (more : List Char) :
    token c (cs ++ ';' :: more) = ((token c cs).1, (token c cs).2 ++ ';' :: more) := by
  unfold tokenOpen at h
  split at h
  · next hquote =>
      rw [token_quote hquote, token_quote hquote]
      exact string_append h more
  · next hquote =>
      split at h
      · next rest =>
          rw [List.cons_append, token_comment, token_comment, comment_append h]
      · next hcomment =>
          split at h
          · next rest haddress =>
              have happend : token c (cs ++ ';' :: more) = url (rest ++ ';' :: more) :=
                token_address (address?_append haddress more)
              rw [token_address haddress, happend]
              exact url_append h more
          · next haddress =>
              have hends := ends_token (by simpa using hquote) hcomment haddress
              refine hends.closed (fun hrest => ?_) more
              simpa [hrest] using h

theorem token_open {c : Char} {cs : List Char} (h : tokenOpen c cs = true)
    (hend : EndsTight (c :: cs)) :
    (token c cs).2 = [] ∧ token c (cs ++ [';']) = ((token c cs).1, []) := by
  unfold tokenOpen at h
  split at h
  · next hquote =>
      have hne : c ≠ ';' := by
        rintro rfl
        exact absurd hquote (by decide)
      obtain ⟨hstring, happend⟩ := string_open hne h
      rw [token_quote hquote, token_quote hquote, hstring, happend]
      exact ⟨rfl, rfl⟩
  · next hquote =>
      split at h
      · next rest =>
          obtain ⟨hcomment, happend⟩ := comment_open h
          rw [List.cons_append, token_comment, token_comment, hcomment, happend]
          exact ⟨rfl, rfl⟩
      · next hcomment =>
          split at h
          · next rest haddress =>
              have happend : token c (cs ++ [';']) = url (rest ++ [';']) :=
                token_address (address?_append haddress [])
              have hsuffix : rest <:+ c :: cs :=
                (List.suffix_cons '(' rest).trans
                  ((address?_eq_some_iff.mp haddress).1 ▸ name_suffix (c :: cs))
              rw [token_address haddress, happend]
              exact url_open (hend.of_suffix hsuffix) h
          · next haddress =>
              have hends := ends_token (by simpa using hquote) hcomment haddress
              obtain ⟨hrest, hdangling⟩ := Bool.and_eq_true_iff.mp h
              rw [List.isEmpty_iff] at hrest
              exact ⟨hrest, hends.opened hrest hdangling⟩

theorem isNameChar_of_atName {c : Char} {cs : List Char} (h : atName (c :: cs) = true)
    (hc : c ≠ '\\') : isNameChar c = true := by
  unfold atName at h
  split at h
  · next heq =>
      injection heq with heq _
      subst heq
      decide
  · next heq => exact absurd (List.cons.inj heq).1 hc
  · next heq =>
      rw [← (List.cons.inj heq).1] at h
      rw [isNameChar, h, Bool.true_or, Bool.true_or]
  · next heq => exact absurd heq (List.cons_ne_nil c cs)

theorem name_suffix_tail {c : Char} {cs : List Char} (h : atName (c :: cs) = true) :
    (name (c :: cs)).2 <:+ cs := by
  by_cases hc : c = '\\'
  · subst hc
    have hnewline : ¬atNewline cs = true := by simpa [atName] using h
    rw [name, if_neg hnewline]
    exact (name_suffix _).trans (escaped_suffix cs)
  · rw [name, if_pos (isNameChar_of_atName h hc)]
    · exact name_suffix cs
    · exact hc

theorem nameLike_suffix {c : Char} {cs : List Char} (h : atName (c :: cs) = true) :
    (nameLike (c :: cs)).2 <:+ cs := by
  have hname := name_suffix_tail h
  rw [nameLike_eq]
  split
  · next rest heq =>
      have hrest : rest <:+ cs := (List.suffix_cons '(' rest).trans (heq ▸ hname)
      split
      · exact (url_suffix rest).trans hrest
      · exact hrest
  · exact hname

theorem numberUnit_suffix (cs : List Char) : (numberUnit cs).2 <:+ cs := by
  fun_cases numberUnit cs with
  | case1 cs => exact List.suffix_cons _ _
  | case2 cs hpercent hname => exact name_suffix cs
  | case3 cs hpercent hname => exact List.suffix_rfl

theorem number_suffix (cs : List Char) : (number cs).2 <:+ cs :=
  (numberUnit_suffix (numberTail cs)).trans (plain_numberTail.suffix cs)

theorem number_suffix_tail {c : Char} {cs : List Char} (h : atNumber (c :: cs) = true) :
    (number (c :: cs)).2 <:+ cs := by
  refine (numberUnit_suffix (numberTail (c :: cs))).trans ?_
  by_cases hc : c.isDigit
  · have htail : numberTail (c :: cs) = numberTail cs := by
      rw [numberTail_eq, numberTail_eq, List.dropWhile_cons, if_pos hc]
    exact htail ▸ plain_numberTail.suffix cs
  · unfold atNumber at h
    split at h
    · next heq =>
        injection heq with hpoint htail
        subst hpoint htail
        rw [numberTail_eq, List.dropWhile_cons, if_neg hc, dropFraction, if_pos h]
        exact (plain_dropExponent.suffix _).trans (List.dropWhile_suffix _)
    · exact absurd h hc

theorem token_suffix (c : Char) (cs : List Char) : (token c cs).2 <:+ cs := by
  have ite {p : Prop} [Decidable p] {r₁ r₂ : Token × List Char} (h₁ : p → r₁.2 <:+ cs)
      (h₂ : ¬p → r₂.2 <:+ cs) : (if p then r₁ else r₂).2 <:+ cs :=
    iteInduction (motive := fun r : Token × List Char => r.2 <:+ cs) h₁ h₂
  have rest {p : Prop} (_ : p) : cs <:+ cs := List.suffix_rfl
  unfold token
  refine ite (fun _ => List.dropWhile_suffix _) fun _ => ite (fun _ => string_suffix c cs) fun _ =>
    ite (fun _ => ?hash) fun _ =>
    ite rest fun _ => ite rest fun _ => ite rest fun _ => ite rest fun _ =>
    ite rest fun _ => ite rest fun _ => ite rest fun _ => ite rest fun _ =>
    ite (fun _ => ite (fun _ => number_suffix cs) rest) fun _ => ite (fun _ => ?minus) fun _ =>
    ite number_suffix_tail fun _ => ite (fun _ => ?slash) fun _ =>
    ite (fun _ => ite (fun _ => List.drop_suffix 3 cs) rest) fun _ =>
    ite (fun _ => ite (fun _ => name_suffix cs) rest) fun _ => ite nameLike_suffix rest
  case hash =>
    cases cs with
    | nil => exact List.suffix_rfl
    | cons d ds => exact ite (fun _ => name_suffix (d :: ds)) rest
  case minus =>
    exact ite (fun _ => number_suffix cs) fun _ =>
      ite (fun _ => List.drop_suffix 2 cs) fun _ => ite nameLike_suffix rest
  case slash =>
    split
    · exact (comment_suffix _).trans (List.suffix_cons _ _)
    · exact List.suffix_rfl

end Scan

theorem tokens_cons (c : Char) (cs : List Char) :
    tokens (c :: cs) = (Scan.token c cs).1 :: tokens (Scan.token c cs).2 := by
  rw [tokens]
  exact dif_pos (Nat.lt_succ_of_le (Scan.token_suffix c cs).length_le)

open Scan in
/-- Whether the text leaves its last token open. -/
def textOpen : List Char → Bool
  | [] => false
  | c :: cs =>
      have := (token_suffix c cs).length_le
      tokenOpen c cs || textOpen (token c cs).2
termination_by cs => cs.length
decreasing_by exact Nat.lt_succ_of_le this

theorem tokens_append {cs : List Char} (h : textOpen cs = false) (more : List Char) :
    tokens (cs ++ ';' :: more) = tokens cs ++ .semicolon :: tokens more := by
  fun_induction textOpen cs with
  | case1 =>
      have hsemicolon : Scan.token ';' more = (.semicolon, more) := by
        have hspace : Scan.isSpace ';' = false := by decide
        simp [Scan.token, hspace]
      rw [List.nil_append, tokens_cons, hsemicolon, tokens, List.nil_append]
  | case2 c cs hle ih =>
      obtain ⟨hclosed, hrest⟩ := Bool.or_eq_false_iff.mp h
      rw [List.cons_append, tokens_cons, Scan.token_append hclosed, ih hrest, tokens_cons,
        List.cons_append]

theorem tokens_open {cs : List Char} (h : textOpen cs = true) (hend : Scan.EndsTight cs) :
    tokens (cs ++ [';']) = tokens cs := by
  fun_induction textOpen cs with
  | case1 => exact absurd h Bool.false_ne_true
  | case2 c cs hle ih =>
      have htail : Scan.EndsTight (Scan.token c cs).2 :=
        hend.of_suffix ((Scan.token_suffix c cs).trans (List.suffix_cons c cs))
      rw [List.cons_append, tokens_cons, tokens_cons]
      by_cases hopen : Scan.tokenOpen c cs
      · obtain ⟨hrest, happend⟩ := Scan.token_open hopen hend
        rw [happend, hrest]
      · rw [Scan.token_append (by simpa using hopen), ih (by simpa [hopen] using h) htail]

end AtomicStyles.Css
