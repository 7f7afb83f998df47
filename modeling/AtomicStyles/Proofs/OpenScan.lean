import AtomicStyles.Proofs.ScannedText

/-!
# Strings, comments and addresses without an end

Three kinds of tokens take up whatever follows until their end comes: strings,
comments, and addresses, well-formed or not. A text may run out before that. Each
reader has its own recursion, so for each there is a function that follows it and
says whether the end of the text came first, and two laws. If the text was not left
open, a semicolon behind it changes nothing of what is read. If it was, a single
semicolon is read as part of the same token.

For an address the second law asks for a text without a space at its end. Behind
spaces only a parenthesis may stand, so a semicolon there makes another token of the
address, a malformed one.
-/

namespace AtomicStyles.Css

namespace Scan

/-! ## Strings -/

/-- Whether a string is still open at the end of the text. -/
def stringOpen (quote : Char) : List Char → Bool
  | [] => true
  | '\\' :: cs =>
      if atNewline cs then
        have := length_dropNewline_le cs
        stringOpen quote (dropNewline cs)
      else
        have := length_escaped_le cs
        stringOpen quote (escaped cs).2
  | c :: cs => c ≠ quote && !isNewline c && stringOpen quote cs
termination_by cs => cs.length
decreasing_by all_goals simp only [List.length_cons]; omega

theorem string_append {quote : Char} {cs : List Char} (h : stringOpen quote cs = false)
    (more : List Char) :
    string quote (cs ++ ';' :: more) =
      ((string quote cs).1, (string quote cs).2 ++ ';' :: more) := by
  fun_induction string quote cs with
  | case1 => exact absurd h (by simp [stringOpen])
  | case2 cs hnewline hle ih =>
      rw [stringOpen, if_pos hnewline] at h
      rw [List.cons_append, string, atNewline_append, if_pos hnewline, plain_dropNewline.append]
      exact ih h
  | case3 cs hnewline hle ih =>
      rw [stringOpen, if_neg hnewline] at h
      have hne : cs ≠ [] := by
        rintro rfl
        exact absurd h (by simp [escaped, stringOpen])
      rw [List.cons_append, string, atNewline_append, if_neg hnewline, escaped_append hne]
      exact ih h
  | case4 cs hquote =>
      rw [List.cons_append, string, if_pos rfl]
      exact hquote
  | case5 c cs hc hquote hnewline =>
      rw [List.cons_append, string, if_neg hquote, if_pos hnewline]
      exact hc
  | case6 c cs hc hquote hnewline ih =>
      rw [stringOpen] at h
      · rw [List.cons_append, string, if_neg hquote, if_neg hnewline]
        · exact ih (by simpa [hquote, hnewline] using h)
        · exact hc
      · exact hc

theorem string_open {quote : Char} (hquote : quote ≠ ';') {cs : List Char}
    (h : stringOpen quote cs = true) :
    string quote cs = (.other, []) ∧ string quote (cs ++ [';']) = (.other, []) := by
  have hsemicolon : string quote [';'] = (.other, []) := by
    rw [string, if_neg (Ne.symm hquote), if_neg (by decide), string]
    decide
  fun_induction stringOpen quote cs with
  | case1 => exact ⟨by rw [string], hsemicolon⟩
  | case2 cs hnewline hle ih =>
      rw [List.cons_append, string, if_pos hnewline, string, atNewline_append, if_pos hnewline,
        plain_dropNewline.append]
      exact ih h
  | case3 cs hnewline hle ih =>
      rw [List.cons_append, string, if_neg hnewline, string, atNewline_append, if_neg hnewline]
      by_cases hne : cs = []
      · subst hne
        exact ⟨by simp [escaped, string], by simp [escaped, string, isHexDigit]⟩
      · rw [escaped_append hne]
        exact ih h
  | case4 c cs hc ih =>
      obtain ⟨⟨hne, hnewline⟩, hopen⟩ :
          (c ≠ quote ∧ isNewline c = false) ∧ stringOpen quote cs := by
        simpa using h
      rw [List.cons_append, string, if_neg hne, if_neg (by simp [hnewline]), string, if_neg hne,
        if_neg (by simp [hnewline])]
      · exact ih hopen
      · exact hc
      · exact hc

/-! ## Comments -/

/-- Whether a comment is still open at the end of the text. -/
def commentOpen : List Char → Bool
  | '*' :: '/' :: _ => false
  | _ :: cs => commentOpen cs
  | [] => true

theorem comment_append {cs : List Char} (h : commentOpen cs = false) (more : List Char) :
    comment (cs ++ ';' :: more) = comment cs ++ ';' :: more := by
  fun_induction comment cs with
  | case1 cs => rfl
  | case2 c cs hc ih =>
      rw [commentOpen] at h
      · rw [List.cons_append, comment, ih h]
        exact not_pair_append (by decide) hc
      · exact hc
  | case3 => exact absurd h (by decide)

theorem comment_open {cs : List Char} (h : commentOpen cs = true) :
    comment cs = [] ∧ comment (cs ++ [';']) = [] := by
  fun_induction commentOpen cs with
  | case1 cs => exact absurd h Bool.false_ne_true
  | case2 c cs hc ih =>
      rw [List.cons_append, comment, comment]
      · exact ih h
      · exact not_pair_append (by decide) hc
      · exact hc
  | case3 => exact ⟨rfl, rfl⟩

/-! ## Addresses -/

/-- Whether a malformed address is still open at the end of the text. -/
def badUrlOpen : List Char → Bool
  | [] => true
  | ')' :: _ => false
  | '\\' :: ')' :: cs => badUrlOpen cs
  | '\\' :: '\\' :: cs => badUrlOpen cs
  | _ :: cs => badUrlOpen cs

/-- Whether an address, read up to the space behind it, is still open at the end of
the text. -/
def urlEndOpen : List Char → Bool
  | [] => true
  | c :: cs =>
      if c = ')' then false
      else if isSpace c then urlEndOpen cs
      else badUrlOpen cs

/-- Whether an unquoted address is still open at the end of the text. -/
def unquotedUrlOpen : List Char → Bool
  | [] => true
  | '\\' :: cs =>
      if atNewline cs then badUrlOpen cs
      else
        have := length_escaped_le cs
        unquotedUrlOpen (escaped cs).2
  | c :: cs =>
      if c = ')' then false
      else if isSpace c then urlEndOpen (c :: cs)
      else if isNonPrintable c || c == '"' || c == '\'' || c == '(' then badUrlOpen cs
      else unquotedUrlOpen cs
termination_by cs => cs.length
decreasing_by all_goals simp only [List.length_cons]; omega

/-- Whether the address after `url(` is still open at the end of the text. -/
def urlOpen (cs : List Char) : Bool :=
  match cs.dropWhile isSpace with
  | '"' :: _ => false
  | '\'' :: _ => false
  | rest => unquotedUrlOpen rest

theorem restOfBadUrl_append {cs : List Char} (h : badUrlOpen cs = false) (more : List Char) :
    restOfBadUrl (cs ++ ';' :: more) = restOfBadUrl cs ++ ';' :: more := by
  fun_induction badUrlOpen cs with
  | case1 => exact absurd h (by decide)
  | case2 cs => rfl
  | case3 cs ih => exact ih h
  | case4 cs ih => exact ih h
  | case5 c cs h1 h2 h3 ih =>
      rw [List.cons_append, restOfBadUrl, restOfBadUrl, ih h]
      · exact h1
      · exact h2
      · exact h3
      · exact h1
      · exact not_pair_append (by decide) h2
      · exact not_pair_append (by decide) h3

theorem restOfBadUrl_open {cs : List Char} (h : badUrlOpen cs = true) :
    restOfBadUrl cs = [] ∧ restOfBadUrl (cs ++ [';']) = [] := by
  fun_induction badUrlOpen cs with
  | case1 => exact ⟨rfl, rfl⟩
  | case2 cs => exact absurd h Bool.false_ne_true
  | case3 cs ih => exact ih h
  | case4 cs ih => exact ih h
  | case5 c cs h1 h2 h3 ih =>
      rw [List.cons_append, restOfBadUrl, restOfBadUrl]
      · exact ih h
      · exact h1
      · exact not_pair_append (by decide) h2
      · exact not_pair_append (by decide) h3
      · exact h1
      · exact h2
      · exact h3

/-- The text does not end in a space. -/
def EndsTight (cs : List Char) : Prop := ∀ c, [c] <:+ cs → isSpace c = false

theorem EndsTight.of_suffix {cs ds : List Char} (h : EndsTight cs) (hsuffix : ds <:+ cs) :
    EndsTight ds := fun c hc => h c (hc.trans hsuffix)

theorem urlEnd_append {cs : List Char} (h : urlEndOpen cs = false) (more : List Char) :
    urlEnd (cs ++ ';' :: more) = ((urlEnd cs).1, (urlEnd cs).2 ++ ';' :: more) := by
  fun_induction urlEndOpen cs with
  | case1 => exact absurd h (by decide)
  | case2 cs => rfl
  | case3 c cs hparen hspace ih =>
      rw [List.cons_append, urlEnd, if_neg hparen, if_pos hspace, urlEnd, if_neg hparen,
        if_pos hspace]
      exact ih h
  | case4 c cs hparen hspace =>
      rw [List.cons_append, urlEnd, if_neg hparen, if_neg hspace, urlEnd, if_neg hparen,
        if_neg hspace, restOfBadUrl_append h]

theorem urlEnd_open {cs : List Char} (hne : cs ≠ []) (hend : EndsTight cs)
    (h : urlEndOpen cs = true) :
    (urlEnd cs).2 = [] ∧ urlEnd (cs ++ [';']) = ((urlEnd cs).1, []) := by
  fun_induction urlEndOpen cs with
  | case1 => exact absurd rfl hne
  | case2 cs => exact absurd h Bool.false_ne_true
  | case3 c cs hparen hspace ih =>
      have hmore : cs ≠ [] := by
        rintro rfl
        exact absurd hspace (by simp [hend c List.suffix_rfl])
      rw [List.cons_append, urlEnd, if_neg hparen, if_pos hspace, urlEnd, if_neg hparen,
        if_pos hspace]
      exact ih hmore (hend.of_suffix (List.suffix_cons c cs)) h
  | case4 c cs hparen hspace =>
      rw [List.cons_append, urlEnd, if_neg hparen, if_neg hspace, urlEnd, if_neg hparen,
        if_neg hspace, (restOfBadUrl_open h).1, (restOfBadUrl_open h).2]
      exact ⟨rfl, rfl⟩

theorem unquotedUrl_append {cs : List Char} (h : unquotedUrlOpen cs = false)
    (more : List Char) :
    unquotedUrl (cs ++ ';' :: more) =
      ((unquotedUrl cs).1, (unquotedUrl cs).2 ++ ';' :: more) := by
  fun_induction unquotedUrlOpen cs with
  | case1 => exact absurd h (by decide)
  | case2 cs hnewline =>
      rw [List.cons_append, unquotedUrl, atNewline_append, if_pos hnewline, unquotedUrl,
        if_pos hnewline, restOfBadUrl_append h]
  | case3 cs hnewline hle ih =>
      have hne : cs ≠ [] := by
        rintro rfl
        exact absurd h (by simp [escaped, unquotedUrlOpen])
      rw [List.cons_append, unquotedUrl, atNewline_append, if_neg hnewline, unquotedUrl,
        if_neg hnewline, escaped_append hne]
      exact ih h
  | case4 cs =>
      rw [List.cons_append, unquotedUrl, if_pos rfl, unquotedUrl, if_pos rfl]
      · decide
      · decide
  | case5 c cs hc hparen hspace =>
      rw [List.cons_append, unquotedUrl, if_neg hparen, if_pos hspace, unquotedUrl,
        if_neg hparen, if_pos hspace]
      · exact urlEnd_append h more
      · exact hc
      · exact hc
  | case6 c cs hc hparen hspace hbad =>
      rw [List.cons_append, unquotedUrl, if_neg hparen, if_neg hspace, if_pos hbad,
        unquotedUrl, if_neg hparen, if_neg hspace, if_pos hbad, restOfBadUrl_append h]
      · exact hc
      · exact hc
  | case7 c cs hc hparen hspace hbad ih =>
      rw [List.cons_append, unquotedUrl, if_neg hparen, if_neg hspace, if_neg hbad,
        unquotedUrl, if_neg hparen, if_neg hspace, if_neg hbad]
      · exact ih h
      · exact hc
      · exact hc

theorem unquotedUrl_open {cs : List Char} (hend : EndsTight cs)
    (h : unquotedUrlOpen cs = true) :
    (unquotedUrl cs).2 = [] ∧ unquotedUrl (cs ++ [';']) = ((unquotedUrl cs).1, []) := by
  have hsemicolon : unquotedUrl [';'] = (.other, []) := by
    rw [unquotedUrl, if_neg (by decide), if_neg (by decide), if_neg (by decide), unquotedUrl]
    decide
  fun_induction unquotedUrlOpen cs with
  | case1 => exact ⟨by rw [unquotedUrl], by rw [unquotedUrl]; exact hsemicolon⟩
  | case2 cs hnewline =>
      rw [List.cons_append, unquotedUrl, if_pos hnewline, unquotedUrl, atNewline_append,
        if_pos hnewline, (restOfBadUrl_open h).1, (restOfBadUrl_open h).2]
      exact ⟨rfl, rfl⟩
  | case3 cs hnewline hle ih =>
      rw [List.cons_append, unquotedUrl, if_neg hnewline, unquotedUrl, atNewline_append,
        if_neg hnewline]
      by_cases hne : cs = []
      · subst hne
        exact ⟨by simp [escaped, unquotedUrl], by simp [escaped, unquotedUrl, isHexDigit]⟩
      · rw [escaped_append hne]
        exact ih (hend.of_suffix ((escaped_suffix cs).trans (List.suffix_cons _ _))) h
  | case4 cs => exact absurd h Bool.false_ne_true
  | case5 c cs hc hparen hspace =>
      rw [List.cons_append, unquotedUrl, if_neg hparen, if_pos hspace, unquotedUrl,
        if_neg hparen, if_pos hspace]
      · exact urlEnd_open (List.cons_ne_nil c cs) hend h
      · exact hc
      · exact hc
  | case6 c cs hc hparen hspace hbad =>
      rw [List.cons_append, unquotedUrl, if_neg hparen, if_neg hspace, if_pos hbad,
        unquotedUrl, if_neg hparen, if_neg hspace, if_pos hbad, (restOfBadUrl_open h).1,
        (restOfBadUrl_open h).2]
      · exact ⟨rfl, rfl⟩
      · exact hc
      · exact hc
  | case7 c cs hc hparen hspace hbad ih =>
      rw [List.cons_append, unquotedUrl, if_neg hparen, if_neg hspace, if_neg hbad,
        unquotedUrl, if_neg hparen, if_neg hspace, if_neg hbad]
      · exact ih (hend.of_suffix (List.suffix_cons c cs)) h
      · exact hc
      · exact hc

theorem url_unquoted {cs : List Char} (h1 : ∀ ds, cs.dropWhile isSpace = '"' :: ds → False)
    (h2 : ∀ ds, cs.dropWhile isSpace = '\'' :: ds → False) :
    url cs = unquotedUrl (cs.dropWhile isSpace) := by
  unfold url
  split
  · next heq => exact (h1 _ heq).elim
  · next heq => exact (h2 _ heq).elim
  · rfl

theorem url_unquoted_append {cs : List Char}
    (h1 : ∀ ds, cs.dropWhile isSpace = '"' :: ds → False)
    (h2 : ∀ ds, cs.dropWhile isSpace = '\'' :: ds → False) (more : List Char) :
    url (cs ++ ';' :: more) = unquotedUrl (cs.dropWhile isSpace ++ ';' :: more) := by
  have hspaces := plain_spaces.append cs more
  rw [← hspaces]
  apply url_unquoted
  · rw [hspaces]
    exact not_ahead_append (by decide) h1
  · rw [hspaces]
    exact not_ahead_append (by decide) h2

theorem url_append {cs : List Char} (h : urlOpen cs = false) (more : List Char) :
    url (cs ++ ';' :: more) = ((url cs).1, (url cs).2 ++ ';' :: more) := by
  unfold urlOpen at h
  split at h
  · next heq => simp only [url, plain_spaces.append, heq, List.cons_append]
  · next heq => simp only [url, plain_spaces.append, heq, List.cons_append]
  · next h1 h2 =>
      rw [url_unquoted h1 h2, url_unquoted_append h1 h2]
      exact unquotedUrl_append h more

theorem url_open {cs : List Char} (hend : EndsTight cs) (h : urlOpen cs = true) :
    (url cs).2 = [] ∧ url (cs ++ [';']) = ((url cs).1, []) := by
  unfold urlOpen at h
  split at h
  · exact absurd h Bool.false_ne_true
  · exact absurd h Bool.false_ne_true
  · next h1 h2 =>
      rw [url_unquoted h1 h2, url_unquoted_append h1 h2]
      exact unquotedUrl_open (hend.of_suffix (List.dropWhile_suffix _)) h

end Scan

end AtomicStyles.Css
