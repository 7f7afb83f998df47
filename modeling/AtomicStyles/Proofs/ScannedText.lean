import Mathlib.Data.List.Basic
import AtomicStyles.Css.Value

/-!
# A semicolon behind scanned text

A value is checked by itself and printed with a semicolon behind it. What the check
saw is what the browser sees only if the semicolon does not change how the text in
front of it is read.

Tokens are read by small steps, and this module goes through the steps that never run
on: dropping digits and spaces, reading an escape or a name. All of them answer with
an end of their input, and stop in front of the semicolon where they stopped at the
end of the text. The exception is a text that ends in a backslash, which is why that
is followed through every step.
-/

namespace AtomicStyles.Css

namespace Scan

/-! ## What is left is an end of the text -/

theorem dropNewline_suffix (cs : List Char) : dropNewline cs <:+ cs := by
  unfold dropNewline
  split
  · exact ⟨['\r', '\n'], rfl⟩
  · split
    · exact List.suffix_cons _ _
    · exact List.suffix_rfl
  · exact List.suffix_rfl

theorem dropSpace_suffix (cs : List Char) : dropSpace cs <:+ cs := by
  unfold dropSpace
  split
  · exact List.suffix_cons _ _
  · exact List.suffix_cons _ _
  · exact dropNewline_suffix cs

theorem escaped_suffix (cs : List Char) : (escaped cs).2 <:+ cs := by
  unfold escaped
  split
  · exact List.suffix_rfl
  · next c cs =>
      dsimp only
      split
      · exact List.suffix_cons c cs
      · exact (dropSpace_suffix _).trans ((List.drop_suffix _ _).trans (List.suffix_cons c cs))

theorem name_suffix (cs : List Char) : (name cs).2 <:+ cs := by
  fun_induction name cs with
  | case1 => exact List.suffix_rfl
  | case2 cs h => exact List.suffix_rfl
  | case3 cs h hle more ih => exact ih.trans ((escaped_suffix cs).trans (List.suffix_cons _ _))
  | case4 c cs hc h more ih => exact ih.trans (List.suffix_cons _ _)
  | case5 c cs hc h => exact List.suffix_rfl

theorem string_suffix (quote : Char) (cs : List Char) : (string quote cs).2 <:+ cs := by
  fun_induction string quote cs with
  | case1 => exact List.suffix_rfl
  | case2 cs h hle ih => exact ih.trans ((dropNewline_suffix cs).trans (List.suffix_cons _ _))
  | case3 cs h hle ih => exact ih.trans ((escaped_suffix cs).trans (List.suffix_cons _ _))
  | case4 cs h => exact List.suffix_cons _ _
  | case5 c cs hc h1 h2 => exact List.suffix_rfl
  | case6 c cs hc h1 h2 ih => exact ih.trans (List.suffix_cons _ _)

theorem comment_suffix (cs : List Char) : comment cs <:+ cs := by
  fun_induction comment cs with
  | case1 cs => exact ⟨['*', '/'], rfl⟩
  | case2 c cs h ih => exact ih.trans (List.suffix_cons _ _)
  | case3 => exact List.suffix_rfl

theorem restOfBadUrl_suffix (cs : List Char) : restOfBadUrl cs <:+ cs := by
  fun_induction restOfBadUrl cs with
  | case1 => exact List.suffix_rfl
  | case2 cs => exact List.suffix_cons _ _
  | case3 cs ih => exact ih.trans ⟨['\\', ')'], rfl⟩
  | case4 cs ih => exact ih.trans ⟨['\\', '\\'], rfl⟩
  | case5 c cs h1 h2 h3 ih => exact ih.trans (List.suffix_cons _ _)

theorem urlEnd_suffix (cs : List Char) : (urlEnd cs).2 <:+ cs := by
  fun_induction urlEnd cs with
  | case1 => exact List.suffix_rfl
  | case2 cs => exact List.suffix_cons _ _
  | case3 c cs h1 h2 ih => exact ih.trans (List.suffix_cons _ _)
  | case4 c cs h1 h2 => exact (restOfBadUrl_suffix cs).trans (List.suffix_cons _ _)

theorem unquotedUrl_suffix (cs : List Char) : (unquotedUrl cs).2 <:+ cs := by
  fun_induction unquotedUrl cs with
  | case1 => exact List.suffix_rfl
  | case2 cs h => exact (restOfBadUrl_suffix cs).trans (List.suffix_cons _ _)
  | case3 cs h hle ih => exact ih.trans ((escaped_suffix cs).trans (List.suffix_cons _ _))
  | case4 cs h => exact List.suffix_cons _ _
  | case5 c cs hc h1 h2 => exact urlEnd_suffix _
  | case6 c cs hc h1 h2 h3 => exact (restOfBadUrl_suffix cs).trans (List.suffix_cons _ _)
  | case7 c cs hc h1 h2 h3 ih => exact ih.trans (List.suffix_cons _ _)

theorem url_suffix (cs : List Char) : (url cs).2 <:+ cs := by
  unfold url
  split
  · exact List.suffix_rfl
  · exact List.suffix_rfl
  · exact (unquotedUrl_suffix _).trans (List.dropWhile_suffix _)

/-! ## Steps that drop plain characters -/

/-- Whether the text ends in a backslash that still waits for the character it
escapes. -/
def dangling : List Char → Bool
  | [] => false
  | ['\\'] => true
  | '\\' :: _ :: cs => dangling cs
  | _ :: cs => dangling cs

theorem dangling_cons {c : Char} (h : c ≠ '\\') (cs : List Char) :
    dangling (c :: cs) = dangling cs := by
  rw [dangling.eq_def]
  split <;> simp_all

theorem ne_backslash {p : Char → Bool} (hp : p '\\' = false) {c : Char} (h : p c = true) :
    c ≠ '\\' := by
  rintro rfl
  exact Bool.false_ne_true (hp.symm.trans h)

/-- A step that drops some characters, none of them a backslash, and stops where it
stopped when a semicolon stands behind the text. -/
structure Plain (f : List Char → List Char) : Prop where
  suffix : ∀ cs, f cs <:+ cs
  dangling : ∀ cs, dangling (f cs) = dangling cs
  append : ∀ cs more, f (cs ++ ';' :: more) = f cs ++ ';' :: more

theorem Plain.comp {f g : List Char → List Char} (hf : Plain f) (hg : Plain g) :
    Plain fun cs => f (g cs) where
  suffix cs := (hf.suffix _).trans (hg.suffix cs)
  dangling cs := (hf.dangling _).trans (hg.dangling cs)
  append cs more := by rw [hg.append, hf.append]

theorem plain_dropWhile {p : Char → Bool} (hsemicolon : p ';' = false)
    (hbackslash : p '\\' = false) : Plain (List.dropWhile p) where
  suffix _ := List.dropWhile_suffix _
  dangling cs := by
    induction cs with
    | nil => rfl
    | cons c cs ih =>
        rw [List.dropWhile_cons]
        split
        · next hc => rw [ih, dangling_cons (ne_backslash hbackslash hc)]
        · rfl
  append cs more := by
    induction cs with
    | nil =>
        rw [List.nil_append, List.dropWhile_cons, if_neg (by simp [hsemicolon])]
        rfl
    | cons c cs ih =>
        rw [List.cons_append, List.dropWhile_cons, List.dropWhile_cons]
        split
        · exact ih
        · rfl

theorem plain_digits : Plain (List.dropWhile Char.isDigit) :=
  plain_dropWhile (by decide) (by decide)

theorem plain_spaces : Plain (List.dropWhile isSpace) :=
  plain_dropWhile (by decide) (by decide)

theorem atNewline_append (cs more : List Char) :
    atNewline (cs ++ ';' :: more) = atNewline cs := by
  cases cs <;> rfl

theorem atDigit_append (cs more : List Char) : atDigit (cs ++ ';' :: more) = atDigit cs := by
  cases cs <;> rfl

theorem not_ahead_append {c : Char} (hc : c ≠ ';') {cs more : List Char}
    (h : ∀ ds, cs = c :: ds → False) : ∀ ds, cs ++ ';' :: more = c :: ds → False := by
  intro ds heq
  cases cs with
  | nil => exact hc (List.cons.inj heq).1.symm
  | cons d cs => exact h cs (by rw [(List.cons.inj heq).1])

theorem not_pair_append {P : Prop} {c : Char} (hc : c ≠ ';') {cs more : List Char}
    (h : ∀ ds, P → cs = c :: ds → False) : ∀ ds, P → cs ++ ';' :: more = c :: ds → False :=
  fun ds hp => not_ahead_append hc (fun es => h es hp) ds

theorem plain_dropNewline : Plain dropNewline where
  suffix := dropNewline_suffix
  dangling cs := by
    unfold dropNewline
    split
    · rw [dangling_cons (by decide), dangling_cons (by decide)]
    · next c cs _ =>
        split
        · next hc => rw [dangling_cons (ne_backslash (by decide) hc)]
        · rfl
    · rfl
  append cs more := by
    fun_cases dropNewline cs with
    | case1 cs => rfl
    | case2 c cs h hc =>
        rw [List.cons_append, dropNewline, if_pos hc]
        exact not_pair_append (by decide) h
    | case3 c cs h hc =>
        rw [List.cons_append, dropNewline, if_neg hc]
        exact not_pair_append (by decide) h
    | case4 => rfl

theorem plain_dropSpace : Plain dropSpace where
  suffix := dropSpace_suffix
  dangling cs := by
    unfold dropSpace
    split
    · rw [dangling_cons (by decide)]
    · rw [dangling_cons (by decide)]
    · exact plain_dropNewline.dangling _
  append cs more := by
    fun_cases dropSpace cs with
    | case1 cs => rfl
    | case2 cs => rfl
    | case3 cs h1 h2 =>
        rw [dropSpace, plain_dropNewline.append]
        · exact not_ahead_append (by decide) h1
        · exact not_ahead_append (by decide) h2

/-! ## Numbers -/

/-- Drops a point and digits behind it. -/
def dropFraction (cs : List Char) : List Char :=
  match cs with
  | '.' :: more => if atDigit more then more.dropWhile Char.isDigit else cs
  | _ => cs

/-- Drops an exponent. -/
def dropExponent (cs : List Char) : List Char :=
  match cs with
  | e :: more =>
      if e == 'e' || e == 'E' then
        match more with
        | s :: digits =>
            if s.isDigit then digits.dropWhile Char.isDigit
            else if (s == '+' || s == '-') && atDigit digits then
              digits.dropWhile Char.isDigit
            else cs
        | [] => cs
      else cs
  | [] => cs

theorem numberTail_eq (cs : List Char) :
    numberTail cs = dropExponent (dropFraction (cs.dropWhile Char.isDigit)) := rfl

theorem plain_dropFraction : Plain dropFraction where
  suffix cs := by
    unfold dropFraction
    split
    · split
      · exact (List.dropWhile_suffix _).trans (List.suffix_cons _ _)
      · exact List.suffix_rfl
    · exact List.suffix_rfl
  dangling cs := by
    unfold dropFraction
    split
    · split
      · rw [plain_digits.dangling, dangling_cons (by decide)]
      · rfl
    · rfl
  append cs more := by
    fun_cases dropFraction cs with
    | case1 cs h =>
        rw [List.cons_append, dropFraction, atDigit_append, if_pos h, plain_digits.append]
    | case2 cs h =>
        rw [List.cons_append, dropFraction, atDigit_append, if_neg h]
    | case3 cs h =>
        unfold dropFraction
        split
        · next ds heq =>
            exact absurd heq (not_ahead_append (by decide) h ds)
        · rfl

theorem plain_dropExponent : Plain dropExponent where
  suffix cs := by
    fun_cases dropExponent cs with
    | case1 e he s digits hs => exact (List.dropWhile_suffix _).trans ⟨[e, s], rfl⟩
    | case2 e he s digits hs h => exact (List.dropWhile_suffix _).trans ⟨[e, s], rfl⟩
    | _ => exact List.suffix_rfl
  dangling cs := by
    have letter {e : Char} (he : (e == 'e' || e == 'E') = true) : e ≠ '\\' :=
      ne_backslash (p := fun e => e == 'e' || e == 'E') (by decide) he
    fun_cases dropExponent cs with
    | case1 e he s digits hs =>
        rw [plain_digits.dangling, dangling_cons (letter he),
          dangling_cons (ne_backslash (by decide) hs)]
    | case2 e he s digits hs h =>
        have hsign : (s == '+' || s == '-') = true := (Bool.and_eq_true_iff.mp h).1
        rw [plain_digits.dangling, dangling_cons (letter he),
          dangling_cons (ne_backslash (p := fun s => s == '+' || s == '-') (by decide) hsign)]
    | _ => rfl
  append cs more := by
    fun_cases dropExponent cs with
    | case1 e he s digits hs =>
        simp only [List.cons_append, dropExponent, if_pos he, if_pos hs, plain_digits.append]
    | case2 e he s digits hs h =>
        simp only [List.cons_append, dropExponent, if_pos he, if_neg hs, atDigit_append, if_pos h,
          plain_digits.append]
    | case3 e he s digits hs h =>
        simp only [List.cons_append, dropExponent, if_pos he, if_neg hs, atDigit_append, if_neg h]
    | case4 e he =>
        simp only [List.cons_append, List.nil_append, dropExponent, if_pos he]
        rfl
    | case5 e more he => simp only [List.cons_append, dropExponent, if_neg he]
    | case6 => rfl

theorem plain_numberTail : Plain numberTail :=
  plain_dropExponent.comp (plain_dropFraction.comp plain_digits)

theorem atNumber_append (cs more : List Char) : atNumber (cs ++ ';' :: more) = atNumber cs := by
  fun_cases atNumber cs with
  | case1 cs => exact atDigit_append cs more
  | case2 cs h =>
      rw [atNumber, atDigit_append]
      exact not_ahead_append (by decide) h

theorem atName_append (cs more : List Char) : atName (cs ++ ';' :: more) = atName cs := by
  fun_cases atName cs with
  | case1 c cs => rfl
  | case2 cs => exact congrArg not (atNewline_append cs more)
  | case3 c cs h1 h2 =>
      by_cases hminus : c = '-' ∧ cs = []
      · obtain ⟨rfl, rfl⟩ := hminus
        rfl
      · rw [List.cons_append, atName]
        · intro d ds hc _
          obtain ⟨e, es, hes⟩ := List.exists_cons_of_ne_nil fun hcs => hminus ⟨hc, hcs⟩
          exact h1 e es hc hes
        · exact h2
  | case4 => rfl

/-! ## Escapes -/

theorem digits_append (n : Nat) (cs more : List Char) :
    ((cs ++ ';' :: more).take n).takeWhile isHexDigit = (cs.take n).takeWhile isHexDigit := by
  induction cs generalizing n with
  | nil => cases n <;> rfl
  | cons c cs ih =>
      cases n with
      | zero => rfl
      | succ n =>
          rw [List.cons_append, List.take_succ_cons, List.take_succ_cons, List.takeWhile_cons,
            List.takeWhile_cons, ih]

theorem escaped_append {cs : List Char} (h : cs ≠ []) (more : List Char) :
    escaped (cs ++ ';' :: more) = ((escaped cs).1, (escaped cs).2 ++ ';' :: more) := by
  obtain ⟨c, cs, rfl⟩ := List.exists_cons_of_ne_nil h
  have hdigits := digits_append 6 (c :: cs) more
  rw [List.cons_append] at hdigits ⊢
  simp only [escaped, hdigits]
  split
  · rfl
  · have hlen : ((((c :: cs).take 6).takeWhile isHexDigit).length - 1) ≤ cs.length := by
      have := (List.takeWhile_prefix isHexDigit (l := (c :: cs).take 6)).length_le
      rw [List.length_take, List.length_cons] at this
      omega
    rw [List.drop_append_of_le_length hlen, plain_dropSpace.append]

theorem dangling_drop_digits (n : Nat) (cs : List Char) :
    dangling (cs.drop ((cs.take n).takeWhile isHexDigit).length) = dangling cs := by
  induction cs generalizing n with
  | nil => rw [List.drop_nil]
  | cons c cs ih =>
      cases n with
      | zero => rfl
      | succ n =>
          rw [List.take_succ_cons, List.takeWhile_cons]
          split
          · next hc =>
              rw [List.length_cons, List.drop_succ_cons, ih,
                dangling_cons (ne_backslash (by decide) hc)]
          · rfl

theorem dangling_escaped {cs : List Char} (h : cs ≠ []) :
    dangling (escaped cs).2 = dangling ('\\' :: cs) := by
  obtain ⟨c, cs, rfl⟩ := List.exists_cons_of_ne_nil h
  have hdrop := dangling_drop_digits 6 (c :: cs)
  rw [List.take_succ_cons, List.takeWhile_cons] at hdrop
  simp only [escaped, List.take_succ_cons, List.takeWhile_cons]
  by_cases hc : isHexDigit c
  · rw [if_pos hc] at hdrop ⊢
    rw [List.isEmpty_cons, if_neg Bool.false_ne_true, plain_dropSpace.dangling]
    exact hdrop.trans (dangling_cons (ne_backslash (by decide) hc) cs)
  · rw [if_neg hc]
    rfl

/-! ## Names -/

theorem name_semicolon (more : List Char) : name (';' :: more) = ([], ';' :: more) := by
  rw [name]
  · exact if_neg (by decide)
  · decide

theorem name_append {cs : List Char} (h : (name cs).2 = [] → dangling cs = false)
    (more : List Char) :
    name (cs ++ ';' :: more) = ((name cs).1, (name cs).2 ++ ';' :: more) := by
  fun_induction name cs with
  | case1 => exact name_semicolon more
  | case2 cs hnewline =>
      rw [List.cons_append, name, atNewline_append, if_pos hnewline]
  | case3 cs hnewline hle rest ih =>
      have hne : cs ≠ [] := by
        rintro rfl
        exact absurd (h (by decide +kernel)) (by decide)
      rw [List.cons_append, name, atNewline_append, if_neg hnewline]
      simp only [escaped_append hne, ih fun hrest => (dangling_escaped hne).trans (h hrest)]
      rfl
  | case4 c cs hc hname rest ih =>
      have hmore := ih fun hrest => (dangling_cons hc cs).symm.trans (h hrest)
      rw [List.cons_append, name, if_pos hname, hmore]
      exact hc
  | case5 c cs hc hname =>
      rw [List.cons_append, name, if_neg hname]
      exact hc

theorem name_dangling {cs : List Char} (h : (name cs).2 = []) (hopen : dangling cs = true) :
    (name (cs ++ [';'])).2 = [] := by
  fun_induction name cs with
  | case1 => exact absurd hopen (by decide)
  | case2 cs hnewline => exact absurd h (List.cons_ne_nil _ _)
  | case3 cs hnewline hle rest ih =>
      rw [List.cons_append, name, atNewline_append, if_neg hnewline]
      by_cases hne : cs = []
      · subst hne
        decide +kernel
      · rw [escaped_append hne]
        exact ih h ((dangling_escaped hne).trans hopen)
  | case4 c cs hc hname rest ih =>
      rw [List.cons_append, name, if_pos hname]
      · exact ih h ((dangling_cons hc cs).symm.trans hopen)
      · exact hc
  | case5 c cs hc hname => exact absurd h (List.cons_ne_nil _ _)

theorem dangling_name {cs : List Char} (h : (name cs).2 ≠ []) :
    dangling (name cs).2 = dangling cs := by
  fun_induction name cs with
  | case1 => rfl
  | case2 cs hnewline => rfl
  | case3 cs hnewline hle rest ih =>
      have hne : cs ≠ [] := by
        rintro rfl
        exact h (by decide +kernel)
      rw [ih h, dangling_escaped hne]
  | case4 c cs hc hname rest ih => rw [ih h, dangling_cons hc]
  | case5 c cs hc hname => rfl

end Scan

end AtomicStyles.Css
