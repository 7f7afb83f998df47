import AtomicStyles.Proofs.OpenText
import AtomicStyles.Theme.Property

/-!
# What a bracketed value leaves open

A value in brackets is printed behind its property with a semicolon after it, so
what has been accepted should end at that semicolon. The check looks at the tokens of
the text alone, and there two things go unseen. The tokenizer closes at the end of
its text whatever is still open, be it a string, a comment or an address, and it
takes a block without its closing bracket for a whole one. And the check comes before
the trimming, while a blank in front may belong to a name and one behind to an escape.

The main result says for every accepted value what becomes of a semicolon behind it.
It is a token of its own, outside all brackets and whatever comes later, exactly for
the values that leave nothing open, and those are also the ones for which the check
sees the semicolon.
-/

namespace AtomicStyles.Text

theorem head_dropWhile {p : Char → Bool} {cs : List Char} {c : Char}
    (h : (cs.dropWhile p).head? = some c) : p c = false := by
  have hnot := List.head?_dropWhile_not p cs
  rw [h] at hnot
  exact hnot

theorem last_trim {cs : List Char} {c : Char} (h : (trim cs).getLast? = some c) :
    isBlank c = false := by
  rw [trim, List.getLast?_reverse] at h
  exact head_dropWhile h

theorem head_trim {cs : List Char} {c : Char} (h : (trim cs).head? = some c) :
    isBlank c = false := by
  have hprefix : trim cs <+: cs.dropWhile isBlank := by
    rw [← List.reverse_suffix, trim, List.reverse_reverse]
    exact List.dropWhile_suffix _
  obtain ⟨rest, hrest⟩ := hprefix
  have hfirst : (cs.dropWhile isBlank).head? = some c := by
    rw [← hrest, List.head?_append, h, Option.some_or]
  exact head_dropWhile hfirst

theorem trim_eq_self {cs : List Char} (hhead : ∀ c, cs.head? = some c → isBlank c = false)
    (hlast : ∀ c, cs.getLast? = some c → isBlank c = false) : trim cs = cs := by
  have hkeep {ds : List Char} (h : ∀ c, ds.head? = some c → isBlank c = false) :
      ds.dropWhile isBlank = ds := by
    cases ds with
    | nil => rfl
    | cons d ds => exact List.dropWhile_cons_of_neg (by simp [h d rfl])
  rw [trim, hkeep hhead, hkeep, List.reverse_reverse]
  intro c hc
  rw [List.head?_reverse] at hc
  exact hlast c hc

theorem trim_trim (cs : List Char) : trim (trim cs) = trim cs :=
  trim_eq_self (fun _ => head_trim) fun _ => last_trim

end AtomicStyles.Text

namespace AtomicStyles.Css

/-! ## Brackets that stay open -/

/-- The brackets that are open after a token, the innermost first. -/
def follow : List Bracket → Token → List Bracket
  | open', .opening b => b :: open'
  | b :: open', .closing closed => if closed = b then open' else b :: open'
  | open', _ => open'

/-- The brackets that are open after all the tokens. -/
def openBrackets (ts : List Token) : List Bracket := ts.foldl follow []

theorem firstFault_cons (open' : List Bracket) (t : Token) (ts : List Token) :
    firstFault open' (t :: ts) =
      (if open' = [] then t.fault? else none).or (firstFault (follow open' t) ts) := by
  cases open' with
  | nil =>
      rw [if_pos rfl]
      cases t with
      | opening b => cases b <;> rfl
      | _ => rfl
  | cons b open' =>
      rw [if_neg (List.cons_ne_nil _ _), Option.none_or]
      cases t <;> rfl

theorem firstFault_append (open' : List Bracket) (ts us : List Token) :
    firstFault open' (ts ++ us) =
      (firstFault open' ts).or (firstFault (ts.foldl follow open') us) := by
  induction ts generalizing open' with
  | nil => rw [List.nil_append, firstFault, Option.none_or, List.foldl_nil]
  | cons t ts ih =>
      rw [List.cons_append, firstFault_cons, firstFault_cons, ih, List.foldl_cons,
        Option.or_assoc]

/-- Nothing is open at the end of the text: no token, and no bracket. -/
def SelfContained (cs : List Char) : Prop :=
  textOpen cs = false ∧ openBrackets (tokens cs) = []

instance (cs : List Char) : Decidable (SelfContained cs) :=
  inferInstanceAs (Decidable (_ ∧ _))

/-- A semicolon behind the text ends it, whatever follows: it is a token of its own,
outside all brackets. -/
theorem selfContained_iff {cs : List Char} (hend : Scan.EndsTight cs) :
    SelfContained cs ↔
      (∀ rest, tokens (cs ++ ';' :: rest) = tokens cs ++ .semicolon :: tokens rest) ∧
        openBrackets (tokens cs) = [] := by
  constructor
  · rintro ⟨hclosed, hbrackets⟩
    exact ⟨tokens_append hclosed, hbrackets⟩
  · rintro ⟨htokens, hbrackets⟩
    refine ⟨?_, hbrackets⟩
    by_contra hopen
    have hsame := tokens_open (by simpa using hopen) hend
    have hlength := congrArg List.length ((htokens []).symm.trans hsame)
    simp at hlength

example : ∀ text ∈ ["(", "\"a", "/* a", "url(a", "a\\"],
    checkValue text.toList = .ok () ∧ ¬SelfContained text.toList := by decide +kernel

theorem firstFault_semicolon {cs : List Char} (hend : Scan.EndsTight cs) :
    firstFault [] (tokens (cs ++ [';'])) =
      (firstFault [] (tokens cs)).or (if SelfContained cs then some .semicolon else none) := by
  by_cases hopen : textOpen cs = true
  · have hnot : ¬SelfContained cs := fun h => Bool.false_ne_true (h.1.symm.trans hopen)
    rw [tokens_open hopen hend, if_neg hnot, Option.or_none]
  · have hclosed : textOpen cs = false := by simpa using hopen
    have hsemicolon : firstFault (openBrackets (tokens cs)) (.semicolon :: tokens []) =
        if SelfContained cs then some .semicolon else none := by
      rw [tokens]
      cases hbrackets : openBrackets (tokens cs) with
      | nil => exact (if_pos ⟨hclosed, hbrackets⟩).symm
      | cons b open' =>
          have hnot : ¬SelfContained cs := fun h =>
            absurd (hbrackets.symm.trans h.2) (List.cons_ne_nil b open')
          exact (if_neg hnot).symm
    rw [tokens_append hclosed, firstFault_append, ← hsemicolon]
    rfl

/-! ## The check of a trimmed value -/

theorem isBlank_of_isSpace {c : Char} (h : Scan.isSpace c = true) : Text.isBlank c = true := by
  obtain ((rfl | rfl | rfl) | rfl) | rfl :
      ((c = '\n' ∨ c = '\r' ∨ c = '\x0c') ∨ c = ' ') ∨ c = '\t' := by
    simpa [Scan.isSpace, Scan.isNewline, or_assoc] using h
  all_goals decide

theorem trim_semicolon {cs : List Char} (h : Text.trim cs ≠ []) :
    Text.trim (Text.trim cs ++ [';']) = Text.trim cs ++ [';'] := by
  apply Text.trim_eq_self
  · intro c hc
    rw [List.head?_append_of_ne_nil _ h] at hc
    exact Text.head_trim hc
  · intro c hc
    rw [List.getLast?_concat] at hc
    rw [← Option.some.inj hc]
    decide

theorem endsTight_trim (cs : List Char) : Scan.EndsTight (Text.trim cs) := by
  rintro c ⟨init, hinit⟩
  have hlast : Text.isBlank c = false :=
    Text.last_trim (List.getLast?_eq_some_iff.mpr ⟨init, hinit.symm⟩)
  by_contra hspace
  rw [isBlank_of_isSpace (by simpa using hspace)] at hlast
  exact Bool.false_ne_true hlast.symm

theorem checkValue_eq {cs : List Char} (h : Text.trim cs ≠ []) :
    checkValue cs =
      match firstFault [] (tokens cs) with
      | some fault => .error fault
      | none => .ok () := by
  unfold checkValue
  exact if_neg (by simpa using h)

/-- What the check says of a trimmed value with a semicolon behind it. -/
theorem checkValue_semicolon {cs : List Char} (h : Text.trim cs ≠ []) :
    checkValue (Text.trim cs ++ [';']) =
      match checkValue (Text.trim cs) with
      | .error fault => .error fault
      | .ok () => if SelfContained (Text.trim cs) then .error .semicolon else .ok () := by
  have hne : Text.trim (Text.trim cs ++ [';']) ≠ [] := by
    rw [trim_semicolon h]
    exact List.append_ne_nil_of_right_ne_nil _ (List.cons_ne_nil _ _)
  rw [checkValue_eq hne, checkValue_eq (by rwa [Text.trim_trim]),
    firstFault_semicolon (endsTight_trim cs)]
  cases firstFault [] (tokens (Text.trim cs)) with
  | some fault => rfl
  | none =>
      rw [Option.none_or]
      by_cases hcontained : SelfContained (Text.trim cs)
      · rw [if_pos hcontained, if_pos hcontained]
      · rw [if_neg hcontained, if_neg hcontained]

end AtomicStyles.Css

namespace AtomicStyles.PropertyDefinition

open Css

theorem resolveValue_bracketed (d : PropertyDefinition) (name t : String) :
    d.resolveValue name (.text ("[" ++ t ++ "]")) =
      match checkValue t.toList with
      | .ok () => .ok (openEnded (Text.trimmed t))
      | .error fault => .error (.invalidArbitraryValue name ("[" ++ t ++ "]") fault) := by
  have hraw : ("[" ++ t ++ "]").toList = '[' :: (t.toList ++ [']']) := by
    rw [String.toList_append, String.toList_append]
    rfl
  have hcustom : isCustomName ("[" ++ t ++ "]") = false := by
    rw [isCustomName, hraw]
    rfl
  have hbracketed : bracketed (t.toList ++ [']']) =
      (checkValue t.toList).map fun _ => Text.trimmed t := by
    rw [bracketed, if_pos List.getLast?_concat, List.dropLast_concat]
    cases checkValue t.toList <;> rfl
  rw [resolveValue, hcustom, if_neg Bool.false_ne_true, hraw]
  simp only [hbracketed]
  cases checkValue t.toList <;> rfl

/-- A text that is neither a reference nor in brackets is for the value set. -/
theorem resolveValue_listed {s : String} (hcustom : ¬ isCustomName s)
    (hbracket : s.toList.head? ≠ some '[') (d : PropertyDefinition) (name : String) :
    d.resolveValue name (.text s) = d.resolveListed name (.text s) := by
  rw [resolveValue, if_neg hcustom]
  split
  · next rest hraw => exact absurd (by rw [hraw]; rfl) hbracket
  · rfl

/-- An accepted value is the trimmed text, and that is not empty. -/
theorem trimmed_of_bracketed {d : PropertyDefinition} {name t css : String}
    {fragment : Code.Fragment}
    (h : d.resolveValue name (.text ("[" ++ t ++ "]")) = .ok (css, fragment)) :
    css.toList = Text.trim t.toList ∧ Text.trim t.toList ≠ [] := by
  rw [resolveValue_bracketed] at h
  by_cases hne : Text.trim t.toList = []
  · rw [checkValue, hne] at h
    exact absurd h (by simp)
  · split at h
    · have hcss : Text.trimmed t = css := congrArg Prod.fst (Except.ok.inj h)
      rw [← hcss, Text.trimmed, String.toList_ofList]
      exact ⟨rfl, hne⟩
    · exact absurd h (by simp)

-- A no-break space starts the name of a function. Without it the name is that of an
-- address, which holds no space.
example : checkValue "\u00a0url(a b)".toList = .ok () ∧
    checkValue (Text.trim "\u00a0url(a b)".toList) = .error .unterminated := by
  decide +kernel

theorem resolveValue_semicolon {d : PropertyDefinition} {name t css : String}
    {fragment : Code.Fragment}
    (h : d.resolveValue name (.text ("[" ++ t ++ "]")) = .ok (css, fragment)) :
    d.resolveValue name (.text ("[" ++ css ++ ";]")) =
      match checkValue css.toList with
      | .error fault => .error (.invalidArbitraryValue name ("[" ++ css ++ ";]") fault)
      | .ok () =>
          if SelfContained css.toList then
            .error (.invalidArbitraryValue name ("[" ++ css ++ ";]") .semicolon)
          else .ok (openEnded (css ++ ";")) := by
  obtain ⟨hcss, hne⟩ := trimmed_of_bracketed h
  have hraw : "[" ++ css ++ ";]" = "[" ++ (css ++ ";") ++ "]" := by
    simp only [String.append_assoc]
    rfl
  have htext : (css ++ ";").toList = Text.trim t.toList ++ [';'] := by
    rw [String.toList_append, hcss]
    rfl
  have htrimmed : Text.trimmed (css ++ ";") = css ++ ";" := by
    rw [Text.trimmed, htext, trim_semicolon hne, ← htext, String.ofList_toList]
  rw [hraw, resolveValue_bracketed, htext, checkValue_semicolon hne, htrimmed, hcss]
  cases checkValue (Text.trim t.toList) with
  | error fault => rfl
  | ok u =>
      by_cases hcontained : SelfContained (Text.trim t.toList)
      · simp only [if_pos hcontained]
      · simp only [if_neg hcontained]

/-- A semicolon behind the CSS text of an accepted value. To a reader of the style sheet
it is a token outside all brackets exactly if the value leaves nothing open. The check
refuses it for those values, and for the ones that it refuses once they are trimmed;
with any other value it accepts the semicolon too. -/
theorem semicolon_after_bracketed {d : PropertyDefinition} {name t css : String}
    {fragment : Code.Fragment}
    (h : d.resolveValue name (.text ("[" ++ t ++ "]")) = .ok (css, fragment)) :
    (SelfContained css.toList ↔
      (∀ rest, tokens (css.toList ++ ';' :: rest) =
          tokens css.toList ++ .semicolon :: tokens rest) ∧
        openBrackets (tokens css.toList) = []) ∧
    (∀ fault, d.resolveValue name (.text ("[" ++ css ++ ";]")) =
        .error (.invalidArbitraryValue name ("[" ++ css ++ ";]") fault) ↔
      checkValue css.toList = .error fault ∨
        checkValue css.toList = .ok () ∧ SelfContained css.toList ∧ fault = .semicolon) ∧
    (d.resolveValue name (.text ("[" ++ css ++ ";]")) = .ok (openEnded (css ++ ";")) ↔
      checkValue css.toList = .ok () ∧ ¬SelfContained css.toList) := by
  have hend : Scan.EndsTight css.toList := (trimmed_of_bracketed h).1 ▸ endsTight_trim t.toList
  refine ⟨selfContained_iff hend, ?_, ?_⟩
  · intro fault
    rw [resolveValue_semicolon h]
    cases checkValue css.toList with
    | error fault' => simp
    | ok u =>
      by_cases hcontained : SelfContained css.toList
      · simp [hcontained, eq_comm]
      · simp [hcontained]
  · rw [resolveValue_semicolon h]
    cases checkValue css.toList with
    | error fault' => simp
    | ok u =>
      by_cases hcontained : SelfContained css.toList
      · simp [hcontained]
      · simp [hcontained]

/-- The blank goes, the brackets are closed, and the semicolon is seen. -/
theorem semicolon_after_bracketed_calc :
    (ofNames []).resolveValue "width" (.text ("[" ++ " calc(100% - 3px) " ++ "]")) =
        .ok (openEnded "calc(100% - 3px)") ∧
      (ofNames []).resolveValue "width" (.text ("[" ++ "calc(100% - 3px)" ++ ";]")) =
        .error (.invalidArbitraryValue "width" ("[" ++ "calc(100% - 3px)" ++ ";]") .semicolon) := by
  have hcheck : checkValue " calc(100% - 3px) ".toList = .ok () := by decide +kernel
  have htrimmed : Text.trimmed " calc(100% - 3px) " = "calc(100% - 3px)" := by decide +kernel
  have haccepted : (ofNames []).resolveValue "width" (.text ("[" ++ " calc(100% - 3px) " ++ "]")) =
      .ok (openEnded "calc(100% - 3px)") := by
    rw [resolveValue_bracketed, hcheck, htrimmed]
  exact ⟨haccepted, ((semicolon_after_bracketed haccepted).2.1 .semicolon).2
    (.inr ⟨by decide +kernel, by decide +kernel, rfl⟩)⟩

/-- An open bracket is accepted, and so it is with the semicolon that it holds. -/
theorem open_bracket_accepted :
    (ofNames []).resolveValue "width" (.text ("[" ++ "(" ++ "]")) = .ok (openEnded "(") ∧
      (ofNames []).resolveValue "width" (.text ("[" ++ "(" ++ ";]")) = .ok (openEnded "(;") := by
  have hopen : checkValue "(".toList = .ok () := by decide +kernel
  have hsemicolon : checkValue "(;".toList = .ok () := by decide +kernel
  have htrimmed : Text.trimmed "(" = "(" ∧ Text.trimmed "(;" = "(;" := by decide +kernel
  have hraw : "[" ++ "(" ++ ";]" = "[" ++ "(;" ++ "]" := rfl
  rw [hraw, resolveValue_bracketed, resolveValue_bracketed, hopen, hsemicolon, htrimmed.1,
    htrimmed.2]
  exact ⟨rfl, rfl⟩

end AtomicStyles.PropertyDefinition
