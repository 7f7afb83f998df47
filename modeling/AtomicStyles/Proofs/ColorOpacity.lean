import Mathlib.Data.List.TakeWhile
import AtomicStyles.Proofs.BracketedValue
import AtomicStyles.Proofs.Overlay

/-!
# Colors with an opacity

A color property takes each of its names with an opacity after a slash. The slash
that counts is the first, and what stands before it must be a name. A name without
a slash comes out whole. A name with one is cut in its middle: the part in front is
looked up in its place, and what is left of it stands in front of the opacity,
where no number can be read any more.

So the names that take an opacity are exactly those without a slash. For the others
the theorem says which of the two errors comes out.
-/

namespace AtomicStyles

/-! ## Reading past a slash -/

namespace Reading

theorem mem_dropWhile {p : Char → Bool} {c : Char} {cs : List Char} (h : c ∈ cs)
    (hc : p c = false) : c ∈ cs.dropWhile p := by
  rw [← List.takeWhile_append_dropWhile (p := p) (l := cs), List.mem_append] at h
  refine h.resolve_left fun hkept => ?_
  rw [List.mem_takeWhile_imp hkept] at hc
  cases hc

theorem slash_mem_sign {cs : List Char} (h : '/' ∈ cs) : '/' ∈ (sign cs).2 := by
  unfold sign
  split
  · exact (List.mem_cons.1 h).resolve_left (by decide)
  · exact (List.mem_cons.1 h).resolve_left (by decide)
  · exact h

theorem slash_mem_fraction {cs : List Char} (h : '/' ∈ cs) : '/' ∈ (fraction cs).2 := by
  unfold fraction
  split
  · exact mem_dropWhile ((List.mem_cons.1 h).resolve_left (by decide)) (by decide)
  · exact h

theorem exponent?_of_slash {cs : List Char} (h : '/' ∈ cs) : exponent? cs = none := by
  cases cs with
  | nil => cases h
  | cons e cs =>
      rw [exponent?]
      split
      · next he =>
          have hrest : '/' ∈ cs := (List.mem_cons.1 h).resolve_left (by rintro rfl; simp at he)
          have hdigits : (sign cs).2.all isDigit = false :=
            List.all_eq_false.2 ⟨'/', slash_mem_sign hrest, by decide⟩
          simp [hdigits]
      · rfl

/-- A text with a slash is no number. The sign, the digits and the point are taken
off in front, and what is left is no exponent. -/
theorem number?_of_slash {cs : List Char} (h : '/' ∈ cs) : number? cs = none := by
  have hrest : '/' ∈ (fraction ((sign cs).2.dropWhile isDigit)).2 :=
    slash_mem_fraction (mem_dropWhile (slash_mem_sign h) (by decide))
  rw [number?]
  dsimp only
  split
  · rfl
  · rw [exponent?_of_slash hrest, Option.map_none]

end Reading

namespace PropertyDefinition

theorem opacity?_of_slash {cs : List Char} (h : '/' ∈ cs) : opacity? cs = none := by
  rw [opacity?, Reading.number?_of_slash h]

/-- A percentage reads back as it is written. -/
theorem opacity?_toString {n : Nat} (h : n ≤ 100) :
    opacity? (toString n).toList = some (toString n) := by
  have hall : ∀ m ∈ List.range 101,
      opacity? (Nat.toDigits 10 m) = some (String.ofList (Nat.toDigits 10 m)) := by
    decide +kernel
  have htext : toString n = String.ofList (Nat.toDigits 10 n) := Nat.repr_eq_ofList_toDigits
  rw [htext, String.toList_ofList]
  exact hall n (List.mem_range.2 (by omega))

/-! ## The first slash -/

/-- The text by which a color is asked for at an opacity in percent. -/
def withOpacity (color : String) (percent : Nat) : String :=
  color ++ "/" ++ toString percent

/-- The CSS text of a color at an opacity. -/
def faded (css percent : String) : String :=
  "rgb(from " ++ css ++ " r g b / " ++ percent ++ "%)"

theorem toList_withOpacity (color : String) (percent : Nat) :
    (withOpacity color percent).toList = color.toList ++ '/' :: (toString percent).toList := by
  simp [withOpacity]

/-- A key that is no name of its own is cut at its first slash. -/
theorem resolveColor_of_slash {values : Entries String} {key : String}
    {color opacity : List Char} (hkey : key.toList = color ++ '/' :: opacity)
    (hcolor : '/' ∉ color) (hnew : values.get? key = none) (name : String) :
    resolveColor values name key =
      match values.get? (String.ofList color), opacity? opacity with
      | some css, some percent => .ok (openEnded (faded css percent))
      | some _, none => .error (.invalidOpacity name (String.ofList opacity))
      | none, _ => .error (.unknownValue name (String.ofList color)) := by
  have hbefore : ∀ c ∈ color, (c != '/') = true := by
    rintro c hc
    exact bne_iff_ne.2 (by rintro rfl; exact hcolor hc)
  have hhas : ¬ values.has key := fun h =>
    Entries.get?_eq_none_iff.1 hnew (Entries.has_iff.1 h)
  have htake : key.toList.takeWhile (· != '/') = color := by
    rw [hkey, List.takeWhile_append_of_pos hbefore]
    simp
  have hdrop : key.toList.dropWhile (· != '/') = '/' :: opacity := by
    rw [hkey, List.dropWhile_append_of_pos hbefore]
    simp
  rw [resolveColor, hdrop, htake]
  dsimp only
  rw [if_neg hhas, lookup, Entries.get?_eq_find?]
  cases values.find? (String.ofList color) with
  | none => rfl
  | some hit =>
      dsimp only [Option.map_some]
      cases opacity? opacity <;> rfl

theorem resolveValue_withOpacity {d : PropertyDefinition} {values : Entries String}
    (hd : d.values = .color values) {k : String} (hcustom : ¬ Css.isCustomName k)
    (hbracket : k.toList.head? ≠ some '[') (n : Nat) (name : String) :
    d.resolveValue name (.text (withOpacity k n)) =
      resolveColor values name (withOpacity k n) := by
  have hhead : (withOpacity k n).toList.head? ≠ some '[' := by
    rw [toList_withOpacity]
    cases hk : k.toList with
    | nil => simp
    | cons c cs => simpa [hk] using hbracket
  have hname : ¬ Css.isCustomName (withOpacity k n) := by
    rw [Css.isCustomName] at hcustom ⊢
    rw [toList_withOpacity]
    cases hk : k.toList with
    | nil => simp
    | cons c rest =>
        cases rest with
        | nil => simp [List.isPrefixOf]
        | cons c' cs => simpa [hk, List.isPrefixOf] using hcustom
  rw [resolveValue_listed hname hhead, resolveListed, hd]
  rfl

/-- A color whose name has a slash is looked up by the part in front of it, and what
stands behind, with its slash, is no opacity. -/
theorem resolveColor_slashed {values : Entries String} {k : String} {color rest : List Char}
    (hsplit : k.toList = color ++ '/' :: rest) (hcolor : '/' ∉ color) {n : Nat}
    (hnew : values.get? (withOpacity k n) = none) (name : String) :
    resolveColor values name (withOpacity k n) = .error
      (if values.has (String.ofList color)
        then .invalidOpacity name (withOpacity (String.ofList rest) n)
        else .unknownValue name (String.ofList color)) := by
  have hkey : (withOpacity k n).toList =
      color ++ '/' :: (withOpacity (String.ofList rest) n).toList := by
    rw [toList_withOpacity, hsplit, toList_withOpacity, String.toList_ofList]
    simp
  have hopacity : opacity? (withOpacity (String.ofList rest) n).toList = none :=
    opacity?_of_slash (by rw [toList_withOpacity]; simp)
  rw [resolveColor_of_slash hkey hcolor hnew, hopacity, String.ofList_toList]
  cases hget : values.get? (String.ofList color) with
  | none =>
      rw [if_neg fun h => Entries.get?_eq_none_iff.1 hget (Entries.has_iff.1 h)]
  | some css =>
      have hmem := List.mem_map_of_mem (f := (·.1)) (Entries.mem_of_get? hget)
      rw [if_pos (Entries.has_iff.2 hmem)]

/-- A name of a color property that is no reference and opens no bracket takes an
opacity when no slash is in it, and then the text of its color is faded. A name with
a slash takes none: unless its part before the first slash is a name too, that part
is unknown, and if it is one, the rest is no opacity. -/
theorem named_color_with_opacity {d : PropertyDefinition} {values : Entries String}
    (hd : d.values = .color values) {k css : String} (hk : values.get? k = some css)
    (hcustom : ¬ Css.isCustomName k) (hbracket : k.toList.head? ≠ some '[') {n : Nat}
    (hn : n ≤ 100) (hnew : values.get? (withOpacity k n) = none) (name : String) :
    (d.resolveValue name (.text (withOpacity k n)) =
        .ok (faded css (toString n), .ofText (faded css (toString n))) ↔ '/' ∉ k.toList) ∧
    ∀ color rest, k.toList = color ++ '/' :: rest → '/' ∉ color →
      d.resolveValue name (.text (withOpacity k n)) = .error
        (if values.has (String.ofList color)
          then .invalidOpacity name (withOpacity (String.ofList rest) n)
          else .unknownValue name (String.ofList color)) := by
  rw [resolveValue_withOpacity hd hcustom hbracket]
  refine ⟨⟨fun h hmem => ?_, fun hplain => ?_⟩,
    fun color rest hsplit hcolor => resolveColor_slashed hsplit hcolor hnew name⟩
  · obtain ⟨color, rest, hsplit, hcolor⟩ := List.eq_append_cons_of_mem hmem
    rw [resolveColor_slashed hsplit hcolor hnew] at h
    cases h
  · rw [resolveColor_of_slash (toList_withOpacity k n) hplain hnew, String.ofList_toList, hk,
      opacity?_toString hn]
    rfl

/-- A color and a darker one, which has the name of the first in its own. -/
def brandColors : PropertyDefinition :=
  .ofColors [("brand", "#2a5bd7"), ("brand/dark", "#12306e")]

theorem named_color_with_opacity_brand :
    brandColors.resolveValue "color" (.text "brand/50") =
        .ok ("rgb(from #2a5bd7 r g b / 50%)", .ofText "rgb(from #2a5bd7 r g b / 50%)") ∧
      brandColors.resolveValue "color" (.text "brand/dark/50") =
        .error (.invalidOpacity "color" "dark/50") := by
  obtain ⟨hplain, -⟩ := named_color_with_opacity (d := brandColors) rfl (k := "brand") rfl
    (by decide) (by decide) (n := 50) (by decide) (by decide) "color"
  obtain ⟨-, hslash⟩ := named_color_with_opacity (d := brandColors) rfl (k := "brand/dark") rfl
    (by decide) (by decide) (n := 50) (by decide) (by decide) "color"
  exact ⟨hplain.2 (by decide), hslash "brand".toList "dark".toList (by decide) (by decide)⟩

/-- The darker color has a name like any other, and its half-transparent form is
refused. -/
theorem slashed_color_refuses_opacity :
    ∃ values, brandColors.values = .color values ∧
      values.get? "brand/dark" = some "#12306e" ∧ values.get? "brand/dark/50" = none ∧
      brandColors.resolveValue "color" (.text "brand/dark/50") ≠
        .ok ("rgb(from #12306e r g b / 50%)", .ofText "rgb(from #12306e r g b / 50%)") :=
  ⟨_, rfl, by decide, by decide, by decide +kernel⟩

end PropertyDefinition

end AtomicStyles
