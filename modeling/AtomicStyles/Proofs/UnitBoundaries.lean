import Mathlib.Data.String.Basic
import AtomicStyles.Proofs.UnitCode

/-!
# Where the units of a token end

Positions in a token are byte offsets, and a reader that only knows an offset
has to find the next one. It stops where the writer stopped: every unit is plain
ASCII, so a unit has as many bytes as characters, and what stands before an
offset does not matter to what is read from there. So reading unit after unit
from the start visits the boundaries of the run that was written, in order, and
ends with the text.

For ordinals there is a second reader, which takes a unit that was cut out
already. It and the writer are inverse to each other: it accepts no hash, and no
second spelling of an ordinal.
-/

namespace AtomicStyles

/-- Dropping the bytes of what stands before leaves what stands after. -/
theorem Text.dropBytes_append (before after : List Char) :
    dropBytes (before ++ after) (String.utf8Len before) = some after := by
  induction before with
  | nil => cases after <;> rfl
  | cons c cs ih =>
      have hsize : 0 < c.utf8Size := c.utf8Size_pos
      rw [List.cons_append, String.utf8Len_cons, dropBytes, if_neg (by omega),
        if_pos (by omega), Nat.add_sub_cancel, ih]

theorem Text.utf8Size_of_ascii {c : Char} (h : c.toNat < 128) : c.utf8Size = 1 :=
  Char.utf8Size_eq_one_iff.2 (UInt32.le_iff_toNat_le.2 (Nat.le_of_lt_succ h))

theorem Text.utf8Len_of_ascii {cs : List Char} (h : ∀ c ∈ cs, c.toNat < 128) :
    String.utf8Len cs = cs.length := by
  induction cs with
  | nil => rfl
  | cons c cs ih =>
      obtain ⟨hc, hcs⟩ := List.forall_mem_cons.1 h
      rw [String.utf8Len_cons, List.length_cons, ih hcs, utf8Size_of_ascii hc]

namespace Code

/-! ## Symbols are read as they are written -/

theorem ofNat_add_sub {low c : Char} (h : low ≤ c) :
    Char.ofNat (low.toNat + (c.toNat - low.toNat)) = c := by
  have hle : low.toNat ≤ c.toNat := h
  rw [Nat.add_sub_cancel' hle, Char.ofNat_toNat]

/-- A symbol is the one that is written for its number, and it is printed ASCII. -/
theorem symbol_of_symbolValue? {c : Char} {d : Nat} (h : symbolValue? c = some d) :
    d < radix ∧ symbol d = c ∧ 0x20 < c.toNat ∧ c.toNat < 0x7F := by
  have hradix : radix = 62 := rfl
  unfold symbolValue? at h
  split at h
  · next hc =>
      have hlow : 97 ≤ c.toNat := hc.1
      have hhigh : c.toNat ≤ 122 := hc.2
      have ha : 'a'.toNat = 97 := rfl
      obtain rfl := Option.some.inj h
      refine ⟨by omega, ?_, by omega, by omega⟩
      rw [symbol, if_pos (by omega), ofNat_add_sub hc.1]
  · split at h
    · next hc =>
        have hlow : 65 ≤ c.toNat := hc.1
        have hhigh : c.toNat ≤ 90 := hc.2
        have hA : 'A'.toNat = 65 := rfl
        obtain rfl := Option.some.inj h
        refine ⟨by omega, ?_, by omega, by omega⟩
        rw [symbol, if_neg (by omega), if_pos (by omega), Nat.add_sub_cancel, ofNat_add_sub hc.1]
    · split at h
      · next hc =>
          have hlow : 48 ≤ c.toNat := hc.1
          have hhigh : c.toNat ≤ 57 := hc.2
          have h0 : '0'.toNat = 48 := rfl
          obtain rfl := Option.some.inj h
          refine ⟨by omega, ?_, by omega, by omega⟩
          rw [symbol, if_neg (by omega), if_neg (by omega), Nat.add_sub_cancel,
            ofNat_add_sub hc.1]
      · cases h

/-! ## Complete ordinal units -/

/-- The ordinal that a fragment is, if it is one. -/
def Fragment.ordinal? : Fragment → Option Nat
  | .indexed n => some n
  | .hashed _ => none

theorem ordinal?_cons {c : Char} {cs : List Char} (h : cs ≠ []) :
    ordinal? (c :: cs) = if c = escape then (ordinal? cs).map (· + radix) else none := by
  cases cs with
  | nil => exact absurd rfl h
  | cons d ds => rw [ordinal?]; simp

theorem ordinal?_replicate (k : Nat) {c : Char} {d : Nat} (hc : symbolValue? c = some d) :
    ordinal? (List.replicate k escape ++ [c]) = some (radix * k + d) := by
  induction k with
  | zero => simpa [ordinal?] using hc
  | succ k ih =>
      rw [List.replicate_succ, List.cons_append, ordinal?_cons (by simp), if_pos rfl, ih,
        Option.map_some, Nat.mul_succ, Nat.add_right_comm]

/-- The ordinal of a unit is the one that it was written for, and a hash has
none. -/
theorem ordinal?_unit (u : Fragment) : ordinal? u.unit = u.ordinal? := by
  cases u with
  | indexed n =>
      rw [Fragment.unit, ordinalUnit, ordinal?_replicate _ (symbolValue?_symbol (mod_radix_lt n)),
        Nat.div_add_mod]
      rfl
  | hashed h =>
      rw [Fragment.unit, hashUnit, List.cons_append, ordinal?_cons (by simp), if_neg (by decide)]
      rfl

theorem ordinalUnit_add_radix (n : Nat) : ordinalUnit (n + radix) = escape :: ordinalUnit n := by
  rw [ordinalUnit, Nat.add_div_right n (by decide), Nat.add_mod_right, List.replicate_succ,
    List.cons_append, ordinalUnit]

/-- A text that has an ordinal is the unit that is written for it. -/
theorem ordinalUnit_of_ordinal? {cs : List Char} {n : Nat} (h : ordinal? cs = some n) :
    ordinalUnit n = cs := by
  induction cs generalizing n with
  | nil => cases h
  | cons c cs ih =>
      by_cases hcs : cs = []
      · subst hcs
        obtain ⟨hlt, hsymbol, -⟩ := symbol_of_symbolValue? h
        rw [ordinalUnit, Nat.div_eq_of_lt hlt, Nat.mod_eq_of_lt hlt, hsymbol]
        rfl
      · rw [ordinal?_cons hcs] at h
        split at h
        · next hc =>
            obtain ⟨m, hm, rfl⟩ := Option.map_eq_some_iff.1 h
            rw [ordinalUnit_add_radix, ih hm, hc]
        · cases h

/-! ## Boundaries -/

/-- The text of a run of units. -/
def written (us : List Fragment) : String :=
  String.ofList (us.flatMap Fragment.unit)

/-- The byte offset at which the first `count` units of a run end. -/
def boundary (us : List Fragment) (count : Nat) : Nat :=
  (written (us.take count)).utf8ByteSize

/-- The byte offset that is reached by reading `count` units from the start of a
text, one after another. -/
def offsetAfter? (token : String) : Nat → Option Nat
  | 0 => some 0
  | count + 1 => (offsetAfter? token count).bind (unitEnd? token)

theorem isUnitChar_toNat {c : Char} (h : isUnitChar c) : 0x20 < c.toNat ∧ c.toNat < 0x7F := by
  simp only [isUnitChar, isSymbol, Bool.or_eq_true, beq_iff_eq] at h
  rcases h with (h | rfl) | rfl
  · obtain ⟨d, hd⟩ := Option.isSome_iff_exists.1 h
    exact (symbol_of_symbolValue? hd).2.2
  · decide
  · decide

/-- Trimming takes nothing away from units. -/
theorem not_isBlank_of_isUnitChar {c : Char} (h : isUnitChar c) : Text.isBlank c = false := by
  have hrange := isUnitChar_toNat h
  simp only [Text.isBlank, Bool.or_eq_false_iff, Bool.and_eq_false_iff, decide_eq_false_iff_not,
    beq_eq_false_iff_ne]
  omega

theorem ascii_of_isUnitChar {c : Char} (h : isUnitChar c) : c.toNat < 128 :=
  Nat.lt_of_lt_of_le (isUnitChar_toNat h).2 (by decide)

theorem boundary_eq (us : List Fragment) (count : Nat) :
    boundary us count = String.utf8Len ((us.take count).flatMap Fragment.unit) :=
  String.utf8ByteSize_ofList _

/-- What stands before an offset does not matter to what is read there. -/
theorem unitEnd?_utf8Len {token : String} {before rest : List Char}
    (h : token.toList = before ++ rest) :
    unitEnd? token (String.utf8Len before) =
      (readUnit? rest).map fun hit => String.utf8Len before + hit.1.length := by
  rw [unitEnd?, h, Text.dropBytes_append, Option.bind_eq_bind, Option.bind_some]
  cases readUnit? rest <;> rfl

/-- A unit is read from its start to its end. -/
theorem unitEnd?_boundary {us : List Fragment} {i : Nat} (h : i < us.length) :
    unitEnd? (written us) (boundary us i) = some (boundary us (i + 1)) := by
  -- the text splits at the boundary, and what follows starts with the unit
  have hsplit : (written us).toList =
      (us.take i).flatMap Fragment.unit ++
        (us[i].unit ++ (us.drop (i + 1)).flatMap Fragment.unit) := by
    rw [written, String.toList_ofList, ← List.flatMap_cons, ← List.drop_eq_getElem_cons h,
      ← List.flatMap_append, List.take_append_drop]
  have hnext : boundary us (i + 1) = boundary us i + us[i].unit.length := by
    have hascii : ∀ c ∈ us[i].unit, c.toNat < 128 := fun c hc =>
      ascii_of_isUnitChar (unit_isUnitChar us[i] c hc)
    rw [boundary_eq, boundary_eq, List.take_succ_eq_append_getElem h, List.flatMap_append,
      String.utf8Len_append, List.flatMap_singleton, Text.utf8Len_of_ascii hascii]
  rw [hnext, boundary_eq, unitEnd?_utf8Len hsplit, readUnit?_unit]
  rfl

/-- Reading unit after unit from the start visits the boundaries in order. -/
theorem offsetAfter?_written {us : List Fragment} {count : Nat} (h : count ≤ us.length) :
    offsetAfter? (written us) count = some (boundary us count) := by
  induction count with
  | zero => rw [offsetAfter?, boundary_eq, List.take_zero]; rfl
  | succ count ih =>
      rw [offsetAfter?, ih (Nat.le_of_succ_le h), Option.bind_some, unitEnd?_boundary h]

theorem boundary_length (us : List Fragment) :
    boundary us us.length = (written us).utf8ByteSize := by
  rw [boundary, List.take_length]

/-- Behind the last unit there is none. -/
theorem unitEnd?_boundary_length (us : List Fragment) :
    unitEnd? (written us) (boundary us us.length) = none := by
  have hend : (written us).toList = us.flatMap Fragment.unit ++ [] :=
    String.toList_ofList.trans (List.append_nil _).symm
  rw [boundary_eq, List.take_length, unitEnd?_utf8Len hend]
  rfl

theorem parseToken?_written (first : Fragment) (middle : List Fragment) (last : Fragment) :
    parseToken? (written (first :: (middle ++ [last]))) =
      some
        { property := written [first]
          conditions := written middle
          value := written [last] } := by
  have hunits : units? (written (first :: (middle ++ [last]))).toList =
      some (first.unit :: (middle.map Fragment.unit ++ [last.unit])) := by
    rw [written, String.toList_ofList, units?_flatMap, List.map_cons, List.map_append]
    rfl
  rw [parseToken?_of_units? hunits, written, written, written, List.flatMap_singleton,
    List.flatMap_singleton, List.flatMap_def]

/-- A run of at least two units can be told from its text. Reading from the start
stops at the boundaries of the units, and after the last of them at the end of the
text. The token is taken apart into the first unit, the last and what stands
between them. No other run has the text. A unit that was written for an ordinal
gives it back, one that was written for a hash gives none, and nothing but the
unit of an ordinal has that ordinal. -/
theorem written_decodes_uniquely (first : Fragment) (middle : List Fragment) (last : Fragment) :
    let us := first :: (middle ++ [last])
    let token := written us
    (∀ count ≤ us.length, offsetAfter? token count = some (boundary us count)) ∧
    boundary us us.length = token.utf8ByteSize ∧
    offsetAfter? token (us.length + 1) = none ∧
    parseToken? token =
      some
        { property := written [first]
          conditions := written middle
          value := written [last] } ∧
    (∀ vs, written vs = token → vs = us) ∧
    (∀ u ∈ us, ordinal? (written [u]).toList = u.ordinal?) ∧
    ∀ (unit : String) (n : Nat), ordinal? unit.toList = some n →
      written [.indexed n] = unit := by
  intro us token
  refine ⟨fun count hcount => offsetAfter?_written hcount, boundary_length us, ?_,
    parseToken?_written first middle last, ?_, ?_, ?_⟩
  · rw [offsetAfter?, offsetAfter?_written (Nat.le_refl _), Option.bind_some,
      unitEnd?_boundary_length]
  · intro vs hvs
    exact unit_flatMap_injective (String.ofList_inj.1 hvs)
  · intro u _
    rw [written, String.toList_ofList, List.flatMap_singleton, ordinal?_unit]
  · intro unit n hn
    rw [written, List.flatMap_singleton, Fragment.unit, ordinalUnit_of_ordinal? hn,
      String.ofList_toList]

/-- Two hashes side by side put two markers side by side. -/
theorem written_decodes_uniquely_adjacent :
    offsetAfter? "-a--b-__g9" 2 = some 6 ∧ offsetAfter? "-a--b-__g9" 4 = some 10 ∧
      parseToken? "-a--b-__g9" = some ⟨"-a-", "-b-__g", "9"⟩ ∧
      ∀ vs, written vs = "-a--b-__g9" →
        vs = [.hashed 0, .hashed 1, .indexed 130, .indexed 61] := by
  obtain ⟨hoffset, -, -, hparts, hunique, -, -⟩ :=
    written_decodes_uniquely (.hashed 0) [.hashed 1, .indexed 130] (.indexed 61)
  have htoken :
      written [.hashed 0, .hashed 1, .indexed 130, .indexed 61] = "-a--b-__g9" := by decide
  exact ⟨htoken ▸ hoffset 2 (by decide), htoken ▸ hoffset 4 (by decide), htoken ▸ hparts,
    htoken ▸ hunique⟩

end Code

end AtomicStyles
