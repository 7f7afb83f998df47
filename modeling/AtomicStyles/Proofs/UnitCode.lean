import Mathlib.Algebra.Group.Nat.Defs
import AtomicStyles.Code.Token
import AtomicStyles.Text.Blank

/-!
# Units can be told apart

A token is a run of units with nothing between them, and it works as a name
because the run can be taken apart again in one way only. The reader finds each
unit at the start of any text that continues it, and a unit determines the
ordinal or the hash that it was written for. Together these give the main
statement of this file, `unit_flatMap_injective`: two runs of units with the
same text are the same run.

Every unit is a `Fragment`. The property unit and the units of the conditions
are fragments like that of the value, so the laws speak of one kind of thing.
-/

namespace AtomicStyles.Code

/-! ## Symbols -/

theorem symbolValue?_symbol {n : Nat} (h : n < radix) : symbolValue? (symbol n) = some n := by
  have all : ∀ n < 62, symbolValue? (symbol n) = some n := by decide
  exact all n h

theorem isSymbol_symbol {n : Nat} (h : n < radix) : isSymbol (symbol n) := by
  rw [isSymbol, symbolValue?_symbol h]
  rfl

theorem symbol_injective {m n : Nat} (hm : m < radix) (hn : n < radix)
    (h : symbol m = symbol n) : m = n := by
  have := symbolValue?_symbol hm
  rw [h, symbolValue?_symbol hn] at this
  exact (Option.some.inj this).symm

theorem isSymbol_ne {c d : Char} (hc : isSymbol c) (hd : isSymbol d = false) : c ≠ d := by
  rintro rfl
  rw [hc] at hd
  cases hd

theorem mod_radix_lt (n : Nat) : n % radix < radix := Nat.mod_lt n (by decide)

/-! ## Reading a unit where it was written -/

theorem readOrdinal?_replicate (k : Nat) {c : Char} (hc : isSymbol c) (rest : List Char) :
    readOrdinal? (List.replicate k escape ++ c :: rest) =
      some (List.replicate k escape ++ [c], rest) := by
  induction k with
  | zero =>
      rw [List.replicate_zero, List.nil_append, readOrdinal?,
        if_neg (isSymbol_ne hc (by decide)), if_pos hc]
      rfl
  | succ k ih =>
      rw [List.replicate_succ, List.cons_append, readOrdinal?, if_pos rfl, ih]
      rfl

theorem readUnit?_ordinalUnit (n : Nat) (rest : List Char) :
    readUnit? (ordinalUnit n ++ rest) = some (ordinalUnit n, rest) := by
  have hread := readOrdinal?_replicate (n / radix) (isSymbol_symbol (mod_radix_lt n)) rest
  rw [ordinalUnit, List.append_assoc, List.singleton_append, ← hread]
  cases n / radix with
  | zero =>
      rw [List.replicate_zero, List.nil_append, readUnit?,
        if_neg (isSymbol_ne (isSymbol_symbol (mod_radix_lt n)) (by decide))]
  | succ k =>
      rw [List.replicate_succ, List.cons_append, readUnit?, if_neg (by decide)]

theorem digits_isSymbol (places n : Nat) : ∀ c ∈ digits places n, isSymbol c := by
  induction places generalizing n with
  | zero => simp [digits]
  | succ places ih =>
      intro c hc
      rw [digits] at hc
      split at hc
      · rename_i hn
        rw [List.mem_singleton.1 hc]
        exact isSymbol_symbol hn
      · rcases List.mem_append.1 hc with hc | hc
        · exact ih _ c hc
        · rw [List.mem_singleton.1 hc]
          exact isSymbol_symbol (mod_radix_lt n)

theorem digits_ne_nil (places n : Nat) : digits (places + 1) n ≠ [] := by
  rw [digits]
  split <;> simp

theorem ne_marker {body : List Char} (h : marker ∉ body) : ∀ c ∈ body, (c != marker) = true :=
  fun _ hc => bne_iff_ne.2 (ne_of_mem_of_not_mem hc h)

theorem readHash?_marker {body : List Char} (h : marker ∉ body) (rest : List Char) :
    readHash? (body ++ marker :: rest) =
      if !body.isEmpty && body.all isSymbol then some (marker :: body ++ [marker], rest)
      else none := by
  have htake : (body ++ marker :: rest).takeWhile (· != marker) = body := by
    rw [List.takeWhile_append_of_pos (ne_marker h)]
    simp
  have hdrop : (body ++ marker :: rest).dropWhile (· != marker) = marker :: rest := by
    rw [List.dropWhile_append_of_pos (ne_marker h)]
    simp
  rw [readHash?, htake, hdrop]

/-- A hash that is not closed is none. -/
theorem readHash?_open {cs : List Char} (h : marker ∉ cs) : readHash? cs = none := by
  have hdrop : cs.dropWhile (· != marker) = [] := by
    rw [← List.append_nil cs, List.dropWhile_append_of_pos (ne_marker h), List.dropWhile_nil]
  rw [readHash?, hdrop]

theorem readHash?_symbols {body : List Char} (hne : body ≠ [])
    (hbody : ∀ c ∈ body, isSymbol c) (rest : List Char) :
    readHash? (body ++ marker :: rest) = some (marker :: body ++ [marker], rest) := by
  have hmarker : marker ∉ body := fun h =>
    isSymbol_ne (hbody marker h) (by decide : isSymbol marker = false) rfl
  rw [readHash?_marker hmarker, if_pos]
  simpa [hne] using hbody

theorem readUnit?_hashUnit (h : UInt32) (rest : List Char) :
    readUnit? (hashUnit h ++ rest) = some (hashUnit h, rest) := by
  rw [hashUnit, List.append_assoc, List.cons_append, readUnit?, if_pos rfl,
    List.singleton_append]
  exact readHash?_symbols (digits_ne_nil _ _) (digits_isSymbol _ _) rest

/-- The unit of a fragment is found at the start of any text that it starts. -/
theorem readUnit?_unit (u : Fragment) (rest : List Char) :
    readUnit? (u.unit ++ rest) = some (u.unit, rest) := by
  cases u with
  | indexed n => exact readUnit?_ordinalUnit n rest
  | hashed h => exact readUnit?_hashUnit h rest

/-! ## A unit determines what it was written for -/

/-- The number that base-62 digits stand for, the highest first. -/
def number (cs : List Char) : Nat :=
  cs.foldl (fun n c => n * radix + (symbolValue? c).getD 0) 0

theorem number_append_symbol (cs : List Char) {d : Nat} (hd : d < radix) :
    number (cs ++ [symbol d]) = number cs * radix + d := by
  rw [number, List.foldl_append, List.foldl_cons, List.foldl_nil, symbolValue?_symbol hd]
  rfl

/-- Without its lowest digit a number takes a place less. -/
theorem div_radix_lt_pow {n places : Nat} (h : n < radix ^ (places + 1)) :
    n / radix < radix ^ places :=
  Nat.div_lt_of_lt_mul (by rwa [Nat.pow_succ, Nat.mul_comm] at h)

theorem number_digits {places n : Nat} (h : n < radix ^ places) :
    number (digits places n) = n := by
  induction places generalizing n with
  | zero =>
      have : n = 0 := by simpa using h
      rw [this]
      rfl
  | succ places ih =>
      rw [digits]
      split
      · rename_i hn
        rw [← List.nil_append [symbol n], number_append_symbol [] hn, number]
        simp
      · rw [number_append_symbol _ (mod_radix_lt n), ih (div_radix_lt_pow h)]
        exact Nat.div_add_mod' n radix

theorem toNat_lt_pow_hashPlaces (h : UInt32) : h.toNat < radix ^ hashPlaces :=
  Nat.lt_of_lt_of_le h.toNat_lt (by decide)

theorem hashUnit_injective {g h : UInt32} (heq : hashUnit g = hashUnit h) : g = h := by
  rw [hashUnit, hashUnit, List.cons_append, List.cons_append, List.cons.injEq] at heq
  have hdigits := List.append_cancel_right heq.2
  have hnumber := congrArg number hdigits
  rw [number_digits (toNat_lt_pow_hashPlaces g), number_digits (toNat_lt_pow_hashPlaces h)]
    at hnumber
  exact UInt32.toNat_inj.1 hnumber

theorem count_escape_ordinalUnit (n : Nat) : (ordinalUnit n).count escape = n / radix := by
  have hsymbol : symbol (n % radix) ≠ escape :=
    isSymbol_ne (isSymbol_symbol (mod_radix_lt n)) (by decide)
  rw [ordinalUnit, List.count_append, List.count_replicate_self,
    List.count_singleton, if_neg (by simpa using hsymbol), Nat.add_zero]

theorem ordinalUnit_injective {m n : Nat} (h : ordinalUnit m = ordinalUnit n) : m = n := by
  have hdiv : m / radix = n / radix := by
    rw [← count_escape_ordinalUnit, h, count_escape_ordinalUnit]
  rw [ordinalUnit, ordinalUnit, hdiv] at h
  have hlast := List.append_cancel_left h
  have hmod := symbol_injective (mod_radix_lt m) (mod_radix_lt n) (List.singleton_inj.1 hlast)
  rw [← Nat.div_add_mod m radix, ← Nat.div_add_mod n radix, hdiv, hmod]

theorem ordinalUnit_ne_hashUnit (n : Nat) (h : UInt32) : ordinalUnit n ≠ hashUnit h := by
  intro heq
  have hmem : marker ∈ ordinalUnit n := by
    rw [heq, hashUnit]
    simp
  rcases List.mem_append.1 hmem with hm | hm
  · exact absurd (List.eq_of_mem_replicate hm) (by decide)
  · exact isSymbol_ne (isSymbol_symbol (mod_radix_lt n)) (by decide)
      (List.mem_singleton.1 hm).symm

/-- Different fragments have different units. -/
theorem unit_injective {u v : Fragment} (h : u.unit = v.unit) : u = v := by
  cases u with
  | indexed m =>
      cases v with
      | indexed n => rw [ordinalUnit_injective h]
      | hashed k => exact absurd h (ordinalUnit_ne_hashUnit m k)
  | hashed k =>
      cases v with
      | indexed n => exact absurd h.symm (ordinalUnit_ne_hashUnit n k)
      | hashed l => rw [hashUnit_injective h]

/-! ## Runs of units -/

theorem unit_ne_nil (u : Fragment) : u.unit ≠ [] := by
  cases u with
  | indexed n => simp [Fragment.unit, ordinalUnit]
  | hashed h => simp [Fragment.unit, hashUnit]

theorem append_unit_injective {u v : Fragment} {xs ys : List Char}
    (h : u.unit ++ xs = v.unit ++ ys) : u = v ∧ xs = ys := by
  have hread := readUnit?_unit u xs
  rw [h, readUnit?_unit v ys, Option.some.injEq, Prod.mk.injEq] at hread
  exact ⟨(unit_injective hread.1).symm, hread.2.symm⟩

/-- Two runs of units with the same text are the same run. -/
theorem unit_flatMap_injective {us vs : List Fragment}
    (h : us.flatMap Fragment.unit = vs.flatMap Fragment.unit) : us = vs := by
  induction us generalizing vs with
  | nil =>
      cases vs with
      | nil => rfl
      | cons v vs => simp [unit_ne_nil] at h
  | cons u us ih =>
      cases vs with
      | nil => simp [unit_ne_nil] at h
      | cons v vs =>
          rw [List.flatMap_cons, List.flatMap_cons] at h
          obtain ⟨rfl, hrest⟩ := append_unit_injective h
          rw [ih hrest]

/-- The units of a token. -/
def tokenUnits (key : Fragment) (conditions : List Nat) (value : Fragment) : List Fragment :=
  key :: conditions.map .indexed ++ [value]

theorem token_eq_ofList (key : Fragment) (conditions : List Nat) (value : Fragment) :
    token key.unit conditions value =
      String.ofList ((tokenUnits key conditions value).flatMap Fragment.unit) := by
  rw [token, tokenUnits, List.flatMap_append, List.flatMap_cons, List.flatMap_singleton,
    List.flatMap_map]
  rfl

/-- A token determines its property unit, its conditions and its value. -/
theorem token_injective {k l : Fragment} {cs ds : List Nat} {v w : Fragment}
    (h : token k.unit cs v = token l.unit ds w) : k = l ∧ cs = ds ∧ v = w := by
  rw [token_eq_ofList, token_eq_ofList, String.ofList_inj] at h
  have hunits := unit_flatMap_injective h
  rw [tokenUnits, tokenUnits, List.cons_append, List.cons_append, List.cons.injEq] at hunits
  obtain ⟨hk, hrest⟩ := hunits
  obtain ⟨hcs, hv⟩ := List.append_inj' hrest rfl
  exact ⟨hk, (List.map_inj_right fun _ _ h => Fragment.indexed.inj h).1 hcs,
    List.singleton_inj.1 hv⟩

/-! ## Taking tokens apart -/

theorem units?_of_readUnit? {cs unit rest : List Char} (h : readUnit? cs = some (unit, rest)) :
    units? cs = (units? rest).map (unit :: ·) := by
  cases cs with
  | nil => cases h
  | cons c cs =>
      rw [units?]
      split
      · rename_i hnone
        rw [h] at hnone
        cases hnone
      · rename_i unit' rest' hsome
        rw [h] at hsome
        cases hsome
        rfl

theorem units?_flatMap (us : List Fragment) :
    units? (us.flatMap Fragment.unit) = some (us.map Fragment.unit) := by
  induction us with
  | nil => rw [List.flatMap_nil, units?, List.map_nil]
  | cons u us ih =>
      rw [List.flatMap_cons, units?_of_readUnit? (readUnit?_unit u _), ih]
      rfl

theorem parseToken?_of_units? {token : String} {first last : List Char}
    {middle : List (List Char)} (h : units? token.toList = some (first :: (middle ++ [last]))) :
    parseToken? token =
      some
        { property := String.ofList first
          conditions := String.ofList middle.flatten
          value := String.ofList last } := by
  have hdrop : (middle ++ [last]).dropLast = middle := List.dropLast_concat
  have hlast : (middle ++ [last]).getLast? = some last := List.getLast?_concat
  rw [parseToken?, h]
  cases hrest : middle ++ [last] with
  | nil => exact absurd hrest (by simp)
  | cons second more =>
      rw [hrest] at hdrop hlast
      dsimp only
      rw [hdrop, hlast]
      rfl

/-- A token is taken apart into what it was made of. -/
theorem parseToken?_token (key : Fragment) (conditions : List Nat) (value : Fragment) :
    parseToken? (token key.unit conditions value) =
      some
        { property := String.ofList key.unit
          conditions := String.ofList (conditions.flatMap ordinalUnit)
          value := String.ofList value.unit } := by
  rw [List.flatMap_def]
  refine parseToken?_of_units? ?_
  rw [token_eq_ofList, String.toList_ofList, units?_flatMap, tokenUnits, List.cons_append,
    List.map_cons, List.map_append, List.map_map]
  rfl

/-- The unit of the property that a class sets. A class that is no token has
none. -/
def propertyUnit? (token : String) : Option String :=
  (parseToken? token).map (·.property)

theorem propertyUnit?_token (key : Fragment) (conditions : List Nat) (value : Fragment) :
    propertyUnit? (token key.unit conditions value) = some (String.ofList key.unit) := by
  rw [propertyUnit?, parseToken?_token]
  rfl

/-! ## Characters -/

/-- A character that a unit may hold. -/
def isUnitChar (c : Char) : Bool := isSymbol c || c == escape || c == marker

theorem unit_isUnitChar (u : Fragment) : ∀ c ∈ u.unit, isUnitChar c := by
  intro c hc
  cases u with
  | indexed n =>
      rcases List.mem_append.1 hc with hc | hc
      · rw [List.eq_of_mem_replicate hc]
        decide
      · rw [List.mem_singleton.1 hc, isUnitChar, isSymbol_symbol (mod_radix_lt n)]
        rfl
  | hashed h =>
      rw [Fragment.unit, hashUnit, List.cons_append] at hc
      rcases List.mem_cons.1 hc with rfl | hc
      · decide
      · rcases List.mem_append.1 hc with hc | hc
        · rw [isUnitChar, digits_isSymbol _ _ c hc]
          rfl
        · rw [List.mem_singleton.1 hc]
          decide

/-- No character of a unit separates the classes of a class list. -/
theorem not_isSeparator_of_isUnitChar {c : Char} (h : isUnitChar c) :
    Text.isSeparator c = false := by
  cases hsep : Text.isSeparator c with
  | false => rfl
  | true =>
      simp only [Text.isSeparator, Bool.or_eq_true, beq_iff_eq] at hsep
      rcases hsep with (((rfl | rfl) | rfl) | rfl) | rfl <;> exact absurd h (by decide)

end AtomicStyles.Code
