import AtomicStyles.Proofs.UnitBoundaries

/-!
# The grammar of units

A unit is a run of escapes before a letter or digit, or letters and digits between two
markers. This is the grammar of class tokens, and it is wider than what is ever written:
a hash may have any number of digits and zeros in front.

The reader finds a unit exactly where one starts, and since a unit tells where it ends,
there is one at most (`readUnit?_eq_some_iff`). Everything else is read off this:
which texts are runs of units, which tokens are taken apart and into what, and at which
offsets a unit is found.
-/

namespace AtomicStyles

/-- What stands after the first `n` bytes is what is left when as many are taken off. -/
theorem Text.dropBytes_eq_some_iff {cs rest : List Char} {n : Nat} :
    dropBytes cs n = some rest ↔ ∃ before, cs = before ++ rest ∧ String.utf8Len before = n := by
  constructor
  · intro h
    induction cs generalizing n with
    | nil =>
        rw [dropBytes] at h
        split at h
        · next hn =>
            cases h
            exact ⟨[], rfl, hn.symm⟩
        · cases h
    | cons c cs ih =>
        rw [dropBytes] at h
        split at h
        · next hn =>
            cases h
            exact ⟨[], rfl, hn.symm⟩
        · split at h
          · next hsize =>
              obtain ⟨before, rfl, hlen⟩ := ih h
              refine ⟨c :: before, rfl, ?_⟩
              rw [String.utf8Len_cons, hlen]
              omega
          · cases h
  · rintro ⟨before, rfl, rfl⟩
    exact dropBytes_append before rest

namespace Code

/-- The units: an ordinal, which ends with its first letter or digit, or a hash. -/
inductive IsUnit : List Char → Prop
  | ordinal (escapes : Nat) {c : Char} (hc : c.isAlphanum) :
      IsUnit (List.replicate escapes '_' ++ [c])
  | hash {body : List Char} (hne : body ≠ []) (hbody : ∀ c ∈ body, c.isAlphanum) :
      IsUnit ('-' :: body ++ ['-'])

theorem isAlphanum_iff {c : Char} :
    c.isAlphanum ↔ ('a' ≤ c ∧ c ≤ 'z') ∨ ('A' ≤ c ∧ c ≤ 'Z') ∨ ('0' ≤ c ∧ c ≤ '9') := by
  have hupper : c.isUpper ↔ 'A' ≤ c ∧ c ≤ 'Z' := decide_eq_true_iff
  have hrange : ∀ low high : Char, (decide (low ≤ c) && decide (c ≤ high)) = true ↔
      low ≤ c ∧ c ≤ high := fun low high => by
    rw [Bool.and_eq_true, decide_eq_true_iff, decide_eq_true_iff]
  have hlower : c.isLower ↔ 'a' ≤ c ∧ c ≤ 'z' := hrange 'a' 'z'
  have hdigit : c.isDigit ↔ '0' ≤ c ∧ c ≤ '9' := hrange '0' '9'
  change (c.isUpper || c.isLower || c.isDigit) = true ↔ _
  rw [Bool.or_eq_true, Bool.or_eq_true, hupper, hlower, hdigit, or_assoc]
  exact or_left_comm

/-- The symbols are the ASCII letters and digits. -/
theorem isSymbol_iff {c : Char} : isSymbol c ↔ c.isAlphanum := by
  rw [isAlphanum_iff, isSymbol, symbolValue?]
  split
  · next h => exact iff_of_true rfl (.inl h)
  · next hsmall =>
      split
      · next h => exact iff_of_true rfl (.inr (.inl h))
      · next hcapital =>
          split
          · next h => exact iff_of_true rfl (.inr (.inr h))
          · next hdigit =>
              refine iff_of_false (by simp) ?_
              rintro (h | h | h)
              · exact hsmall h
              · exact hcapital h
              · exact hdigit h

theorem IsUnit.isUnitChar {unit : List Char} (h : IsUnit unit) : ∀ c ∈ unit, isUnitChar c := by
  intro c hc
  cases h with
  | ordinal escapes halnum =>
      rcases List.mem_append.1 hc with hc | hc
      · rw [List.eq_of_mem_replicate hc]
        decide
      · rw [List.mem_singleton.1 hc, Code.isUnitChar, isSymbol_iff.2 halnum]
        rfl
  | hash hne hbody =>
      rcases List.mem_append.1 hc with hc | hc
      · rcases List.mem_cons.1 hc with rfl | hc
        · decide
        · rw [Code.isUnitChar, isSymbol_iff.2 (hbody c hc)]
          rfl
      · rw [List.mem_singleton.1 hc]
        decide

theorem IsUnit.ascii {unit : List Char} (h : IsUnit unit) : ∀ c ∈ unit, c.toNat < 128 :=
  fun c hc => ascii_of_isUnitChar (h.isUnitChar c hc)

theorem IsUnit.ne_nil {unit : List Char} (h : IsUnit unit) : unit ≠ [] := by
  cases h with
  | ordinal => simp
  | hash => simp

/-! ## Reading one unit -/

theorem readUnit?_of_isUnit {unit : List Char} (h : IsUnit unit) (rest : List Char) :
    readUnit? (unit ++ rest) = some (unit, rest) := by
  cases h with
  | @ordinal escapes c hc =>
      have hc := isSymbol_iff.2 hc
      have hread := readOrdinal?_replicate escapes hc rest
      rw [List.append_assoc, List.singleton_append]
      cases escapes with
      | zero =>
          rw [List.replicate_zero, List.nil_append, readUnit?, if_neg (isSymbol_ne hc (by decide))]
          exact hread
      | succ k =>
          rw [List.replicate_succ, List.cons_append, readUnit?, if_neg (by decide)]
          exact hread
  | @hash body hne hbody =>
      rw [List.append_assoc, List.cons_append, readUnit?, if_pos (by decide),
        List.singleton_append]
      exact readHash?_symbols hne (fun c hc => isSymbol_iff.2 (hbody c hc)) rest

theorem ordinal_of_readOrdinal? {cs unit rest : List Char}
    (h : readOrdinal? cs = some (unit, rest)) :
    ∃ escapes c, c.isAlphanum ∧ unit = List.replicate escapes '_' ++ [c] := by
  induction cs generalizing unit with
  | nil => cases h
  | cons c cs ih =>
      rw [readOrdinal?] at h
      split at h
      · next hc =>
          obtain ⟨⟨tail, rest'⟩, hread, heq⟩ := Option.map_eq_some_iff.1 h
          cases heq
          obtain ⟨escapes, d, hd, rfl⟩ := ih hread
          refine ⟨escapes + 1, d, hd, ?_⟩
          rw [hc, List.replicate_succ, List.cons_append]
          rfl
      · split at h
        · next hc =>
            cases h
            exact ⟨0, c, isSymbol_iff.1 hc, rfl⟩
        · cases h

theorem isUnit_of_readHash? {cs unit rest : List Char} (h : readHash? cs = some (unit, rest)) :
    IsUnit unit := by
  unfold readHash? at h
  dsimp only at h
  split at h
  · cases h
  · next closing tail hdrop =>
      split at h
      · next hbody =>
          rw [Bool.and_eq_true, Bool.not_eq_true', List.isEmpty_eq_false_iff, List.all_eq_true]
            at hbody
          have hclosing : closing = marker := by
            have hhead := List.head?_dropWhile_not (· != marker) cs
            rw [hdrop] at hhead
            simpa using hhead
          cases h
          rw [hclosing]
          exact .hash hbody.1 fun c hc => isSymbol_iff.1 (hbody.2 c hc)
      · cases h

theorem isUnit_of_readUnit? {cs unit rest : List Char} (h : readUnit? cs = some (unit, rest)) :
    IsUnit unit := by
  cases cs with
  | nil => cases h
  | cons c cs =>
      rw [readUnit?] at h
      split at h
      · exact isUnit_of_readHash? h
      · obtain ⟨escapes, d, hd, rfl⟩ := ordinal_of_readOrdinal? h
        exact .ordinal escapes hd

/-- A unit is read where the text starts with one, and there is one at most. -/
theorem readUnit?_eq_some_iff {cs unit rest : List Char} :
    readUnit? cs = some (unit, rest) ↔ IsUnit unit ∧ cs = unit ++ rest := by
  constructor
  · intro h
    exact ⟨isUnit_of_readUnit? h, readUnit?_append h⟩
  · rintro ⟨hunit, rfl⟩
    exact readUnit?_of_isUnit hunit rest

/-! ## Runs of units -/

theorem units?_eq_some_iff {cs : List Char} {us : List (List Char)} :
    units? cs = some us ↔ (∀ unit ∈ us, IsUnit unit) ∧ cs = us.flatten := by
  constructor
  · intro h
    fun_induction units? cs generalizing us with
    | case1 =>
        cases h
        exact ⟨by simp, rfl⟩
    | case2 => cases h
    | case3 c cs unit rest hread ih =>
        obtain ⟨more, hmore, rfl⟩ := Option.map_eq_some_iff.1 h
        obtain ⟨hunit, hcs⟩ := readUnit?_eq_some_iff.1 hread
        obtain ⟨hunits, rfl⟩ := ih hmore
        exact ⟨List.forall_mem_cons.2 ⟨hunit, hunits⟩, by rw [hcs, List.flatten_cons]⟩
  · rintro ⟨hunits, rfl⟩
    induction us with
    | nil => rw [List.flatten_nil, units?]
    | cons unit more ih =>
        obtain ⟨hunit, hmore⟩ := List.forall_mem_cons.1 hunits
        rw [List.flatten_cons, units?_of_readUnit? (readUnit?_of_isUnit hunit _), ih hmore]
        rfl

/-- A token that is taken apart is a run of at least two units: the first, the last
and those between. -/
theorem parseToken?_eq_some_iff {token : String} {parts : TokenParts} :
    parseToken? token = some parts ↔
      ∃ first middle last, (∀ unit ∈ first :: (middle ++ [last]), IsUnit unit) ∧
        token.toList = (first :: (middle ++ [last])).flatten ∧
        parts = ⟨String.ofList first, String.ofList middle.flatten, String.ofList last⟩ := by
  constructor
  · intro h
    rw [parseToken?] at h
    split at h
    · next first second more hunits =>
        obtain ⟨hmem, htoken⟩ := units?_eq_some_iff.1 hunits
        have hne : second :: more ≠ [] := List.cons_ne_nil second more
        refine ⟨first, (second :: more).dropLast, (second :: more).getLast hne, ?_, ?_, ?_⟩
        · rwa [List.dropLast_append_getLast hne]
        · rwa [List.dropLast_append_getLast hne]
        · dsimp only at h
          rw [List.getLast?_eq_getLast_of_ne_nil hne] at h
          exact (Option.some.inj h).symm
    · cases h
  · rintro ⟨first, middle, last, hmem, htoken, rfl⟩
    exact parseToken?_of_units? (units?_eq_some_iff.2 ⟨hmem, htoken⟩)

theorem parseToken?_isSome_iff {token : String} :
    (parseToken? token).isSome ↔
      ∃ units : List (List Char), 2 ≤ units.length ∧ (∀ unit ∈ units, IsUnit unit) ∧
        token.toList = units.flatten := by
  rw [Option.isSome_iff_exists]
  constructor
  · rintro ⟨parts, hparts⟩
    obtain ⟨first, middle, last, hunits, htoken, -⟩ := parseToken?_eq_some_iff.1 hparts
    refine ⟨first :: (middle ++ [last]), ?_, hunits, htoken⟩
    rw [List.length_cons, List.length_append, List.length_singleton]
    omega
  · rintro ⟨units, hlength, hunits, htoken⟩
    cases units with
    | nil => exact absurd hlength (by decide)
    | cons first rest =>
        rcases List.eq_nil_or_concat' rest with rfl | ⟨middle, last, rfl⟩
        · exact absurd hlength (Nat.not_succ_le_self 1)
        · exact ⟨_, parseToken?_eq_some_iff.2 ⟨first, middle, last, hunits, htoken, rfl⟩⟩

/-- A token can be cut into units in one way. -/
theorem units_unique {cs : List Char} {us vs : List (List Char)}
    (hus : ∀ unit ∈ us, IsUnit unit) (hvs : ∀ unit ∈ vs, IsUnit unit)
    (hcs : cs = us.flatten) (hcs' : cs = vs.flatten) : us = vs :=
  Option.some.inj
    ((units?_eq_some_iff.2 ⟨hus, hcs⟩).symm.trans (units?_eq_some_iff.2 ⟨hvs, hcs'⟩))

/-- The parts of a token, put together again, are the token. -/
theorem parts_append {token : String} {parts : TokenParts} (h : parseToken? token = some parts) :
    parts.property ++ parts.conditions ++ parts.value = token := by
  obtain ⟨first, middle, last, -, htoken, rfl⟩ := parseToken?_eq_some_iff.1 h
  rw [List.flatten_cons, List.flatten_append, List.flatten_singleton, ← List.append_assoc]
    at htoken
  rw [← String.ofList_append, ← String.ofList_append, ← htoken, String.ofList_toList]

/-- The end of a unit is found where one starts, and each of its characters is one
byte. -/
theorem unitEnd?_eq_some_iff {token : String} {start stop : Nat} :
    unitEnd? token start = some stop ↔
      ∃ before unit after, token.toList = before ++ unit ++ after ∧ IsUnit unit ∧
        String.utf8Len before = start ∧ stop = start + unit.length := by
  rw [unitEnd?, Option.bind_eq_bind, Option.bind_eq_some_iff]
  constructor
  · rintro ⟨cs, hdrop, hread⟩
    obtain ⟨⟨unit, after⟩, hfound, hstop⟩ := Option.bind_eq_some_iff.1 hread
    obtain ⟨before, htoken, hlen⟩ := Text.dropBytes_eq_some_iff.1 hdrop
    obtain ⟨hunit, rfl⟩ := readUnit?_eq_some_iff.1 hfound
    refine ⟨before, unit, after, ?_, hunit, hlen, (Option.some.inj hstop).symm⟩
    rw [htoken, List.append_assoc]
  · rintro ⟨before, unit, after, htoken, hunit, hlen, rfl⟩
    rw [List.append_assoc] at htoken
    exact ⟨unit ++ after, Text.dropBytes_eq_some_iff.2 ⟨before, htoken, hlen⟩,
      by rw [readUnit?_of_isUnit hunit]; rfl⟩

/-! ## Complete units

A unit that was cut out of its token is recognised by what it looks like: as an
ordinal, when one can be read off it, and as a hash by its two markers. The first
test is exact. The second does not look between the markers. -/

/-- A text that is marked as a hash but holds other than letters and digits. -/
def MalformedHash (cs : List Char) : Prop :=
  ∃ body, (∃ c ∈ body, ¬ c.isAlphanum) ∧ cs = '-' :: body ++ ['-']

theorem ordinal?_isSome_iff {cs : List Char} :
    (ordinal? cs).isSome ↔
      ∃ escapes c, c.isAlphanum ∧ cs = List.replicate escapes '_' ++ [c] := by
  constructor
  · intro h
    obtain ⟨n, hn⟩ := Option.isSome_iff_exists.1 h
    exact ⟨n / radix, symbol (n % radix), isSymbol_iff.1 (isSymbol_symbol (mod_radix_lt n)),
      (ordinalUnit_of_ordinal? hn).symm⟩
  · rintro ⟨escapes, c, hc, rfl⟩
    obtain ⟨d, hd⟩ := Option.isSome_iff_exists.1 (isSymbol_iff.2 hc)
    exact Option.isSome_iff_exists.2 ⟨_, ordinal?_replicate escapes hd⟩

theorem isHashed_iff {cs : List Char} :
    isHashed cs ↔ ∃ body, body ≠ [] ∧ cs = '-' :: body ++ ['-'] := by
  rw [isHashed, Bool.and_eq_true, Bool.and_eq_true, beq_iff_eq, beq_iff_eq, decide_eq_true_eq]
  constructor
  · rintro ⟨⟨hfirst, hlast⟩, hlength⟩
    obtain ⟨tail, rfl⟩ := List.head?_eq_some_iff.1 hfirst
    rw [List.length_cons] at hlength
    have hne : tail ≠ [] := List.length_pos_iff.1 (by omega)
    rw [List.getLast?_cons, List.getLast?_eq_getLast_of_ne_nil hne, Option.getD_some,
      Option.some.injEq] at hlast
    refine ⟨tail.dropLast, List.length_pos_iff.1 ?_, ?_⟩
    · rw [List.length_dropLast]
      omega
    · rw [List.cons_append]
      exact congrArg _ ((List.dropLast_concat_getLast hne).symm.trans (by rw [hlast]; rfl))
  · rintro ⟨body, hne, rfl⟩
    have := List.length_pos_iff.2 hne
    refine ⟨⟨rfl, List.getLast?_concat⟩, ?_⟩
    rw [List.length_append, List.length_cons, List.length_singleton]
    omega

/-- Reading from the start comes to the end of the text where all of it is one unit. -/
theorem unitEnd?_zero_eq_iff {u : String} :
    unitEnd? u 0 = some u.utf8ByteSize ↔ IsUnit u.toList := by
  rw [unitEnd?_eq_some_iff, ← String.utf8Len_toList]
  constructor
  · rintro ⟨before, unit, after, hu, hunit, hbefore, hstop⟩
    obtain rfl := String.utf8Len_eq_zero.1 hbefore
    rw [hu, List.nil_append, String.utf8Len_append,
      Text.utf8Len_of_ascii hunit.ascii] at hstop
    obtain rfl := String.utf8Len_eq_zero.1 (show String.utf8Len after = 0 by omega)
    rwa [hu, List.nil_append, List.append_nil]
  · intro hunit
    refine ⟨[], u.toList, [], by rw [List.nil_append, List.append_nil], hunit, rfl, ?_⟩
    rw [Text.utf8Len_of_ascii hunit.ascii, Nat.zero_add]

theorem not_isHashed_of_ordinal? {cs : List Char} (h : (ordinal? cs).isSome) :
    ¬ isHashed cs := by
  intro hhashed
  obtain ⟨body, -, rfl⟩ := isHashed_iff.1 hhashed
  rw [List.cons_append, ordinal?_cons (by simp), if_neg (by decide)] at h
  cases h

theorem MalformedHash.isHashed {cs : List Char} (h : MalformedHash cs) : isHashed cs := by
  obtain ⟨body, ⟨c, hc, -⟩, rfl⟩ := h
  exact isHashed_iff.2 ⟨body, List.ne_nil_of_mem hc, rfl⟩

/-- The kinds of units, as the tests tell them. -/
theorem isUnit_iff {cs : List Char} :
    IsUnit cs ↔ (ordinal? cs).isSome ∨ (isHashed cs ∧ ¬ MalformedHash cs) := by
  constructor
  · intro h
    cases h with
    | ordinal escapes hc => exact .inl (ordinal?_isSome_iff.2 ⟨escapes, _, hc, rfl⟩)
    | @hash body hne hbody =>
        refine .inr ⟨isHashed_iff.2 ⟨body, hne, rfl⟩, ?_⟩
        rintro ⟨other, ⟨c, hc, hbad⟩, heq⟩
        have hother := List.append_cancel_right (List.cons.inj heq).2
        exact hbad (hbody c (hother ▸ hc))
  · rintro (h | ⟨hhashed, hwell⟩)
    · obtain ⟨escapes, c, hc, rfl⟩ := ordinal?_isSome_iff.1 h
      exact .ordinal escapes hc
    · obtain ⟨body, hne, rfl⟩ := isHashed_iff.1 hhashed
      refine .hash hne fun c hc => ?_
      by_contra hbad
      exact hwell ⟨body, ⟨c, hc, hbad⟩, rfl⟩

/-- The reader takes a text for one complete unit where exactly one of the two tests
finds its kind, except that a malformed hash passes for a hash. A text that is no
complete unit has no ordinal, and malformed hashes are all that is still taken for
a hash. -/
theorem complete_unit_kinds (u : String) :
    (unitEnd? u 0 = some u.utf8ByteSize ↔
      Xor (ordinal? u.toList).isSome (isHashed u.toList ∧ ¬ MalformedHash u.toList)) ∧
    (unitEnd? u 0 ≠ some u.utf8ByteSize →
      ordinal? u.toList = none ∧ (isHashed u.toList ↔ MalformedHash u.toList)) ∧
    ((unitEnd? u 0 = some u.utf8ByteSize ↔
        Xor (ordinal? u.toList).isSome (isHashed u.toList)) ↔
      ¬ MalformedHash u.toList) := by
  have hapart : (ordinal? u.toList).isSome → ¬ isHashed u.toList := not_isHashed_of_ordinal?
  have hmarked : MalformedHash u.toList → isHashed u.toList := MalformedHash.isHashed
  simp only [ne_eq, unitEnd?_zero_eq_iff, isUnit_iff, ← Option.not_isSome_iff_eq_none,
    xor_iff_or_and_not_and]
  grind

/-- Two hashes side by side are taken for one. -/
theorem complete_unit_kinds_adjacent :
    unitEnd? "-a--b-" 0 ≠ some "-a--b-".utf8ByteSize ∧
      ordinal? "-a--b-".toList = none ∧ MalformedHash "-a--b-".toList := by
  have hincomplete : unitEnd? "-a--b-" 0 ≠ some "-a--b-".utf8ByteSize := by decide
  obtain ⟨hordinal, hhashed⟩ := (complete_unit_kinds "-a--b-").2.1 hincomplete
  exact ⟨hincomplete, hordinal, hhashed.1 (by decide)⟩

/-- The tests do not agree with the reader on every text. -/
theorem malformed_hash_passes :
    ¬ ∀ u : String,
      (unitEnd? u 0 = some u.utf8ByteSize ↔
        Xor (ordinal? u.toList).isSome (isHashed u.toList)) ∧
      (unitEnd? u 0 ≠ some u.utf8ByteSize →
        (ordinal? u.toList).isSome = false ∧ isHashed u.toList = false) := by
  intro h
  have hpasses := ((h "-!-").2 (by decide)).2
  exact absurd hpasses (by decide)

end Code

end AtomicStyles
