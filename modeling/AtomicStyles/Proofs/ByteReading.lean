import AtomicStyles.Proofs.UnitGrammar

/-!
# Tokens are read byte by byte

A class attribute holds text of every kind, and it is read at byte offsets. An offset
may point into a character, and a slice that starts or ends there has no text.

So the reader of units and tokens stands here once more, over the bytes of the text and
with slices that end everything when they fail. On every text and at every offset it does
what the library does with characters, so no slice fails (`readUnit_eq`,
`parseToken_eq`).

Two facts carry this. Every test that the reader makes treats a byte as the character with
its code, and no byte of a character outside ASCII passes one. And a unit is plain ASCII,
so where one is found among the bytes of a text there are characters before it and behind
it, and not parts of them.
-/

namespace AtomicStyles

/-- Why there is no slice. -/
inductive BadSlice where
  /-- The bytes end before the bound. -/
  | outOfRange
  /-- A bound stands inside a character, or the bounds are the wrong way round. -/
  | noText

namespace Text

/-! ## The bytes of a text -/

/-- The bytes of a text, in UTF-8. -/
def bytes (s : String) : List UInt8 := s.toUTF8.data.toList

/-- The text between two byte offsets. -/
def slice (s : String) (start stop : Nat) : Except BadSlice String :=
  match dropBytes s.toList start, dropBytes s.toList stop with
  | some tail, some rest =>
      if start ≤ stop then .ok (String.ofList (tail.take (tail.length - rest.length)))
      else .error .noText
  | _, _ => .error .noText

theorem bytes_eq (s : String) : bytes s = s.toList.flatMap String.utf8EncodeChar := by
  conv_lhs => rw [← String.ofList_toList (s := s)]
  rw [bytes, String.toUTF8_eq_toByteArray, String.toByteArray_ofList, List.utf8Encode,
    List.data_toByteArray, List.toList_toArray]

theorem length_flatMap_utf8EncodeChar (cs : List Char) :
    (cs.flatMap String.utf8EncodeChar).length = String.utf8Len cs := by
  induction cs with
  | nil => rfl
  | cons c cs ih =>
      rw [List.flatMap_cons, List.length_append, String.length_utf8EncodeChar, ih,
        String.utf8Len_cons, Nat.add_comm]

theorem length_bytes (s : String) : (bytes s).length = String.utf8Len s.toList := by
  rw [bytes_eq, length_flatMap_utf8EncodeChar]

theorem utf8Len_lt_length_bytes {s : String} {before rest : List Char} {c : Char}
    (h : s.toList = before ++ c :: rest) : String.utf8Len before < (bytes s).length := by
  have := c.utf8Size_pos
  rw [length_bytes, h, String.utf8Len_append, String.utf8Len_cons]
  omega

theorem slice_eq {s : String} {before inner after : List Char}
    (h : s.toList = before ++ inner ++ after) :
    slice s (String.utf8Len before) (String.utf8Len (before ++ inner)) =
      .ok (String.ofList inner) := by
  have hstart : dropBytes s.toList (String.utf8Len before) = some (inner ++ after) := by
    rw [h, List.append_assoc, dropBytes_append]
  have hstop : dropBytes s.toList (String.utf8Len (before ++ inner)) = some after := by
    rw [h, dropBytes_append]
  have hlength : (inner ++ after).length - after.length = inner.length := by
    rw [List.length_append, Nat.add_sub_cancel]
  rw [slice, hstart, hstop]
  dsimp only
  rw [if_pos (by rw [String.utf8Len_append]; omega), hlength, List.take_left]

/-- The bytes between two offsets are those of the text between. -/
theorem drop_take_bytes {s : String} {before inner after : List Char}
    (h : s.toList = before ++ inner ++ after) :
    ((bytes s).drop (String.utf8Len before)).take (String.utf8Len inner) =
      bytes (String.ofList inner) := by
  rw [bytes_eq, bytes_eq, h, String.toList_ofList, List.append_assoc, List.flatMap_append,
    List.flatMap_append, ← length_flatMap_utf8EncodeChar before, List.drop_left,
    ← length_flatMap_utf8EncodeChar inner, List.take_left]

theorem slice_of_ascii {s : String} {before inner after : List Char}
    (h : s.toList = before ++ inner ++ after) (hbefore : ∀ c ∈ before, c.toNat < 128)
    (hinner : ∀ c ∈ inner, c.toNat < 128) :
    slice s before.length (before.length + inner.length) = .ok (String.ofList inner) := by
  have hslice := slice_eq h
  rwa [String.utf8Len_append, utf8Len_of_ascii hbefore, utf8Len_of_ascii hinner] at hslice

/-- A property of all bytes, looked up byte by byte. -/
theorem forall_byte {P : UInt8 → Prop} (h : ∀ n < 256, P (UInt8.ofNat n)) (b : UInt8) : P b := by
  have hb := h b.toNat b.toNat_lt
  rwa [UInt8.ofNat_toNat] at hb

theorem map_utf8EncodeChar {c : Char} (h : c.toNat < 128) :
    (String.utf8EncodeChar c).map Char.ofUInt8 = [c] := by
  rw [String.utf8EncodeChar_eq_singleton (utf8Size_of_ascii h), List.map_singleton,
    List.singleton_inj]
  refine Char.ext (UInt32.toNat_inj.1 ?_)
  have hcode : c.val.toNat < 128 := h
  change c.val.toUInt8.toUInt32.toNat = c.val.toNat
  rw [UInt8.toNat_toUInt32, UInt32.toNat_toUInt8]
  omega

/-- No byte of a character outside ASCII is ASCII. -/
theorem le_of_mem_utf8EncodeChar {c : Char} (h : 128 ≤ c.toNat) :
    ∀ b ∈ String.utf8EncodeChar c, 128 ≤ (Char.ofUInt8 b).toNat := by
  intro b hb
  have hcode : (Char.ofUInt8 b).toNat = b.toNat := UInt8.toNat_toUInt32 b
  have hval : 128 ≤ c.val.toNat := h
  rw [hcode]
  -- two to four bytes, of which each has its highest bit set
  simp only [String.utf8EncodeChar] at hb
  split at hb
  · omega
  · split at hb
    · simp only [List.mem_cons, List.not_mem_nil, or_false] at hb
      rcases hb with rfl | rfl <;> simp only [UInt8.toNat_ofNat'] <;> omega
    · split at hb
      · simp only [List.mem_cons, List.not_mem_nil, or_false] at hb
        rcases hb with rfl | rfl | rfl <;> simp only [UInt8.toNat_ofNat'] <;> omega
      · simp only [List.mem_cons, List.not_mem_nil, or_false] at hb
        rcases hb with rfl | rfl | rfl | rfl <;> simp only [UInt8.toNat_ofNat'] <;> omega

/-- The characters that have the bytes of a text as their codes. -/
def byteChars (cs : List Char) : List Char :=
  (cs.flatMap String.utf8EncodeChar).map Char.ofUInt8

theorem byteChars_cons (c : Char) (cs : List Char) :
    byteChars (c :: cs) = (String.utf8EncodeChar c).map Char.ofUInt8 ++ byteChars cs := by
  rw [byteChars, List.flatMap_cons, List.map_append, byteChars]

theorem byteChars_append (cs ds : List Char) :
    byteChars (cs ++ ds) = byteChars cs ++ byteChars ds := by
  rw [byteChars, List.flatMap_append, List.map_append, byteChars, byteChars]

theorem length_byteChars (cs : List Char) : (byteChars cs).length = String.utf8Len cs := by
  rw [byteChars, List.length_map, length_flatMap_utf8EncodeChar]

theorem byteChars_of_ascii {cs : List Char} (h : ∀ c ∈ cs, c.toNat < 128) :
    byteChars cs = cs := by
  induction cs with
  | nil => rfl
  | cons c cs ih =>
      obtain ⟨hc, hcs⟩ := List.forall_mem_cons.1 h
      rw [byteChars_cons, map_utf8EncodeChar hc, ih hcs, List.singleton_append]

theorem lt_of_mem_utf8EncodeChar {c : Char} (h : c.toNat < 128) :
    ∀ b ∈ String.utf8EncodeChar c, b < 128 := by
  intro b hb
  have hmem : Char.ofUInt8 b ∈ (String.utf8EncodeChar c).map Char.ofUInt8 := List.mem_map_of_mem hb
  rw [map_utf8EncodeChar h, List.mem_singleton] at hmem
  rw [← hmem] at h
  exact UInt8.lt_iff_toNat_lt.2 h

theorem bytes_of_ascii {cs : List Char} (h : ∀ c ∈ cs, c.toNat < 128) :
    ∀ b ∈ bytes (String.ofList cs), b < 128 := by
  intro b hb
  rw [bytes_eq, String.toList_ofList] at hb
  obtain ⟨c, hc, hb⟩ := List.mem_flatMap.1 hb
  exact lt_of_mem_utf8EncodeChar (h c hc) b hb

/-- What stands at a byte of a character outside ASCII is not ASCII. -/
theorem le_of_drop_byteChars {c d : Char} {cs ds : List Char} {n : Nat} (hc : 128 ≤ c.toNat)
    (hn : n < c.utf8Size) (h : (byteChars (c :: cs)).drop n = d :: ds) : 128 ≤ d.toNat := by
  have hlength : n < ((String.utf8EncodeChar c).map Char.ofUInt8).length := by
    rwa [List.length_map, String.length_utf8EncodeChar]
  rw [byteChars_cons, List.drop_append_of_le_length (Nat.le_of_lt hlength),
    List.drop_eq_getElem_cons hlength, List.cons_append, List.cons.injEq] at h
  obtain ⟨b, hb, hd⟩ := List.mem_map.1 (h.1 ▸ List.getElem_mem hlength)
  exact hd ▸ le_of_mem_utf8EncodeChar hc b hb

theorem eq_append_of_byteChars {cs inner rest : List Char} (hinner : ∀ c ∈ inner, c.toNat < 128)
    (h : byteChars cs = inner ++ rest) : ∃ after, cs = inner ++ after := by
  induction inner generalizing cs with
  | nil => exact ⟨cs, rfl⟩
  | cons d ds ih =>
      obtain ⟨hd, hds⟩ := List.forall_mem_cons.1 hinner
      cases cs with
      | nil => cases h
      | cons c cs =>
          rcases Nat.lt_or_ge c.toNat 128 with hc | hc
          · rw [byteChars_cons, map_utf8EncodeChar hc, List.singleton_append, List.cons_append,
              List.cons.injEq] at h
            obtain ⟨after, rfl⟩ := ih hds h.2
            exact ⟨after, by rw [h.1, List.cons_append]⟩
          · exact absurd (le_of_drop_byteChars (n := 0) hc c.utf8Size_pos h) (by omega)

/-- ASCII among the bytes of a text is a part of the text. -/
theorem eq_append_of_drop_byteChars {cs inner rest : List Char} {n : Nat} (hne : inner ≠ [])
    (hinner : ∀ c ∈ inner, c.toNat < 128) (h : (byteChars cs).drop n = inner ++ rest) :
    ∃ before after, cs = before ++ inner ++ after ∧ String.utf8Len before = n := by
  induction cs generalizing n with
  | nil =>
      rw [byteChars, List.flatMap_nil, List.map_nil, List.drop_nil] at h
      exact absurd (List.append_eq_nil_iff.1 h.symm).1 hne
  | cons c cs ih =>
      rcases Nat.lt_or_ge n c.utf8Size with hn | hn
      · rcases Nat.lt_or_ge c.toNat 128 with hc | hc
        · have hzero : n = 0 := by
            rw [utf8Size_of_ascii hc] at hn
            omega
          subst hzero
          obtain ⟨after, hafter⟩ := eq_append_of_byteChars hinner h
          exact ⟨[], after, hafter, rfl⟩
        · cases inner with
          | nil => exact absurd rfl hne
          | cons d ds =>
              have hd := (List.forall_mem_cons.1 hinner).1
              exact absurd (le_of_drop_byteChars hc hn h) (by omega)
      · have hlength : ((String.utf8EncodeChar c).map Char.ofUInt8).length = c.utf8Size := by
          rw [List.length_map, String.length_utf8EncodeChar]
        rw [byteChars_cons, List.drop_append, List.drop_eq_nil_of_le (by omega),
          List.nil_append, hlength] at h
        obtain ⟨before, after, rfl, hbefore⟩ := ih h
        exact ⟨c :: before, after, rfl, by rw [String.utf8Len_cons, hbefore]; omega⟩

end Text

namespace Code

/-! ## The reader over bytes -/

namespace Bytewise

/-- The byte of the character that raises an ordinal. -/
def escapeByte : UInt8 := 0x5F

/-- The byte of the character around the digits of a hash. -/
def markerByte : UInt8 := 0x2D

/-- The number that the symbol with this byte stands for. -/
def symbolIndex (b : UInt8) : Option Nat :=
  if 0x61 ≤ b ∧ b ≤ 0x7A then some (b - 0x61).toNat
  else if 0x41 ≤ b ∧ b ≤ 0x5A then some ((b - 0x41).toNat + 26)
  else if 0x30 ≤ b ∧ b ≤ 0x39 then some ((b - 0x30).toNat + 52)
  else none

def sliceFrom (bs : List UInt8) (start : Nat) : Except BadSlice (List UInt8) :=
  if start ≤ bs.length then .ok (bs.drop start) else .error .outOfRange

def sliceTo (bs : List UInt8) (stop : Nat) : Except BadSlice (List UInt8) :=
  if stop ≤ bs.length then .ok (bs.take stop) else .error .outOfRange

/-- The offset of the first byte from `i` on that is no escape. -/
def skipEscapes (bs : List UInt8) (i : Nat) : Nat :=
  if h : bs[i]? = some escapeByte then skipEscapes bs (i + 1) else i
termination_by bs.length - i
decreasing_by
  have := (List.getElem?_eq_some_iff.1 h).1
  omega

/-- The offset just past the hash whose opening marker stands at `start`. -/
def readHash (bs : List UInt8) (start : Nat) : Except BadSlice (Option Nat) := do
  let body ← sliceFrom bs (start + 1)
  match body.findIdx? (· == markerByte) with
  | none => return none
  | some close =>
      if close = 0 then return none
      else do
        let inner ← sliceTo body close
        if inner.all fun b => (symbolIndex b).isSome then return some (start + 1 + close + 1)
        else return none

/-- The offset just past the unit that starts at `start`. -/
def readUnit (bs : List UInt8) (start : Nat) : Except BadSlice (Option Nat) :=
  match bs[start]? with
  | none => return none
  | some first =>
      if first = markerByte then readHash bs start
      else
        match bs[skipEscapes bs start]? with
        | none => return none
        | some last => return (symbolIndex last).map fun _ => skipEscapes bs start + 1

theorem symbolIndex_eq (b : UInt8) : symbolIndex b = symbolValue? (Char.ofUInt8 b) :=
  Text.forall_byte (P := fun b => symbolIndex b = symbolValue? (Char.ofUInt8 b))
    (by decide +kernel) b

theorem ofUInt8_eq_marker_iff (b : UInt8) : Char.ofUInt8 b = marker ↔ b = markerByte :=
  Text.forall_byte (P := fun b => Char.ofUInt8 b = marker ↔ b = markerByte)
    (by decide +kernel) b

theorem ofUInt8_eq_escape_iff (b : UInt8) : Char.ofUInt8 b = escape ↔ b = escapeByte :=
  Text.forall_byte (P := fun b => Char.ofUInt8 b = escape ↔ b = escapeByte)
    (by decide +kernel) b

theorem readOrdinal?_drop (bs : List UInt8) (i : Nat) :
    (readOrdinal? ((bs.drop i).map Char.ofUInt8)).map (fun hit => i + hit.1.length) =
      bs[skipEscapes bs i]?.bind fun last =>
        (symbolIndex last).map fun _ => skipEscapes bs i + 1 := by
  fun_induction skipEscapes bs i with
  | case1 i h ih =>
      obtain ⟨hlt, hb⟩ := List.getElem?_eq_some_iff.1 h
      rw [← ih, List.drop_eq_getElem_cons hlt, hb, List.map_cons, readOrdinal?,
        if_pos ((ofUInt8_eq_escape_iff _).2 rfl), Option.map_map]
      refine congrArg (Option.map · _) (funext fun hit => ?_)
      rw [Function.comp_apply, List.length_cons]
      omega
  | case2 i h =>
      rcases Nat.lt_or_ge i bs.length with hlt | hge
      · rw [List.getElem?_eq_getElem hlt] at h ⊢
        have hne : ¬ Char.ofUInt8 bs[i] = escape := fun heq =>
          h (congrArg some ((ofUInt8_eq_escape_iff _).1 heq))
        rw [List.drop_eq_getElem_cons hlt, List.map_cons, readOrdinal?, if_neg hne,
          Option.bind_some, symbolIndex_eq, isSymbol]
        cases symbolValue? (Char.ofUInt8 bs[i]) <;> rfl
      · rw [List.drop_eq_nil_of_le hge, List.getElem?_eq_none hge]
        rfl

theorem findIdx?_marker {body : List UInt8} (h : markerByte ∉ body) :
    body.findIdx? (· == markerByte) = none :=
  List.findIdx?_eq_none_iff.2 fun _ hb => beq_eq_false_iff_ne.2 (ne_of_mem_of_not_mem hb h)

theorem findIdx?_append_marker {body : List UInt8} (h : markerByte ∉ body) (rest : List UInt8) :
    (body ++ markerByte :: rest).findIdx? (· == markerByte) = some body.length := by
  rw [List.findIdx?_append, findIdx?_marker h, List.findIdx?_cons]
  simp

theorem marker_notMem_map {body : List UInt8} (h : markerByte ∉ body) :
    marker ∉ body.map Char.ofUInt8 := by
  intro hmarker
  obtain ⟨b, hb, heq⟩ := List.mem_map.1 hmarker
  exact h ((ofUInt8_eq_marker_iff b).1 heq ▸ hb)

theorem all_symbolIndex (body : List UInt8) :
    (body.all fun b => (symbolIndex b).isSome) = (body.map Char.ofUInt8).all isSymbol := by
  rw [List.all_map]
  exact congrArg _ (funext fun b => by rw [symbolIndex_eq]; rfl)

theorem readHash_eq_map {bs : List UInt8} {start : Nat} (h : start < bs.length) :
    readHash bs start =
      .ok ((readHash? ((bs.drop (start + 1)).map Char.ofUInt8)).map fun hit =>
        start + hit.1.length) := by
  rw [readHash, sliceFrom, if_pos (Nat.succ_le_of_lt h)]
  generalize bs.drop (start + 1) = body
  dsimp only [bind, Except.bind]
  by_cases hmem : markerByte ∈ body
  · obtain ⟨inner, after, rfl, hinner⟩ := List.eq_append_cons_of_mem hmem
    rw [findIdx?_append_marker hinner, List.map_append, List.map_cons,
      (ofUInt8_eq_marker_iff _).2 rfl, readHash?_marker (marker_notMem_map hinner),
      ← all_symbolIndex]
    dsimp only
    cases inner with
    | nil => rfl
    | cons b inner =>
        rw [if_neg (by simp), sliceTo, if_pos (by simp), List.take_left]
        dsimp only
        cases (b :: inner).all fun b => (symbolIndex b).isSome with
        | false => rfl
        | true =>
            refine congrArg (fun n => Except.ok (some n)) ?_
            simp only [List.length_append, List.length_cons, List.length_map, List.length_nil]
            omega
  · rw [findIdx?_marker hmem, readHash?_open (marker_notMem_map hmem)]
    rfl

/-- Reading bytes is reading the characters with their codes. -/
theorem readUnit_eq_map (bs : List UInt8) (start : Nat) :
    readUnit bs start =
      .ok ((readUnit? ((bs.drop start).map Char.ofUInt8)).map fun hit => start + hit.1.length) := by
  rcases Nat.lt_or_ge start bs.length with hlt | hge
  · rw [readUnit, List.getElem?_eq_getElem hlt, List.drop_eq_getElem_cons hlt, List.map_cons]
    dsimp only
    split
    · next hmarker =>
        rw [readUnit?, if_pos ((ofUInt8_eq_marker_iff _).2 hmarker), readHash_eq_map hlt]
    · next hmarker =>
        rw [readUnit?, if_neg (fun heq => hmarker ((ofUInt8_eq_marker_iff _).1 heq)),
          ← List.map_cons, ← List.drop_eq_getElem_cons hlt, readOrdinal?_drop]
        cases bs[skipEscapes bs start]? <;> rfl
  · rw [readUnit, List.getElem?_eq_none hge, List.drop_eq_nil_of_le hge]
    rfl

/-- A unit among the bytes of a text is a unit of the text. -/
theorem readUnit_eq (token : String) (start : Nat) :
    readUnit (Text.bytes token) start = .ok (unitEnd? token start) := by
  rw [readUnit_eq_map, List.map_drop, Text.bytes_eq]
  refine congrArg Except.ok (Option.ext fun stop => ?_)
  rw [unitEnd?_eq_some_iff, Option.map_eq_some_iff]
  constructor
  · rintro ⟨⟨unit, rest⟩, hread, rfl⟩
    obtain ⟨hunit, hbytes⟩ := readUnit?_eq_some_iff.1 hread
    obtain ⟨before, after, htoken, hbefore⟩ :=
      Text.eq_append_of_drop_byteChars hunit.ne_nil hunit.ascii hbytes
    exact ⟨before, unit, after, htoken, hunit, hbefore, rfl⟩
  · rintro ⟨before, unit, after, htoken, hunit, rfl, rfl⟩
    refine ⟨(unit, Text.byteChars after), readUnit?_eq_some_iff.2 ⟨hunit, ?_⟩, rfl⟩
    change (Text.byteChars token.toList).drop _ = _
    rw [htoken, List.append_assoc, Text.byteChars_append, ← Text.length_byteChars before,
      List.drop_left, Text.byteChars_append, Text.byteChars_of_ascii hunit.ascii]

theorem lt_of_readUnit {bs : List UInt8} {start stop : Nat}
    (h : readUnit bs start = .ok (some stop)) : start < stop := by
  rw [readUnit_eq_map, Except.ok.injEq] at h
  obtain ⟨⟨unit, rest⟩, hread, rfl⟩ := Option.map_eq_some_iff.1 h
  exact Nat.lt_add_of_pos_right (List.length_pos_iff.2 (readUnit?_ne_nil hread))

/-! ## Tokens -/

/-- Reads on from `stop` to the end, and gives the offsets where the last unit starts
and ends. The one that was read before started at `start`. -/
def readOn (bs : List UInt8) (start stop : Nat) : Except BadSlice (Option (Nat × Nat)) :=
  if _h : stop < bs.length then
    match _hread : readUnit bs stop with
    | .error e => .error e
    | .ok none => .ok none
    | .ok (some next) => readOn bs stop next
  else .ok (some (start, stop))
termination_by bs.length - stop
decreasing_by
  have := lt_of_readUnit _hread
  omega

/-- The parts of a token whose first unit ends at `propertyEnd`, and whose last starts at
`valueStart` and ends at `stop`. If those are one unit, it is no token. -/
def cut (token : String) (propertyEnd valueStart stop : Nat) :
    Except BadSlice (Option TokenParts) :=
  if stop = propertyEnd then return none
  else do
    let property ← Text.slice token 0 propertyEnd
    let conditions ← Text.slice token propertyEnd valueStart
    let value ← Text.slice token valueStart stop
    return some { property, conditions, value }

/-- Takes a token apart at the offsets where its units end. -/
def parseToken (token : String) : Except BadSlice (Option TokenParts) := do
  let bs := Text.bytes token
  let some propertyEnd ← readUnit bs 0 | return none
  let some (valueStart, stop) ← readOn bs propertyEnd propertyEnd | return none
  cut token propertyEnd valueStart stop

/-- All of a token but its value, cut out of the token. -/
def identity (parts : TokenParts) (token : String) : Except BadSlice String :=
  Text.slice token 0 (parts.property.utf8ByteSize + parts.conditions.utf8ByteSize)

theorem readOn_of_lt {bs : List UInt8} {start stop : Nat} (h : stop < bs.length) :
    readOn bs start stop =
      (readUnit bs stop).bind fun found =>
        match found with
        | none => .ok none
        | some next => readOn bs stop next := by
  rw [readOn, dif_pos h]
  split <;> next hread => rw [hread]; rfl

/-- The offsets where the last of some units starts and ends, from those of the unit that
stands before them. -/
def lastBounds (bounds : Nat × Nat) (us : List (List Char)) : Nat × Nat :=
  us.foldl (fun bounds unit => (bounds.2, bounds.2 + unit.length)) bounds

theorem lastBounds_cons (bounds : Nat × Nat) (unit : List Char) (us : List (List Char)) :
    lastBounds bounds (unit :: us) = lastBounds (bounds.2, bounds.2 + unit.length) us := rfl

theorem lastBounds_snd (bounds : Nat × Nat) (us : List (List Char)) :
    (lastBounds bounds us).2 = bounds.2 + us.flatten.length := by
  induction us generalizing bounds with
  | nil => rfl
  | cons unit us ih =>
      rw [lastBounds_cons, ih, List.flatten_cons, List.length_append, Nat.add_assoc]

theorem lastBounds_concat (bounds : Nat × Nat) (us : List (List Char)) (unit : List Char) :
    lastBounds bounds (us ++ [unit]) =
      (bounds.2 + us.flatten.length, bounds.2 + us.flatten.length + unit.length) := by
  rw [← lastBounds_snd, lastBounds, List.foldl_append]
  rfl

/-- Reading on goes over the units, if it is units that are left. -/
theorem readOn_eq {token : String} {before rest : List Char}
    (h : token.toList = before ++ rest) (start : Nat) :
    readOn (Text.bytes token) start (String.utf8Len before) =
      .ok ((units? rest).map (lastBounds (start, String.utf8Len before))) := by
  fun_induction units? rest generalizing before start with
  | case1 =>
      have hend : (Text.bytes token).length = String.utf8Len before := by
        rw [Text.length_bytes, h, List.append_nil]
      rw [readOn, dif_neg (by omega)]
      rfl
  | case2 c rest hread =>
      rw [readOn_of_lt (Text.utf8Len_lt_length_bytes h), readUnit_eq, unitEnd?_utf8Len h, hread]
      rfl
  | case3 c rest unit after hread ih =>
      obtain ⟨hunit, happend⟩ := readUnit?_eq_some_iff.1 hread
      have hnext : token.toList = (before ++ unit) ++ after := by
        rw [h, happend, List.append_assoc]
      have hlength : String.utf8Len (before ++ unit) = String.utf8Len before + unit.length := by
        rw [String.utf8Len_append, Text.utf8Len_of_ascii hunit.ascii]
      rw [readOn_of_lt (Text.utf8Len_lt_length_bytes h), readUnit_eq, unitEnd?_utf8Len h, hread]
      dsimp only [Option.map_some, Except.bind]
      rw [← hlength, ih hnext, Option.map_map, hlength]
      rfl

theorem ascii_flatten {us : List (List Char)} (h : ∀ unit ∈ us, IsUnit unit) :
    ∀ c ∈ us.flatten, c.toNat < 128 := by
  intro c hc
  obtain ⟨unit, hunit, hc⟩ := List.mem_flatten.1 hc
  exact (h unit hunit).ascii c hc

/-- The three slices of a token, at offsets that are counted in characters. -/
theorem slice_parts {token : String} {first middle last : List Char}
    (htoken : token.toList = first ++ middle ++ last) (hfirst : ∀ c ∈ first, c.toNat < 128)
    (hmiddle : ∀ c ∈ middle, c.toNat < 128) (hlast : ∀ c ∈ last, c.toNat < 128) :
    Text.slice token 0 first.length = .ok (String.ofList first) ∧
    Text.slice token first.length (first.length + middle.length) = .ok (String.ofList middle) ∧
    Text.slice token (first.length + middle.length)
      (first.length + middle.length + last.length) = .ok (String.ofList last) := by
  have hproperty : token.toList = [] ++ first ++ (middle ++ last) := by
    rw [htoken, List.nil_append, List.append_assoc]
  have hvalue : token.toList = (first ++ middle) ++ last ++ [] := by
    rw [htoken, List.append_nil]
  refine ⟨?_, Text.slice_of_ascii htoken hfirst hmiddle, ?_⟩
  · have hslice := Text.slice_of_ascii hproperty (by simp) hfirst
    rwa [List.length_nil, Nat.zero_add] at hslice
  · have hslice := Text.slice_of_ascii hvalue (List.forall_mem_append.2 ⟨hfirst, hmiddle⟩) hlast
    rwa [List.length_append] at hslice

/-- Where the units of a text end, it is cut into the parts that the library gives. -/
theorem cut_eq {token : String} {first : List Char} {us : List (List Char)}
    (h : units? token.toList = some (first :: us)) :
    cut token first.length (lastBounds (first.length, first.length) us).1
      (lastBounds (first.length, first.length) us).2 = .ok (parseToken? token) := by
  obtain ⟨hunits, htoken⟩ := units?_eq_some_iff.1 h
  rcases List.eq_nil_or_concat' us with rfl | ⟨middle, last, rfl⟩
  · rw [parseToken?, h]
    exact if_pos rfl
  · obtain ⟨hfirst, hrest⟩ := List.forall_mem_cons.1 hunits
    obtain ⟨hmiddle, hlast⟩ := List.forall_mem_append.1 hrest
    have hlast : IsUnit last := hlast last (List.mem_singleton_self last)
    have hpos : 0 < last.length := List.length_pos_iff.2 hlast.ne_nil
    rw [List.flatten_cons, List.flatten_append, List.flatten_singleton, ← List.append_assoc]
      at htoken
    obtain ⟨hproperty, hconditions, hvalue⟩ :=
      slice_parts htoken hfirst.ascii (ascii_flatten hmiddle) hlast.ascii
    rw [parseToken?_of_units? h, lastBounds_concat, cut, if_neg (by omega), hproperty,
      hconditions, hvalue]
    rfl

/-- A token is taken apart as the library does it, and every part has a text. -/
theorem parseToken_eq (token : String) : parseToken token = .ok (parseToken? token) := by
  have hstart : readUnit (Text.bytes token) 0 =
      .ok ((readUnit? token.toList).map fun hit => 0 + hit.1.length) :=
    (readUnit_eq token 0).trans (congrArg Except.ok (unitEnd?_utf8Len (List.nil_append _).symm))
  rw [parseToken, hstart]
  cases hread : readUnit? token.toList with
  | none =>
      have hnone : parseToken? token = none := by
        refine Option.eq_none_iff_forall_ne_some.2 fun parts hparts => ?_
        obtain ⟨first, middle, last, hunits, htoken, -⟩ := parseToken?_eq_some_iff.1 hparts
        rw [htoken, List.flatten_cons,
          readUnit?_of_isUnit (hunits first List.mem_cons_self)] at hread
        cases hread
      rw [hnone]
      rfl
  | some hit =>
      obtain ⟨first, rest⟩ := hit
      obtain ⟨hfirst, htoken⟩ := readUnit?_eq_some_iff.1 hread
      have hunits := units?_of_readUnit? hread
      have hon := readOn_eq htoken first.length
      rw [Text.utf8Len_of_ascii hfirst.ascii] at hon
      dsimp only [Option.map_some, bind, Except.bind, pure, Except.pure]
      rw [Nat.zero_add, hon]
      cases hrest : units? rest with
      | none =>
          rw [hrest] at hunits
          rw [parseToken?, hunits]
          rfl
      | some us =>
          rw [hrest] at hunits
          exact cut_eq hunits

/-- All of a token but its value ends where a unit does. -/
theorem identity_eq {token : String} {parts : TokenParts} (h : parseToken? token = some parts) :
    identity parts token = .ok parts.identity := by
  have hsplit : token.toList =
      [] ++ (parts.property ++ parts.conditions).toList ++ parts.value.toList := by
    rw [← parts_append h, String.toList_append, List.nil_append]
  have hslice := Text.slice_eq hsplit
  rwa [List.nil_append, String.utf8Len_nil, String.utf8Len_toList, String.utf8ByteSize_append,
    String.ofList_toList] at hslice

end Bytewise

/-- A token is taken apart if and only if it is a run of at least two units. However it is
cut into units, its property is the first of them and its value is the last, and together
the parts are the token again. A unit that is read at any offset of any text is a slice of
it, and all its bytes are ASCII. The reader over bytes does the same, so it never asks for
a slice that is not there. -/
theorem token_grammar (token : String) :
    ((parseToken? token).isSome ↔
      ∃ units : List (List Char), 2 ≤ units.length ∧ (∀ unit ∈ units, IsUnit unit) ∧
        token.toList = units.flatten) ∧
    (∀ parts, parseToken? token = some parts →
      (∀ units : List (List Char), (∀ unit ∈ units, IsUnit unit) →
        token.toList = units.flatten →
        units.head? = some parts.property.toList ∧
          units.getLast? = some parts.value.toList) ∧
      parts.property ++ parts.conditions ++ parts.value = token ∧
      parts.identity ++ parts.value = token ∧
      Bytewise.identity parts token = .ok parts.identity) ∧
    Bytewise.parseToken token = .ok (parseToken? token) ∧
    ∀ start,
      Bytewise.readUnit (Text.bytes token) start = .ok (unitEnd? token start) ∧
      ∀ stop, unitEnd? token start = some stop →
        ∃ unit, IsUnit unit ∧
          Text.slice token start stop = .ok (String.ofList unit) ∧
          ((Text.bytes token).drop start).take (stop - start) =
            Text.bytes (String.ofList unit) ∧
          ∀ b ∈ Text.bytes (String.ofList unit), b < 128 := by
  refine ⟨parseToken?_isSome_iff, fun parts hparts => ?_, Bytewise.parseToken_eq token,
    fun start => ⟨Bytewise.readUnit_eq token start, fun stop hstop => ?_⟩⟩
  · have happend := parts_append hparts
    obtain ⟨first, middle, last, hunits, htoken, rfl⟩ := parseToken?_eq_some_iff.1 hparts
    refine ⟨fun units hmem hflatten => ?_, happend, happend, Bytewise.identity_eq hparts⟩
    rw [units_unique hmem hunits hflatten htoken, String.toList_ofList, String.toList_ofList]
    exact ⟨rfl, by rw [← List.cons_append, List.getLast?_concat]⟩
  · obtain ⟨before, unit, after, htoken, hunit, rfl, rfl⟩ := unitEnd?_eq_some_iff.1 hstop
    have hlength : String.utf8Len unit = unit.length := Text.utf8Len_of_ascii hunit.ascii
    have hslice := Text.slice_eq htoken
    have hbytes := Text.drop_take_bytes htoken
    rw [String.utf8Len_append, hlength] at hslice
    rw [hlength] at hbytes
    rw [Nat.add_sub_cancel_left]
    exact ⟨unit, hunit, hslice, hbytes, Text.bytes_of_ascii hunit.ascii⟩

/-- A unit behind a character of two bytes, and a token with a hash. -/
theorem token_grammar_accented :
    unitEnd? "é__gb" 2 = some 5 ∧
      (∃ unit, IsUnit unit ∧ Text.slice "é__gb" 2 5 = .ok (String.ofList unit)) ∧
      Bytewise.readUnit (Text.bytes "é__gb") 1 = .ok none ∧
      parseToken? "-a--b-__g9" = some ⟨"-a-", "-b-__g", "9"⟩ ∧
      Bytewise.parseToken "-a--b-__g9" = .ok (some ⟨"-a-", "-b-__g", "9"⟩) ∧
      Bytewise.identity ⟨"-a-", "-b-__g", "9"⟩ "-a--b-__g9" = .ok "-a--b-__g" := by
  have hstop : unitEnd? "é__gb" 2 = some 5 := by decide
  have hinside : unitEnd? "é__gb" 1 = none := by decide
  have htoken :
      written [.hashed 0, .hashed 1, .indexed 130, .indexed 61] = "-a--b-__g9" := by decide
  have hparts : parseToken? "-a--b-__g9" = some ⟨"-a-", "-b-__g", "9"⟩ :=
    htoken ▸ parseToken?_written (.hashed 0) [.hashed 1, .indexed 130] (.indexed 61)
  obtain ⟨-, -, -, hread⟩ := token_grammar "é__gb"
  obtain ⟨-, hwhole, hbytes, -⟩ := token_grammar "-a--b-__g9"
  obtain ⟨unit, hunit, hslice, -, -⟩ := (hread 2).2 5 hstop
  exact ⟨hstop, ⟨unit, hunit, hslice⟩, hinside ▸ (hread 1).1, hparts, hparts ▸ hbytes,
    (hwhole _ hparts).2.2.2⟩

end Code

end AtomicStyles
