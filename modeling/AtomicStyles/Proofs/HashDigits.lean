import AtomicStyles.Proofs.UnitBoundaries

/-!
# The digits of a hash

A hash is printed by way of a buffer with six cells. Digits come off a number from the
lowest up, so the loop writes them from the start of the buffer on until nothing of the
number is left, and the unit takes them back to front.

The loop stands here as it runs, over words of 32 bits and with a write that fails
behind the last cell. It never fails, since six digits are enough for 32 bits. The
argument goes along the loop: a number below `62 ^ k` takes at most `k` more cells, one
round uses one of them up, and what is left of the number is below `62 ^ (k - 1)`
(`writeDigits_eq`). So the loop writes the digits that the library gives, in reverse.

These are the digits of the hash in the usual sense. Read from the highest down they
give the number again, and the first of them is zero only for the number zero.
-/

namespace AtomicStyles.Code

/-! ## Digits of a number -/

theorem digits_of_lt {n : Nat} (h : n < radix) (places : Nat) :
    digits (places + 1) n = [symbol n] := by
  rw [digits, if_pos h]

theorem digits_of_le {n : Nat} (h : radix ≤ n) (places : Nat) :
    digits (places + 1) n = digits places (n / radix) ++ [symbol (n % radix)] := by
  rw [digits, if_neg (Nat.not_lt.2 h)]

theorem head?_digits_of_lt {n : Nat} (h : n < radix) (places : Nat) :
    (digits (places + 1) n).head? = some (symbol 0) ↔ n = 0 := by
  rw [digits_of_lt h, List.head?_cons, Option.some.injEq]
  exact ⟨symbol_injective h (by decide), congrArg symbol⟩

/-- No digit is written in front of a number for nothing. -/
theorem head?_digits_eq_zero_iff {places n : Nat} (h : n < radix ^ (places + 1)) :
    (digits (places + 1) n).head? = some (symbol 0) ↔ n = 0 := by
  induction places generalizing n with
  | zero => exact head?_digits_of_lt (by simpa using h) 0
  | succ places ih =>
      rcases Nat.lt_or_ge n radix with hlt | hge
      · exact head?_digits_of_lt hlt _
      · rw [digits_of_le hge, List.head?_append_of_ne_nil _ (digits_ne_nil _ _),
          ih (div_radix_lt_pow h), Nat.div_eq_zero_iff]
        have : 0 < radix := by decide
        omega

/-! ## The digit loop -/

namespace Buffered

/-- The symbols, in the order of their numbers. -/
def alphabet : List Char :=
  "abcdefghijklmnopqrstuvwxyzABCDEFGHIJKLMNOPQRSTUVWXYZ0123456789".toList

/-- Cells that are written one after the other, and how many of them are. -/
structure Buffer (cells : Nat) where
  content : Vector Char cells
  used : Nat
  used_le : used ≤ cells

variable {cells : Nat}

namespace Buffer

def blank : Buffer cells := ⟨Vector.replicate cells '\x00', 0, Nat.zero_le cells⟩

/-- Writes the next cell, if there is one. -/
def write (b : Buffer cells) (c : Char) : Option (Buffer cells) :=
  if h : b.used < cells then some ⟨b.content.set b.used c, b.used + 1, h⟩ else none

def written (b : Buffer cells) : List Char := b.content.toList.take b.used

end Buffer

def writeDigit (b : Buffer cells) (n : UInt32) : Option (Buffer cells) := do
  let digit ← alphabet[(n % 62).toNat]?
  b.write digit

theorem toNat_mod_radix (n : UInt32) : (n % 62).toNat = n.toNat % radix := UInt32.toNat_mod n 62

theorem toNat_div_radix (n : UInt32) : (n / 62).toNat = n.toNat / radix := UInt32.toNat_div n 62

theorem div_radix_eq_zero_iff (n : UInt32) : n / 62 = 0 ↔ n.toNat < radix := by
  rw [← UInt32.toNat_inj, toNat_div_radix]
  exact Nat.div_eq_zero_iff_lt (by decide)

/-- Writes the digits of a number, the lowest first. -/
def writeDigits (b : Buffer cells) (n : UInt32) : Option (Buffer cells) := do
  let b ← writeDigit b n
  if _h : n / 62 = 0 then return b else writeDigits b (n / 62)
termination_by n.toNat
decreasing_by
  have hn : radix ≤ n.toNat := Nat.le_of_not_lt (mt (div_radix_eq_zero_iff n).2 _h)
  rw [toNat_div_radix]
  exact Nat.div_lt_self (Nat.lt_of_lt_of_le (by decide) hn) (by decide)

/-- Appends the unit of a hash to a text. -/
def appendHash (out : String) (hash : UInt32) : Option String := do
  let b ← writeDigits (Buffer.blank : Buffer hashPlaces) hash
  return (out.push marker ++ String.ofList b.written.reverse).push marker

theorem getElem?_alphabet {n : Nat} (h : n < radix) : alphabet[n]? = some (symbol n) := by
  have all : ∀ n < 62, alphabet[n]? = some (symbol n) := by decide
  exact all n h

/-- The number of a symbol is its place in the alphabet. -/
theorem getElem?_alphabet_of_symbolValue? {c : Char} {d : Nat} (h : symbolValue? c = some d) :
    alphabet[d]? = some c := by
  obtain ⟨hlt, hsymbol, -⟩ := symbol_of_symbolValue? h
  rw [getElem?_alphabet hlt, hsymbol]

theorem Buffer.length_written (b : Buffer cells) : b.written.length = b.used := by
  rw [written, List.length_take, Vector.length_toList, Nat.min_eq_left b.used_le]

theorem Buffer.write_eq (b : Buffer cells) (hroom : b.used < cells) (c : Char) :
    ∃ next, b.write c = some next ∧ next.used = b.used + 1 ∧
      next.written = b.written ++ [c] := by
  refine ⟨_, dif_pos hroom, rfl, ?_⟩
  have hcell : b.used < b.content.toList.length := by rwa [Vector.length_toList]
  rw [written, written, Vector.toList_set, List.take_add_one, List.getElem?_set_self hcell,
    List.take_set_of_le (Nat.le_refl _)]
  rfl

/-- A round uses up one cell for the lowest digit and goes on with the others, if there
are any. -/
theorem writeDigits_round (b : Buffer cells) (hroom : b.used < cells) (n : UInt32) :
    ∃ next, next.used = b.used + 1 ∧
      next.written = b.written ++ [symbol (n.toNat % radix)] ∧
      writeDigits b n = if n.toNat < radix then some next else writeDigits next (n / 62) := by
  obtain ⟨next, hwrite, hused, hwritten⟩ := b.write_eq hroom (symbol (n.toNat % radix))
  have hdigit : writeDigit b n = some next := by
    rw [writeDigit, toNat_mod_radix, getElem?_alphabet (mod_radix_lt _)]
    exact hwrite
  refine ⟨next, hused, hwritten, ?_⟩
  rw [writeDigits, hdigit]
  simp only [Option.bind_eq_bind, Option.bind_some, div_radix_eq_zero_iff]
  split <;> rfl

theorem writeDigits_last (b : Buffer cells) (hroom : b.used < cells) {n : UInt32}
    (hn : n.toNat < radix) (places : Nat) :
    ∃ last, writeDigits b n = some last ∧
      last.written = b.written ++ (digits (places + 1) n.toNat).reverse := by
  obtain ⟨last, -, hwritten, hround⟩ := writeDigits_round b hroom n
  rw [if_pos hn] at hround
  rw [Nat.mod_eq_of_lt hn] at hwritten
  exact ⟨last, hround, by rw [hwritten, digits_of_lt hn]; rfl⟩

/-- A buffer with as many cells left as the number may have digits takes them all. -/
theorem writeDigits_eq {places : Nat} (b : Buffer cells) (hroom : b.used + (places + 1) ≤ cells)
    {n : UInt32} (hn : n.toNat < radix ^ (places + 1)) :
    ∃ last, writeDigits b n = some last ∧
      last.written = b.written ++ (digits (places + 1) n.toNat).reverse := by
  induction places generalizing b n with
  | zero => exact writeDigits_last b hroom (by simpa using hn) 0
  | succ places ih =>
      rcases Nat.lt_or_ge n.toNat radix with hlt | hge
      · exact writeDigits_last b (by omega) hlt _
      · -- one cell is gone, and the number that is left may have a digit less
        obtain ⟨next, hused, hwritten, hround⟩ := writeDigits_round b (by omega) n
        rw [if_neg (Nat.not_lt.2 hge)] at hround
        have hrest : (n / 62).toNat < radix ^ (places + 1) :=
          toNat_div_radix n ▸ div_radix_lt_pow hn
        obtain ⟨last, hlast, hall⟩ := ih next (by omega) hrest
        refine ⟨last, hround.trans hlast, ?_⟩
        rw [hall, hwritten, digits_of_le hge, toNat_div_radix, List.reverse_append,
          List.append_assoc]
        rfl

/-- The buffer of a hash holds the digits of the library, the lowest first. -/
theorem writeDigits_blank (hash : UInt32) :
    ∃ last, writeDigits (Buffer.blank : Buffer hashPlaces) hash = some last ∧
      last.written.reverse = digits hashPlaces hash.toNat := by
  obtain ⟨last, hlast, hwritten⟩ := writeDigits_eq (Buffer.blank : Buffer hashPlaces)
    (Nat.le_refl _) (toNat_lt_pow_hashPlaces hash)
  refine ⟨last, hlast, ?_⟩
  rw [hwritten, List.reverse_append, List.reverse_reverse]
  exact List.append_nil _

theorem appendHash_eq (out : String) (hash : UInt32) :
    appendHash out hash = some (out ++ String.ofList (hashUnit hash)) := by
  obtain ⟨last, hlast, hdigits⟩ := writeDigits_blank hash
  rw [appendHash, hlast, Option.bind_eq_bind, Option.bind_some, hdigits]
  refine congrArg some (String.toList_inj.1 ?_)
  simp [hashUnit]

end Buffered

/-- The digit loop never writes past the buffer, and it ends with one to six digits in it.
Taken back to front they are symbols of the alphabet, they are the hash in base 62, and
the first is zero for the hash zero alone. Between two markers they are the unit of the
hash. That unit is appended to any text, and no other hash has the same one appended. -/
theorem hash_printed (out : String) (hash : UInt32) :
    ∃ buffer : Buffered.Buffer hashPlaces,
      Buffered.writeDigits .blank hash = some buffer ∧
      buffer.written.length = buffer.used ∧ 1 ≤ buffer.used ∧ buffer.used ≤ 6 ∧
      (∀ c ∈ buffer.written, ∃ d, symbolValue? c = some d ∧ Buffered.alphabet[d]? = some c) ∧
      number buffer.written.reverse = hash.toNat ∧
      (buffer.written.reverse.head? = Buffered.alphabet[0]? ↔ hash = 0) ∧
      hashUnit hash = marker :: buffer.written.reverse ++ [marker] ∧
      Buffered.appendHash out hash = some (out ++ String.ofList (hashUnit hash)) ∧
      ∀ other, Buffered.appendHash out other = Buffered.appendHash out hash → other = hash := by
  obtain ⟨buffer, hloop, hdigits⟩ := Buffered.writeDigits_blank hash
  have hbound := toNat_lt_pow_hashPlaces hash
  have hlength := buffer.length_written
  have hpositive : 1 ≤ buffer.used := by
    rw [← hlength, ← List.length_reverse, hdigits]
    exact List.length_pos_iff.2 (digits_ne_nil 5 hash.toNat)
  refine ⟨buffer, hloop, hlength, hpositive, buffer.used_le, fun c hc => ?_, ?_, ?_, ?_,
    Buffered.appendHash_eq out hash, fun other hsame => ?_⟩
  · have hsymbol := digits_isSymbol hashPlaces hash.toNat c (hdigits ▸ List.mem_reverse.2 hc)
    obtain ⟨d, hd⟩ := Option.isSome_iff_exists.1 hsymbol
    exact ⟨d, hd, Buffered.getElem?_alphabet_of_symbolValue? hd⟩
  · rw [hdigits, number_digits hbound]
  · rw [hdigits, Buffered.getElem?_alphabet (by decide)]
    exact (head?_digits_eq_zero_iff hbound).trans (@UInt32.toNat_inj hash 0)
  · rw [hdigits, hashUnit]
  · rw [Buffered.appendHash_eq, Buffered.appendHash_eq, Option.some.injEq, String.append_right_inj,
      String.ofList_inj] at hsame
    exact hashUnit_injective hsame

/-- The highest hash fills the buffer. -/
example : digits hashPlaces (UInt32.toNat 0xFFFFFFFF) = ['e', 'Q', 'P', 'p', 'm', 'd'] := by decide

end AtomicStyles.Code
