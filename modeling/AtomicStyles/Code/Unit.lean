import AtomicStyles.Digest.Hash
import AtomicStyles.Text.Offset

/-!
# Code units

A class token is a run of units, and a unit is an ordinal or a hash.

* The ordinal `n` is `n / 62` escapes `_` and one symbol for `n % 62`, out of
  the letters and digits: `a` for 0, `9` for 61, `_a` for 62, `__g` for 130.
* A hash is its base-62 digits between two markers `-`: `-b3Xq1-`.

The first character of a unit tells which kind it is, and the unit itself tells
where it ends, so units need nothing between them.
-/

namespace AtomicStyles.Code

/-- The number of symbols. -/
def radix : Nat := 62

/-- The character that raises an ordinal by `radix`. -/
def escape : Char := '_'

/-- The character around the digits of a hash. -/
def marker : Char := '-'

/-- The symbol for a number below `radix`: small letters, then capitals, then
digits. -/
def symbol (n : Nat) : Char :=
  if n < 26 then Char.ofNat ('a'.toNat + n)
  else if n < 52 then Char.ofNat ('A'.toNat + (n - 26))
  else Char.ofNat ('0'.toNat + (n - 52))

/-- The number that a symbol stands for. -/
def symbolValue? (c : Char) : Option Nat :=
  if 'a' ≤ c ∧ c ≤ 'z' then some (c.toNat - 'a'.toNat)
  else if 'A' ≤ c ∧ c ≤ 'Z' then some (c.toNat - 'A'.toNat + 26)
  else if '0' ≤ c ∧ c ≤ '9' then some (c.toNat - '0'.toNat + 52)
  else none

/-- Whether the character is one of the symbols. -/
def isSymbol (c : Char) : Bool := (symbolValue? c).isSome

/-- The unit of an ordinal. -/
def ordinalUnit (n : Nat) : List Char :=
  List.replicate (n / radix) escape ++ [symbol (n % radix)]

/-- The ordinal of a complete unit. A hash has none. -/
def ordinal? : List Char → Option Nat
  | [] => none
  | [c] => symbolValue? c
  | c :: cs => if c = escape then (ordinal? cs).map (· + radix) else none

/-- At most `places` base-62 digits of a number, the highest first and none of
them a leading zero. -/
def digits : Nat → Nat → List Char
  | 0, _ => []
  | places + 1, n =>
      if n < radix then [symbol n] else digits places (n / radix) ++ [symbol (n % radix)]

/-- The number of base-62 digits that suffice for 32 bits. -/
def hashPlaces : Nat := 6

/-- The unit of a hash. -/
def hashUnit (h : UInt32) : List Char :=
  marker :: digits hashPlaces h.toNat ++ [marker]

/-- Whether the text has the outer form of a hash: a marker at both ends and
something between them. -/
def isHashed (cs : List Char) : Bool :=
  cs.head? == some marker && cs.getLast? == some marker && 3 ≤ cs.length

/-- The hash unit at the start of the text that follows its opening marker, with
the rest. -/
def readHash? (cs : List Char) : Option (List Char × List Char) :=
  let body := cs.takeWhile (· != marker)
  match cs.dropWhile (· != marker) with
  | [] => none
  | closing :: rest =>
      if !body.isEmpty && body.all isSymbol then some (marker :: body ++ [closing], rest)
      else none

/-- The ordinal unit at the start of the text, with the rest. -/
def readOrdinal? : List Char → Option (List Char × List Char)
  | [] => none
  | c :: cs =>
      if c = escape then (readOrdinal? cs).map fun hit => (c :: hit.1, hit.2)
      else if isSymbol c then some ([c], cs)
      else none

/-- The unit at the start of the text, with the rest. -/
def readUnit? : List Char → Option (List Char × List Char)
  | [] => none
  | c :: cs => if c = marker then readHash? cs else readOrdinal? (c :: cs)

/-- The byte offset just past the unit that starts at byte `start`. A unit is
plain ASCII, so it has as many bytes as characters. -/
def unitEnd? (token : String) (start : Nat) : Option Nat := do
  let rest ← Text.dropBytes token.toList start
  let (unit, _) ← readUnit? rest
  return start + unit.length

theorem readHash?_append {cs unit rest : List Char} (h : readHash? cs = some (unit, rest)) :
    marker :: cs = unit ++ rest := by
  unfold readHash? at h
  simp only at h
  split at h
  · exact absurd h (by simp)
  · rename_i closing tail hd
    have hc : closing = marker := by
      have := List.head?_dropWhile_not (fun c => c != marker) cs
      rw [hd] at this
      simpa using this
    split at h
    · simp only [Option.some.injEq, Prod.mk.injEq] at h
      obtain ⟨rfl, rfl⟩ := h
      conv => lhs; rw [← List.takeWhile_append_dropWhile (p := (· != marker)) (l := cs), hd]
      simp
    · exact absurd h (by simp)

theorem readOrdinal?_append {cs unit rest : List Char}
    (h : readOrdinal? cs = some (unit, rest)) : cs = unit ++ rest := by
  induction cs generalizing unit with
  | nil => simp [readOrdinal?] at h
  | cons c cs ih =>
      unfold readOrdinal? at h
      split at h
      · obtain ⟨⟨u, r⟩, hu, he⟩ := Option.map_eq_some_iff.1 h
        simp only [Prod.mk.injEq] at he
        obtain ⟨rfl, rfl⟩ := he
        rw [ih hu]
        rfl
      · split at h
        · simp only [Option.some.injEq, Prod.mk.injEq] at h
          obtain ⟨rfl, rfl⟩ := h
          rfl
        · exact absurd h (by simp)

/-- Reading a unit splits the text. -/
theorem readUnit?_append {cs unit rest : List Char} (h : readUnit? cs = some (unit, rest)) :
    cs = unit ++ rest := by
  cases cs with
  | nil => simp [readUnit?] at h
  | cons c cs =>
      rw [readUnit?] at h
      split at h
      · rename_i hc
        rw [hc]
        exact readHash?_append h
      · exact readOrdinal?_append h

theorem readHash?_ne_nil {cs unit rest : List Char} (h : readHash? cs = some (unit, rest)) :
    unit ≠ [] := by
  unfold readHash? at h
  simp only at h
  split at h
  · exact absurd h (by simp)
  · split at h
    · simp only [Option.some.injEq, Prod.mk.injEq] at h
      rw [← h.1]
      simp
    · exact absurd h (by simp)

theorem readOrdinal?_ne_nil {cs unit rest : List Char}
    (h : readOrdinal? cs = some (unit, rest)) : unit ≠ [] := by
  cases cs with
  | nil => simp [readOrdinal?] at h
  | cons c cs =>
      unfold readOrdinal? at h
      split at h
      · obtain ⟨⟨u, r⟩, _, he⟩ := Option.map_eq_some_iff.1 h
        simp only [Prod.mk.injEq] at he
        rw [← he.1]
        simp
      · split at h
        · simp only [Option.some.injEq, Prod.mk.injEq] at h
          rw [← h.1]
          simp
        · exact absurd h (by simp)

theorem readUnit?_ne_nil {cs unit rest : List Char} (h : readUnit? cs = some (unit, rest)) :
    unit ≠ [] := by
  cases cs with
  | nil => simp [readUnit?] at h
  | cons c cs =>
      rw [readUnit?] at h
      split at h
      · exact readHash?_ne_nil h
      · exact readOrdinal?_ne_nil h

/-- Reading a unit uses up some of the text. -/
theorem readUnit?_shortens {cs unit rest : List Char} (h : readUnit? cs = some (unit, rest)) :
    rest.length < cs.length := by
  have hu := List.length_pos_iff.2 (readUnit?_ne_nil h)
  rw [readUnit?_append h, List.length_append]
  omega

end AtomicStyles.Code
