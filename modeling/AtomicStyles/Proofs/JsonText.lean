import AtomicStyles.Json.Printer
import AtomicStyles.Json.Value

/-!
# Written JSON text reads back

The writer puts no white space anywhere and escapes as little as it may, so its
texts are a small part of what the reader accepts, and on them the reader is its
inverse. This file shows it for the data that configurations are made of: texts
and truth values, in lists and in tables with texts for keys.

The reader goes by way of a tree that keeps the escapes apart, so there is a tree
for every piece of data, and the proof has two halves. The text is read as the
tree, with anything behind it left over; the budget is the length of the text,
since each step of the reader takes a character. And the tree stands for the data
that it was made of.
-/

namespace AtomicStyles.Json

/-! ## Strings -/

/-- The piece that a character is written as. -/
def pieceOf (c : Char) : Piece :=
  if c.toNat < 0x20 ∧ c ∉ ['\x08', '\x0c', '\n', '\r', '\t'] then .unit c.toNat else .char c

/-- The pieces that a string is written as. -/
def piecesOf (s : String) : List Piece :=
  s.toList.map pieceOf

namespace Tree

theorem readPieces?_control {n : Nat} (h : n < 0x20) (rest : List Char) :
    readPieces? ('\\' :: 'u' :: '0' :: '0' :: hexDigit (n / 16) :: hexDigit (n % 16) :: rest) =
      (readPieces? rest).map fun hit => (.unit n :: hit.1, hit.2) := by
  have digits : ∀ n < 0x20,
      ([ '0', '0', hexDigit (n / 16), hexDigit (n % 16)].all
        fun x => (Reading.hexDigit? x).isSome) = true ∧
      Reading.value 16 ['0', '0', hexDigit (n / 16), hexDigit (n % 16)] = n := by decide
  obtain ⟨hall, hvalue⟩ := digits n h
  rw [readPieces?, if_pos hall, hvalue]

theorem readPieces?_char {c : Char} (hquote : c ≠ '"') (hslash : c ≠ '\\')
    (hcontrol : ¬ c.toNat < 0x20) (rest : List Char) :
    readPieces? (c :: rest) = (readPieces? rest).map fun hit => (.char c :: hit.1, hit.2) := by
  rw [readPieces?.eq_def]
  split
  · next h => cases h
  · next h => exact absurd (List.cons.inj h).1 hquote
  · next h => exact absurd (List.cons.inj h).1 hslash
  · next h => exact absurd (List.cons.inj h).1 hslash
  · next h =>
      obtain ⟨rfl, rfl⟩ := List.cons.inj h
      rw [if_neg (not_or.2 ⟨hslash, hcontrol⟩)]

/-- A character is read as the piece that it is written as. -/
theorem readPieces?_quotedChar (c : Char) (rest : List Char) :
    readPieces? (quotedChar c ++ rest) =
      (readPieces? rest).map fun hit => (pieceOf c :: hit.1, hit.2) := by
  -- these have short escapes, other control characters are written by their codes
  by_cases hc : c ∈ ['"', '\\', '\x08', '\x0c', '\n', '\r', '\t']
  · simp only [List.mem_cons, List.not_mem_nil, or_false] at hc
    rcases hc with rfl | rfl | rfl | rfl | rfl | rfl | rfl <;> rfl
  · simp only [List.mem_cons, List.not_mem_nil, or_false, not_or] at hc
    obtain ⟨hquote, hslash, hb, hf, hn, hr, ht⟩ := hc
    rw [pieceOf]
    by_cases hcontrol : c.toNat < 0x20
    · have hquoted : quotedChar c =
          ['\\', 'u', '0', '0', hexDigit (c.toNat / 16), hexDigit (c.toNat % 16)] := by
        simp [quotedChar, *]
      have hunit : c.toNat < 0x20 ∧ c ∉ ['\x08', '\x0c', '\n', '\r', '\t'] := by simp [*]
      rw [if_pos hunit, hquoted]
      exact readPieces?_control hcontrol rest
    · have hquoted : quotedChar c = [c] := by simp [quotedChar, *]
      rw [if_neg fun hunit => hcontrol hunit.1, hquoted]
      exact readPieces?_char hquote hslash hcontrol rest

theorem readPieces?_quoted (cs rest : List Char) :
    readPieces? (cs.flatMap quotedChar ++ '"' :: rest) = some (cs.map pieceOf, rest) := by
  induction cs with
  | nil => rfl
  | cons c cs ih =>
      rw [List.flatMap_cons, List.append_assoc, readPieces?_quotedChar, ih]
      rfl

end Tree

theorem textOf?_unit {code : Nat} (h : code < 0xD800) (ps : List Piece) :
    textOf? (.unit code :: ps) = (textOf? ps).map (Char.ofNat code :: ·) := by
  have hpair : ¬ (0xD800 ≤ code ∧ code < 0xDC00) := by omega
  have hlone : ¬ (0xDC00 ≤ code ∧ code < 0xE000) := by omega
  have hhalf : ¬ (0xD800 ≤ code ∧ code < 0xE000) := by omega
  cases ps with
  | nil => simp [textOf?, hhalf]
  | cons p ps => cases p <;> simp [textOf?, hpair, hlone, hhalf]

/-- The pieces of a string stand for it. -/
theorem textOf?_pieces (cs : List Char) : textOf? (cs.map pieceOf) = some cs := by
  induction cs with
  | nil => rfl
  | cons c cs ih =>
      rw [List.map_cons, pieceOf]
      split
      · next hc =>
          rw [textOf?_unit (by omega), ih, Char.ofNat_toNat]
          rfl
      · rw [textOf?, ih]
        rfl

/-! ## Plain data and its trees -/

mutual

/-- Texts and truth values, in lists and in tables with texts for keys, nested at
most so many levels. -/
def Plain : Nat → Data → Prop
  | _, .bool _ => True
  | _, .text _ => True
  | n + 1, .list ds => EachPlain n ds
  | n + 1, .table es => EachEntryPlain n es
  | _, _ => False

def EachPlain : Nat → List Data → Prop
  | _, [] => True
  | n, d :: ds => Plain n d ∧ EachPlain n ds

def EachEntryPlain : Nat → List (Data × Data) → Prop
  | _, [] => True
  | n, (k, v) :: es => (∃ s, k = .text s) ∧ Plain n v ∧ EachEntryPlain n es

end

mutual

/-- The tree that plain data is written as. -/
def treeOf : Data → Tree
  | .bool b => .bool b
  | .text s => .text (piecesOf s)
  | .list ds => .array (treesOf ds)
  | .table es => .object (membersOf es)
  | _ => .null

def treesOf : List Data → List Tree
  | [] => []
  | d :: ds => treeOf d :: treesOf ds

def membersOf : List (Data × Data) → List (List Piece × Tree)
  | [] => []
  | (k, v) :: es => (piecesOf (k.text?.getD ""), treeOf v) :: membersOf es

end

theorem plain_list {n : Nat} {ds : List Data} (h : ∀ d ∈ ds, Plain n d) :
    Plain (n + 1) (.list ds) := by
  show EachPlain n ds
  induction ds with
  | nil => trivial
  | cons d ds ih => exact ⟨h d List.mem_cons_self, ih fun d hd => h d (List.mem_cons_of_mem _ hd)⟩

theorem plain_record {n : Nat} {es : List (String × Data)} (h : ∀ e ∈ es, Plain n e.2) :
    Plain (n + 1) (.record es) := by
  show EachEntryPlain n _
  induction es with
  | nil => trivial
  | cons e es ih =>
      exact ⟨⟨e.1, rfl⟩, h e List.mem_cons_self, ih fun e he => h e (List.mem_cons_of_mem _ he)⟩

theorem treeOf_list (ds : List Data) : treeOf (.list ds) = .array (ds.map treeOf) := by
  rw [treeOf]
  congr 1
  induction ds with
  | nil => rfl
  | cons d ds ih => rw [treesOf, ih, List.map_cons]

theorem treeOf_record (es : List (String × Data)) :
    treeOf (.record es) = .object (es.map fun e => (piecesOf e.1, treeOf e.2)) := by
  rw [Data.record, treeOf]
  congr 1
  induction es with
  | nil => rfl
  | cons e es ih =>
      rw [List.map_cons, membersOf, ih]
      rfl

/-! ## The text is read as the tree -/

namespace Tree

theorem skipSpace_cons {c : Char} (h : isSpace c = false) (cs : List Char) :
    skipSpace (c :: cs) = c :: cs :=
  List.dropWhile_cons_of_neg (by simp [h])

/-- A written value starts with none of the characters that the reader looks for
before a value. -/
theorem chars_head {n : Nat} {d : Data} (h : Plain n d) :
    ∃ c cs, chars d = c :: cs ∧ isSpace c = false ∧ c ≠ ']' := by
  match n, d with
  | _, .bool true => exact ⟨_, _, rfl, by decide, by decide⟩
  | _, .bool false => exact ⟨_, _, rfl, by decide, by decide⟩
  | _, .text s => exact ⟨_, _, rfl, by decide, by decide⟩
  | _, .list ds => exact ⟨_, _, by rw [chars], by decide, by decide⟩
  | _, .table es => exact ⟨_, _, by rw [chars], by decide, by decide⟩

theorem read?_text (fuel : Nat) (s : String) (rest : List Char) :
    read? (fuel + 1) (chars (.text s) ++ rest) = some (.text (piecesOf s), rest) := by
  have hread := readPieces?_quoted s.toList rest
  have hchars : chars (.text s) ++ rest = '"' :: (s.toList.flatMap quotedChar ++ '"' :: rest) := by
    simp [chars, scalar, quoted]
  rw [hchars, read?, skipSpace_cons (by decide)]
  show (readPieces? _).map _ = _
  rw [hread]
  rfl

theorem read?_array {c : Char} (hspace : isSpace c = false) (hclose : c ≠ ']') (fuel : Nat)
    (cs : List Char) :
    read? (fuel + 1) ('[' :: c :: cs) =
      (readItems? fuel (c :: cs)).map fun hit => (.array hit.1, hit.2) := by
  rw [read?, skipSpace_cons (by decide)]
  split
  · next heq =>
      obtain rfl := (List.cons.inj heq).2
      rw [skipSpace_cons hspace]
      split
      · next h => exact absurd (List.cons.inj h).1 hclose
      · rfl
  · next heq => exact absurd (List.cons.inj heq).1 (by decide)
  · next hother _ => exact absurd rfl (hother _)

theorem read?_object (fuel : Nat) (cs : List Char) :
    read? (fuel + 1) ('\x7b' :: '"' :: cs) =
      (readMembers? fuel ('"' :: cs)).map fun hit => (.object hit.1, hit.2) :=
  rfl

theorem itemChars_cons_cons (d d' : Data) (ds : List Data) :
    itemChars (d :: d' :: ds) = chars d ++ ',' :: itemChars (d' :: ds) := by
  rw [itemChars]
  exact List.cons_ne_nil _ _

theorem entryChars_cons_cons (k v : Data) (e : Data × Data) (es : List (Data × Data)) :
    entryChars ((k, v) :: e :: es) = memberKey k ++ ':' :: chars v ++ ',' :: entryChars (e :: es) := by
  rw [entryChars]
  exact List.cons_ne_nil _ _

theorem itemChars_head {n : Nat} {d : Data} {ds : List Data} (h : EachPlain n (d :: ds)) :
    ∃ c cs, itemChars (d :: ds) = c :: cs ∧ isSpace c = false ∧ c ≠ ']' := by
  obtain ⟨c, cs, hchars, hspace, hclose⟩ := chars_head h.1
  cases ds with
  | nil => exact ⟨c, cs ++ [']'], by rw [itemChars, hchars]; rfl, hspace, hclose⟩
  | cons d' ds =>
      exact ⟨c, _, by rw [itemChars_cons_cons, hchars, List.cons_append], hspace, hclose⟩

theorem entryChars_head {n : Nat} {e : Data × Data} {es : List (Data × Data)}
    (h : EachEntryPlain n (e :: es)) : ∃ cs, entryChars (e :: es) = '"' :: cs := by
  obtain ⟨k, v⟩ := e
  obtain ⟨⟨s, rfl⟩, -, -⟩ := h
  cases es with
  | nil => exact ⟨_, by rw [entryChars, memberKey, quoted]; rfl⟩
  | cons e es => exact ⟨_, by rw [entryChars_cons_cons, memberKey, quoted]; rfl⟩

theorem exists_succ_of_length_le {c : Char} {cs text : List Char} (h : text = c :: cs)
    {fuel : Nat} (hfuel : text.length ≤ fuel) : ∃ less, fuel = less + 1 := by
  rw [h, List.length_cons] at hfuel
  exact Nat.exists_eq_add_of_le' (Nat.le_trans (Nat.le_add_left 1 _) hfuel)

/-- After its key a member is read like a value. -/
theorem readMembers?_key (fuel : Nat) (s : String) (cs : List Char) :
    readMembers? (fuel + 1) (memberKey (.text s) ++ ':' :: cs) =
      (do
        let (value, rest) ← read? fuel cs
        match skipSpace rest with
        | ',' :: rest =>
            let (members, rest) ← readMembers? fuel rest
            return ((piecesOf s, value) :: members, rest)
        | '\x7d' :: rest => return ([(piecesOf s, value)], rest)
        | _ => none) := by
  have hchars : memberKey (.text s) ++ ':' :: cs =
      '"' :: (s.toList.flatMap quotedChar ++ '"' :: ':' :: cs) := by
    simp [memberKey, quoted]
  have hkey := readPieces?_quoted s.toList (':' :: cs)
  rw [hchars]
  show (readPieces? _).bind _ = _
  rw [hkey]
  rfl

-- All three inductions are on the budget, which shrinks by one where a value is taken
-- apart and where its items are gone through.
mutual

/-- With a step for each character a written value is read, and no more. -/
theorem read?_chars {n : Nat} {d : Data} (h : Plain n d) {fuel : Nat}
    (hfuel : (chars d).length ≤ fuel) (rest : List Char) :
    read? fuel (chars d ++ rest) = some (treeOf d, rest) := by
  obtain ⟨c, cs, hchars, -, -⟩ := chars_head h
  obtain ⟨fuel, rfl⟩ := exists_succ_of_length_le hchars hfuel
  match n, d with
  | _, .bool true => rfl
  | _, .bool false => rfl
  | _, .text s => exact read?_text fuel s rest
  | _, .list [] => rfl
  | n + 1, .list (d :: ds) =>
      have hitems : EachPlain n (d :: ds) := h
      rw [chars, List.length_cons] at hfuel
      have hread := readItems?_itemChars hitems (Nat.le_of_succ_le_succ hfuel) rest
      obtain ⟨c, cs, hhead, hspace, hclose⟩ := itemChars_head hitems
      rw [chars, List.cons_append, hhead, List.cons_append, read?_array hspace hclose,
        ← List.cons_append, ← hhead, hread]
      rfl
  | _, .table [] => rfl
  | n + 1, .table (e :: es) =>
      have hentries : EachEntryPlain n (e :: es) := h
      rw [chars, List.length_cons] at hfuel
      have hread := readMembers?_entryChars hentries (Nat.le_of_succ_le_succ hfuel) rest
      obtain ⟨cs, hhead⟩ := entryChars_head hentries
      rw [chars, List.cons_append, hhead, List.cons_append, read?_object, ← List.cons_append,
        ← hhead, hread]
      rfl
termination_by fuel

theorem readItems?_itemChars {n : Nat} {d : Data} {ds : List Data} (h : EachPlain n (d :: ds))
    {fuel : Nat} (hfuel : (itemChars (d :: ds)).length ≤ fuel) (rest : List Char) :
    readItems? fuel (itemChars (d :: ds) ++ rest) = some (treesOf (d :: ds), rest) := by
  obtain ⟨c, cs, hhead, -, -⟩ := itemChars_head h
  obtain ⟨fuel, rfl⟩ := exists_succ_of_length_le hhead hfuel
  obtain ⟨hd, hds⟩ := h
  cases ds with
  | nil =>
      rw [itemChars, List.length_append, List.length_singleton] at hfuel
      have hread := read?_chars hd (Nat.le_of_succ_le_succ hfuel) (']' :: rest)
      rw [itemChars, List.append_assoc, List.singleton_append, readItems?, hread]
      rfl
  | cons d' ds =>
      rw [itemChars_cons_cons, List.length_append, List.length_cons] at hfuel
      have hlength : (chars d).length ≤ fuel ∧ (itemChars (d' :: ds)).length ≤ fuel := by omega
      have hread := read?_chars hd hlength.1 (',' :: (itemChars (d' :: ds) ++ rest))
      have hmore := readItems?_itemChars hds hlength.2 rest
      rw [itemChars_cons_cons, List.append_assoc, List.cons_append, readItems?, hread]
      show (readItems? fuel _).bind _ = _
      rw [hmore]
      rfl
termination_by fuel

theorem readMembers?_entryChars {n : Nat} {e : Data × Data} {es : List (Data × Data)}
    (h : EachEntryPlain n (e :: es)) {fuel : Nat}
    (hfuel : (entryChars (e :: es)).length ≤ fuel) (rest : List Char) :
    readMembers? fuel (entryChars (e :: es) ++ rest) = some (membersOf (e :: es), rest) := by
  obtain ⟨cs, hhead⟩ := entryChars_head h
  obtain ⟨fuel, rfl⟩ := exists_succ_of_length_le hhead hfuel
  obtain ⟨k, v⟩ := e
  obtain ⟨⟨s, rfl⟩, hv, hes⟩ := h
  cases es with
  | nil =>
      have hlength : (chars v).length ≤ fuel := by
        simp only [entryChars, List.length_append, List.length_cons, List.length_nil] at hfuel
        omega
      have hread := read?_chars hv hlength ('\x7d' :: rest)
      rw [entryChars, List.append_assoc, List.append_assoc, List.cons_append,
        List.singleton_append, readMembers?_key, hread]
      rfl
  | cons e es =>
      have hlength : (chars v).length ≤ fuel ∧ (entryChars (e :: es)).length ≤ fuel := by
        simp only [entryChars_cons_cons, List.length_append, List.length_cons] at hfuel
        omega
      have hread := read?_chars hv hlength.1 (',' :: (entryChars (e :: es) ++ rest))
      have hmore := readMembers?_entryChars hes hlength.2 rest
      rw [entryChars_cons_cons, List.append_assoc, List.append_assoc, List.cons_append,
        List.cons_append, readMembers?_key, hread]
      show (readMembers? fuel _).bind _ = _
      rw [hmore]
      rfl
termination_by fuel

end

/-- The text of plain data is read as its tree. -/
theorem ofText?_text {n : Nat} {d : Data} (h : Plain n d) :
    ofText? (Json.text d) = some (treeOf d) := by
  have hread := read?_chars h (Nat.le_succ _) []
  rw [List.append_nil] at hread
  rw [ofText?, Json.text, String.toList_ofList, hread]
  rfl

/-! ## The tree stands for the data -/

mutual

theorem toData?_treeOf {n : Nat} {d : Data} (h : Plain n d) {depth : Nat} (hdepth : n < depth) :
    (treeOf d).toData? depth = some d := by
  match n, d with
  | _, .bool b => rfl
  | _, .text s =>
      rw [treeOf, toData?, piecesOf, textOf?_pieces, Option.map_some, String.ofList_toList]
  | n + 1, .list ds =>
      have hitems : EachPlain n ds := h
      rw [treeOf, toData?, if_neg (by omega), itemsToData?_treesOf hitems (by omega)]
      rfl
  | n + 1, .table es =>
      have hentries : EachEntryPlain n es := h
      rw [treeOf, toData?, if_neg (by omega), membersToData?_membersOf hentries (by omega)]
      rfl

theorem itemsToData?_treesOf {n : Nat} {ds : List Data} (h : EachPlain n ds) {depth : Nat}
    (hdepth : n < depth) : itemsToData? depth (treesOf ds) = some ds := by
  match ds with
  | [] => rfl
  | d :: ds =>
      rw [treesOf, itemsToData?, toData?_treeOf h.1 hdepth, itemsToData?_treesOf h.2 hdepth]
      rfl

theorem membersToData?_membersOf {n : Nat} {es : List (Data × Data)} (h : EachEntryPlain n es)
    {depth : Nat} (hdepth : n < depth) : membersToData? depth (membersOf es) = some es := by
  match es with
  | [] => rfl
  | (k, v) :: es =>
      obtain ⟨⟨s, rfl⟩, hv, hes⟩ := h
      rw [membersOf, membersToData?, piecesOf, textOf?_pieces, toData?_treeOf hv hdepth,
        membersToData?_membersOf hes hdepth]
      show some ((Data.text (String.ofList s.toList), v) :: es) = _
      rw [String.ofList_toList]

end

end Tree

end AtomicStyles.Json
