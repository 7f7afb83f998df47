import Mathlib.Data.List.Nodup
import AtomicStyles.Entries

/-!
# Entries put over others

Setting the entries of one ordered map in another is how class lists override
each other: a key that is there keeps its place and takes the new value, and a
new key goes to the end. What comes out is known from two questions alone, which
keys it has in what order and what value each of them has, so both are answered
here once. That putting over is associative then needs no induction.
-/

namespace AtomicStyles.Entries

variable {α : Type u}

/-! ## Looking up -/

theorem get?_insert (es : Entries α) (key : String) (value : α) (k : String) :
    (es.insert key value).get? k = if key = k then some value else es.get? k := by
  induction es with
  | nil => rfl
  | cons e es ih =>
      obtain ⟨k', v⟩ := e
      rw [insert]
      by_cases hk' : k' = key
      · rw [if_pos hk', get?, get?, hk']
        by_cases hk : key = k
        · rw [if_pos hk, if_pos hk]
        · rw [if_neg hk, if_neg hk, if_neg hk]
      · rw [if_neg hk', get?, get?, ih]
        by_cases hk : k' = k
        · rw [if_pos hk, if_pos hk, if_neg fun h => hk' (hk.trans h.symm)]
        · rw [if_neg hk, if_neg hk]

theorem get?_eq_none_iff {es : Entries α} {k : String} : es.get? k = none ↔ k ∉ es.keys := by
  induction es with
  | nil => simp [get?, keys]
  | cons e es ih =>
      obtain ⟨k', v⟩ := e
      rw [get?]
      by_cases hk : k' = k
      · simp [hk, keys]
      · rw [if_neg hk, ih]
        simp [keys, Ne.symm hk]

theorem distinct_nil : Distinct ([] : Entries α) := List.nodup_nil

theorem distinct_cons_iff {k : String} {v : α} {es : Entries α} :
    Distinct ((k, v) :: es) ↔ k ∉ es.keys ∧ es.Distinct :=
  List.nodup_cons

theorem mem_of_get? {es : Entries α} {k : String} {v : α} (h : es.get? k = some v) :
    (k, v) ∈ es := by
  induction es with
  | nil => cases h
  | cons e es ih =>
      obtain ⟨k', v'⟩ := e
      rw [get?] at h
      split at h
      · next hk =>
          rw [hk, Option.some.inj h]
          exact List.mem_cons_self
      · exact List.mem_cons_of_mem _ (ih h)

theorem get?_of_mem {es : Entries α} (hd : es.Distinct) {k : String} {v : α}
    (h : (k, v) ∈ es) : es.get? k = some v := by
  induction es with
  | nil => cases h
  | cons e es ih =>
      obtain ⟨k', v'⟩ := e
      obtain ⟨hnew, hd⟩ := distinct_cons_iff.1 hd
      rw [get?]
      rcases List.mem_cons.1 h with heq | hmem
      · cases heq
        exact if_pos rfl
      · have hk : k' ≠ k := by
          rintro rfl
          exact hnew (List.mem_map.2 ⟨(k', v), hmem, rfl⟩)
        rw [if_neg hk, ih hd hmem]

theorem get?_append (es fs : Entries α) (k : String) :
    get? (es ++ fs) k = (es.get? k).or (fs.get? k) := by
  induction es with
  | nil => rfl
  | cons e es ih =>
      obtain ⟨k', v⟩ := e
      rw [List.cons_append, get?, get?, ih]
      split <;> rfl

theorem has_iff {es : Entries α} {k : String} : es.has k ↔ k ∈ es.keys := by
  simp [has, keys]

theorem get?_eq_find? (es : Entries α) (k : String) : es.get? k = (es.find? k).map (·.2) := by
  induction es with
  | nil => rfl
  | cons e es ih =>
      obtain ⟨k', v⟩ := e
      rw [get?, find?]
      split
      · rfl
      · rw [ih, Option.map_map]
        rfl

/-- An entry that is found stands at its position. -/
theorem getElem?_of_find? {es : Entries α} {k : String} {p : Nat} {v : α}
    (h : es.find? k = some (p, v)) : es[p]? = some (k, v) := by
  induction es generalizing p with
  | nil => cases h
  | cons e es ih =>
      obtain ⟨k', w⟩ := e
      rw [find?] at h
      split at h
      · next hk =>
          cases h
          rw [hk]
          rfl
      · obtain ⟨⟨q, u⟩, hq, heq⟩ := Option.map_eq_some_iff.1 h
        cases heq
        exact ih hq

/-- An entry that has its key alone is found at its position. -/
theorem find?_of_getElem? {es : Entries α} (hd : es.Distinct) {k : String} {p : Nat} {v : α}
    (h : es[p]? = some (k, v)) : es.find? k = some (p, v) := by
  induction es generalizing p with
  | nil => cases h
  | cons e es ih =>
      obtain ⟨k', w⟩ := e
      obtain ⟨hnew, hd⟩ := distinct_cons_iff.1 hd
      cases p with
      | zero =>
          cases h
          exact if_pos rfl
      | succ p =>
          rw [List.getElem?_cons_succ] at h
          have hk : k' ≠ k := by
            rintro rfl
            exact hnew (List.mem_map.2 ⟨_, List.mem_of_getElem? h, rfl⟩)
          rw [find?, if_neg hk, ih hd h]
          rfl

theorem find?_eq_none_iff {es : Entries α} {k : String} : es.find? k = none ↔ k ∉ es.keys := by
  rw [← get?_eq_none_iff, get?_eq_find?, Option.map_eq_none_iff]

/-- An entry is found where it was however many follow it. -/
theorem find?_append_of_some {es : Entries α} {k : String} {hit : Nat × α}
    (h : es.find? k = some hit) (fs : Entries α) : find? (es ++ fs) k = some hit := by
  induction es generalizing hit with
  | nil => cases h
  | cons e es ih =>
      obtain ⟨k', v⟩ := e
      rw [find?] at h
      rw [List.cons_append, find?]
      split at h
      · next hk =>
          rw [if_pos hk]
          exact h
      · next hk =>
          obtain ⟨hit', hhit, rfl⟩ := Option.map_eq_some_iff.1 h
          rw [if_neg hk, ih hhit]
          rfl

theorem insert_append_same {es : Entries α} {k : String} (h : k ∉ es.keys) (v w : α) :
    insert (es ++ [(k, v)]) k w = es ++ [(k, w)] := by
  induction es with
  | nil => exact if_pos rfl
  | cons e es ih =>
      obtain ⟨k', v'⟩ := e
      have hk : k' ≠ k := fun heq => h (by simp [keys, heq])
      have hrest : k ∉ keys es := fun hmem => h (List.mem_cons_of_mem _ hmem)
      rw [List.cons_append, insert, if_neg hk, ih hrest, List.cons_append]

theorem insert_of_not_mem {es : Entries α} {k : String} (h : k ∉ es.keys) (v : α) :
    es.insert k v = es ++ [(k, v)] := by
  induction es with
  | nil => rfl
  | cons e es ih =>
      obtain ⟨k', v'⟩ := e
      have hk : k' ≠ k := fun heq => h (by simp [keys, heq])
      have hrest : k ∉ keys es := fun hmem => h (List.mem_cons_of_mem _ hmem)
      rw [insert, if_neg hk, ih hrest, List.cons_append]

theorem mem_insert {es : Entries α} {key : String} {value : α} {e : String × α}
    (h : e ∈ es.insert key value) : e = (key, value) ∨ e ∈ es := by
  induction es with
  | nil => exact .inl (List.mem_singleton.1 h)
  | cons e' es ih =>
      rw [insert] at h
      split at h
      · next hk =>
          subst hk
          exact (List.mem_cons.1 h).imp id (List.mem_cons_of_mem _)
      · rcases List.mem_cons.1 h with rfl | h
        · exact .inr List.mem_cons_self
        · exact (ih h).imp id (List.mem_cons_of_mem _)

theorem distinct_map {β : Type v} {es : Entries α} (f : String × α → β) (h : es.Distinct) :
    Distinct (es.map fun e => (e.1, f e)) := by
  rw [Distinct, keys, List.map_map]
  exact h

/-- Entries with distinct keys are known from their keys and lookups. -/
theorem ext_of_get? {es fs : Entries α} (hd : es.Distinct) (hkeys : es.keys = fs.keys)
    (hget : ∀ k, es.get? k = fs.get? k) : es = fs := by
  induction es generalizing fs with
  | nil => exact (List.map_eq_nil_iff.1 hkeys.symm).symm
  | cons e es ih =>
      obtain ⟨k, v⟩ := e
      cases fs with
      | nil => cases hkeys
      | cons f fs =>
          obtain ⟨k', v'⟩ := f
          obtain ⟨rfl, hrest⟩ := List.cons.inj hkeys
          obtain ⟨hnew, hd⟩ := distinct_cons_iff.1 hd
          have hv : v = v' := by
            have h := hget k
            rw [get?, get?, if_pos rfl, if_pos rfl] at h
            exact Option.some.inj h
          have htail : es = fs := by
            refine ih hd hrest fun k' => ?_
            by_cases hk : k = k'
            · have hnew' : k ∉ keys fs := by
                rwa [← show keys es = keys fs from hrest]
              rw [← hk, get?_eq_none_iff.2 hnew, get?_eq_none_iff.2 hnew']
            · have h := hget k'
              rw [get?, get?, if_neg hk, if_neg hk] at h
              exact h
          rw [hv, htail]

/-- Two lists of entries with the same lookups differ in their order alone. -/
theorem perm_of_get? {es fs : Entries α} (hes : es.Distinct) (hfs : fs.Distinct)
    (hget : ∀ k, es.get? k = fs.get? k) : es.Perm fs := by
  refine (List.perm_ext_iff_of_nodup (List.Nodup.of_map _ hes) (List.Nodup.of_map _ hfs)).2 ?_
  rintro ⟨k, v⟩
  constructor
  · intro h
    exact mem_of_get? ((hget k).symm.trans (get?_of_mem hes h))
  · intro h
    exact mem_of_get? ((hget k).trans (get?_of_mem hfs h))

/-! ## Setting many -/

/-- The entries of `later` set in `base`, one after another. -/
def put (base later : Entries α) : Entries α :=
  later.foldl (fun es e => es.insert e.1 e.2) base

theorem put_cons (base : Entries α) (k : String) (v : α) (later : Entries α) :
    base.put ((k, v) :: later) = (base.insert k v).put later := rfl

theorem distinct_put {base : Entries α} (h : base.Distinct) (later : Entries α) :
    (base.put later).Distinct := by
  induction later generalizing base with
  | nil => exact h
  | cons e later ih => exact ih (distinct_insert h e.1 e.2)

theorem keys_put (base : Entries α) {later : Entries α} (hd : later.Distinct) :
    (base.put later).keys = base.keys ++ later.keys.filter fun k => k ∉ base.keys := by
  induction later generalizing base with
  | nil => exact (List.append_nil _).symm
  | cons e later ih =>
      obtain ⟨k, v⟩ := e
      obtain ⟨hnew, hd⟩ := distinct_cons_iff.1 hd
      rw [put_cons, ih _ hd, show keys ((k, v) :: later) = k :: keys later from rfl,
        List.filter_cons]
      by_cases hk : k ∈ base.keys
      · rw [keys_insert_of_mem v hk, if_neg (by simpa using hk)]
      · have hrest : ((keys later).filter fun k' => k' ∉ base.keys ++ [k]) =
            (keys later).filter fun k' => k' ∉ base.keys := by
          refine List.filter_congr fun k' hk' => ?_
          have hne : k' ≠ k := fun h => hnew (h ▸ hk')
          simp [hne]
        rw [keys_insert_of_not_mem v hk, if_pos (by simpa using hk), hrest,
          List.append_assoc, List.singleton_append]

theorem get?_put (base : Entries α) {later : Entries α} (hd : later.Distinct) (k : String) :
    (base.put later).get? k = (later.get? k).or (base.get? k) := by
  induction later generalizing base with
  | nil => rfl
  | cons e later ih =>
      obtain ⟨k', v⟩ := e
      obtain ⟨hnew, hd⟩ := distinct_cons_iff.1 hd
      rw [put_cons, ih _ hd, get?_insert, get?]
      by_cases hk : k' = k
      · rw [if_pos hk, if_pos hk, get?_eq_none_iff.2 (hk ▸ hnew)]
        rfl
      · rw [if_neg hk, if_neg hk]

theorem nil_put {later : Entries α} (hd : later.Distinct) : put [] later = later := by
  refine ext_of_get? (distinct_put distinct_nil later) ?_ fun k => ?_
  · rw [keys_put [] hd]
    simp [keys]
  · rw [get?_put [] hd]
    exact Option.or_none

/-- Entries without repeats are collected as they stand. -/
theorem ofList_of_distinct {es : Entries α} (hd : es.Distinct) : ofList es = es :=
  nil_put hd

theorem mem_put {base later : Entries α} {e : String × α} (h : e ∈ base.put later) :
    e ∈ base ∨ e ∈ later := by
  induction later generalizing base with
  | nil => exact .inl h
  | cons e' later ih =>
      rcases ih h with h | h
      · rcases mem_insert h with rfl | h
        · exact .inr List.mem_cons_self
        · exact .inl h
      · exact .inr (List.mem_cons_of_mem _ h)

/-- Collecting makes up no entry. -/
theorem mem_of_mem_ofList {pairs : List (String × α)} {e : String × α} (h : e ∈ ofList pairs) :
    e ∈ pairs :=
  (mem_put h).resolve_left List.not_mem_nil

theorem put_self {es : Entries α} (hd : es.Distinct) : es.put es = es := by
  refine ext_of_get? (distinct_put hd es) ?_ fun k => ?_
  · rw [keys_put es hd, List.filter_eq_nil_iff.2 fun k hk => by simpa using hk, List.append_nil]
  · rw [get?_put es hd, Option.or_self]

theorem put_assoc {a b c : Entries α} (ha : a.Distinct) (hb : b.Distinct) (hc : c.Distinct) :
    (a.put b).put c = a.put (b.put c) := by
  have hbc := distinct_put hb c
  refine ext_of_get? (distinct_put (distinct_put ha b) c) ?_ fun k => ?_
  · have hkeys : ∀ k, (k ∉ a.keys ++ b.keys.filter fun k => k ∉ a.keys) ↔
        k ∉ b.keys ∧ k ∉ a.keys := by
      intro k
      simp only [List.mem_append, List.mem_filter, decide_eq_true_eq]
      tauto
    rw [keys_put _ hc, keys_put _ hb, keys_put _ hbc, keys_put _ hc, List.filter_append,
      List.filter_filter, List.append_assoc]
    simp only [hkeys, Bool.decide_and, Bool.and_comm]
  · rw [get?_put _ hc, get?_put _ hb, get?_put _ hbc, get?_put _ hc, Option.or_assoc]

end AtomicStyles.Entries
