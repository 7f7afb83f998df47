import Mathlib.Data.Option.Basic
import AtomicStyles.Json.Config
import AtomicStyles.Proofs.JsonText
import AtomicStyles.Proofs.Overlay
import AtomicStyles.Proofs.Success

/-!
# Configurations read back

A configuration is written as the data of its entries, each in its own form, and
the forms have no mark. The reader tries them in order, so an entry comes back in
the first form that its data fits. Lists and detailed entries come back as they
were. A table of values may fit the detailed form: numbers and repeats are gone
once it has been read, and then `unit` with a text for a value is a field. This
file says which tables these are and that everything else survives, order and
form included.

What has been read has no key twice, and that is all that the proof needs of it.
-/

namespace AtomicStyles

theorem mapM_map_eq_some {α β γ : Type} {a : α → β} {f : β → Option γ} {g : α → γ} {xs : List α}
    (h : ∀ x ∈ xs, f (a x) = some (g x)) : (xs.map a).mapM f = some (xs.map g) := by
  rw [List.mapM_map]
  exact mapM_eq_some h

theorem exists_of_mapM_eq_some {α β : Type} {f : α → Option β} {xs : List α} {ys : List β}
    (h : xs.mapM f = some ys) {y : β} (hy : y ∈ ys) : ∃ x ∈ xs, f x = some y := by
  induction xs generalizing ys with
  | nil =>
      cases h
      cases hy
  | cons x xs ih =>
      rw [List.mapM_cons] at h
      obtain ⟨first, hfirst, h⟩ := Option.bind_eq_some_iff.1 h
      obtain ⟨rest, hrest, h⟩ := Option.bind_eq_some_iff.1 h
      cases h
      rcases List.mem_cons.1 hy with rfl | hy
      · exact ⟨x, List.mem_cons_self, hfirst⟩
      · obtain ⟨x', hx', hf⟩ := ih hrest hy
        exact ⟨x', List.mem_cons_of_mem _ hx', hf⟩

/-! ## Tables of values that look like fields -/

/-- A table of values that has the detailed form when it is written: it has no names
but `kind`, with the name of a kind, and `unit`. -/
def LooksDetailed (entries : Entries String) : Prop :=
  ∀ e ∈ entries, e.1 = "kind" ∧ (PropertyKind.ofName? e.2).isSome ∨ e.1 = "unit"

instance (entries : Entries String) : Decidable (LooksDetailed entries) :=
  inferInstanceAs (Decidable (∀ e ∈ entries, _))

namespace DetailedProperty

/-- The property with the kind and the unit that a table of values names. -/
def overlaid (p : DetailedProperty) (entries : Entries String) : DetailedProperty :=
  { p with
    kind := ((entries.get? "kind").bind PropertyKind.ofName?).getD p.kind
    unit := (entries.get? "unit").or p.unit }

/-- The fields of a table of texts. -/
abbrev textFields (entries : Entries String) : List (Data × Data) :=
  entries.map fun e => (.text e.1, .text e.2)

theorem readFields?_cons {p : DetailedProperty} {seen : List Field} {key value : Data}
    {es : List (Data × Data)} {f : Field} (hkey : Field.ofKey? key = some f) (hseen : f ∉ seen) :
    readFields? p seen ((key, value) :: es) =
      (p.setField? f value).bind fun p => readFields? p (f :: seen) es := by
  have hguard : (guard ((!seen.contains f) = true) : Option Unit) = some () :=
    if_pos (by simpa using hseen)
  rw [readFields?, hkey]
  show Option.bind (guard ((!seen.contains f) = true)) _ = _
  rw [hguard]
  rfl

/-- A table that looks like fields is read as fields. -/
theorem readFields?_of_looksDetailed {entries : Entries String} (hd : entries.Distinct)
    (h : LooksDetailed entries) {p : DetailedProperty} {seen : List Field}
    (hkind : "kind" ∈ entries.keys → Field.kind ∉ seen)
    (hunit : "unit" ∈ entries.keys → Field.unit ∉ seen) :
    readFields? p seen (textFields entries) = some (p.overlaid entries) := by
  induction entries generalizing p seen with
  | nil => rfl
  | cons e es ih =>
      obtain ⟨key, value⟩ := e
      obtain ⟨hnew, hrest⟩ := Entries.distinct_cons_iff.1 hd
      obtain ⟨he, hes⟩ := List.forall_mem_cons.1 h
      rw [textFields, List.map_cons, ← textFields]
      -- the name does not come again, so the rest looks for the other field alone
      rcases he with ⟨rfl, hname⟩ | rfl
      · obtain ⟨kind, hname⟩ := Option.isSome_iff_exists.1 hname
        have hset : p.setField? .kind (.text value) = some { p with kind } :=
          congrArg (Option.map _) hname
        have hunit' : "unit" ∈ Entries.keys es → Field.unit ∉ Field.kind :: seen := fun hmem => by
          simpa using hunit (List.mem_cons_of_mem _ hmem)
        rw [readFields?_cons rfl (hkind List.mem_cons_self), hset, Option.bind_some,
          ih hrest hes (fun hmem => absurd hmem hnew) hunit', overlaid, overlaid,
          Entries.get?_eq_none_iff.2 hnew]
        simp [Entries.get?, hname]
      · have hset : p.setField? .unit (.text value) = some { p with unit := some value } := rfl
        have hkind' : "kind" ∈ Entries.keys es → Field.kind ∉ Field.unit :: seen := fun hmem => by
          simpa using hkind (List.mem_cons_of_mem _ hmem)
        rw [readFields?_cons rfl (hunit List.mem_cons_self), hset, Option.bind_some,
          ih hrest hes hkind' (fun hmem => absurd hmem hnew), overlaid, overlaid,
          Entries.get?_eq_none_iff.2 hnew]
        simp [Entries.get?]

/-- `values` and `targets` hold no text. -/
theorem field_of_setField? {p p' : DetailedProperty} {key value : String} {f : Field}
    (hf : Field.ofKey? (.text key) = some f) (hset : p.setField? f (.text value) = some p') :
    key = "kind" ∧ (PropertyKind.ofName? value).isSome ∨ key = "unit" := by
  unfold Field.ofKey? at hf
  split at hf
  · next hkey =>
      cases hf
      obtain ⟨kind, hkind, -⟩ := Option.map_eq_some_iff.1 hset
      exact .inl ⟨Data.text.inj hkey, Option.isSome_iff_exists.2 ⟨kind, hkind⟩⟩
  · cases hf
    cases hset
  · cases hf
    cases hset
  · next hkey => exact .inr (Data.text.inj hkey)
  all_goals contradiction

/-- Only such a table is. -/
theorem looksDetailed_of_readFields? {entries : Entries String} {p q : DetailedProperty}
    {seen : List Field} (h : readFields? p seen (textFields entries) = some q) :
    LooksDetailed entries := by
  induction entries generalizing p seen with
  | nil => simp [LooksDetailed]
  | cons e es ih =>
      rw [textFields, List.map_cons, ← textFields, readFields?] at h
      obtain ⟨f, hf, h⟩ := Option.bind_eq_some_iff.1 h
      obtain ⟨-, -, h⟩ := Option.bind_eq_some_iff.1 h
      obtain ⟨p', hset, h⟩ := Option.bind_eq_some_iff.1 h
      exact List.forall_mem_cons.2 ⟨field_of_setField? hf hset, ih h⟩

end DetailedProperty

/-! ## One property entry -/

theorem textTable_eq (entries : Entries String) :
    textTable entries = .table (DetailedProperty.textFields entries) := by
  rw [textTable, Data.record, List.map_map]
  rfl

theorem valueMap?_textTable {entries : Entries String} (hd : entries.Distinct) :
    valueMap? (textTable entries) = some entries := by
  have hpairs : ((DetailedProperty.textFields entries).mapM fun e => do
      let key ← Literal.ofData? e.1
      let value ← Literal.ofData? e.2
      return (key.key, value.key)) = some (entries.map id) :=
    mapM_map_eq_some fun _ _ => rfl
  rw [textTable_eq, valueMap?, hpairs, List.map_id]
  exact congrArg some (Entries.ofList_of_distinct hd)

theorem texts?_textList (items : List String) : texts? (textList items) = some items := by
  have hitems : (items.map Data.text).mapM Data.text? = some (items.map id) :=
    mapM_map_eq_some fun _ _ => rfl
  rw [textList, texts?, hitems, List.map_id]

theorem PropertyKind.ofName?_name (kind : PropertyKind) : ofName? kind.name = some kind := by
  cases kind <;> rfl

namespace DetailedProperty

/-- The unit of a detailed entry is its last field, if it has one. -/
theorem readFields?_unit {p : DetailedProperty} {seen : List Field} (hseen : Field.unit ∉ seen)
    (hunit : p.unit = none) (unit : Option String) :
    readFields? p seen (unit.map fun u => (Data.text "unit", Data.text u)).toList =
      some { p with unit } := by
  obtain ⟨kind, values, targets, _⟩ := p
  obtain rfl := hunit
  cases unit with
  | none => rfl
  | some u =>
      rw [Option.map_some, Option.toList_some, readFields?_cons rfl hseen]
      rfl

/-- A detailed entry is read back. -/
theorem ofData?_toData {p : DetailedProperty} (hd : p.values.Distinct) :
    ofData? (PropertyConfig.toData (.detailed p)) = some p := by
  obtain ⟨kind, values, targets, unit⟩ := p
  have hkind : setField? {} .kind (.text kind.name) = some { kind } :=
    congrArg (Option.map _) kind.ofName?_name
  have hvalues : setField? { kind } .values (textTable values) = some { kind, values } :=
    congrArg (Option.map _) (valueMap?_textTable hd)
  have htargets : setField? { kind, values } .targets (textList targets) =
      some { kind, values, targets } :=
    congrArg (Option.map _) (texts?_textList targets)
  have hdata : PropertyConfig.toData (.detailed ⟨kind, values, targets, unit⟩) =
      .table ((.text "kind", .text kind.name) :: (.text "values", textTable values) ::
        ((if targets.isEmpty then [] else [(.text "targets", textList targets)])
          ++ (unit.map fun u => (Data.text "unit", Data.text u)).toList)) := by
    cases targets <;> cases unit <;> rfl
  rw [hdata, ofData?, readFields?_cons rfl (by simp), hkind, Option.bind_some,
    readFields?_cons rfl (by simp), hvalues, Option.bind_some]
  cases targets with
  | nil => exact readFields?_unit (by simp) rfl unit
  | cons target targets =>
      rw [if_neg (by simp), List.singleton_append, readFields?_cons rfl (by simp), htargets,
        Option.bind_some]
      exact readFields?_unit (by simp) rfl unit

theorem distinct_of_valueMap? {d : Data} {entries : Entries String}
    (h : valueMap? d = some entries) : entries.Distinct := by
  cases d with
  | table es =>
      obtain ⟨pairs, -, heq⟩ := Option.bind_eq_some_iff.1 h
      cases heq
      exact Entries.distinct_ofList pairs
  | _ => cases h

theorem distinct_of_setField? {p p' : DetailedProperty} {f : Field} {d : Data}
    (hp : p.values.Distinct) (h : p.setField? f d = some p') : p'.values.Distinct := by
  cases f with
  | values =>
      obtain ⟨values, hvalues, rfl⟩ := Option.map_eq_some_iff.1 h
      exact distinct_of_valueMap? hvalues
  | _ =>
      obtain ⟨_, -, rfl⟩ := Option.map_eq_some_iff.1 h
      exact hp

theorem distinct_of_readFields? {p p' : DetailedProperty} {seen : List Field}
    {es : List (Data × Data)} (hp : p.values.Distinct) (h : readFields? p seen es = some p') :
    p'.values.Distinct := by
  induction es generalizing p seen with
  | nil =>
      cases h
      exact hp
  | cons e es ih =>
      rw [readFields?] at h
      obtain ⟨f, -, h⟩ := Option.bind_eq_some_iff.1 h
      obtain ⟨-, -, h⟩ := Option.bind_eq_some_iff.1 h
      obtain ⟨next, hset, h⟩ := Option.bind_eq_some_iff.1 h
      exact ih (distinct_of_setField? hp hset) h

theorem distinct_of_readPositions? {p p' : DetailedProperty} {fs : List Field} {ds : List Data}
    (hp : p.values.Distinct) (h : readPositions? p fs ds = some p') : p'.values.Distinct := by
  induction ds generalizing p fs with
  | nil =>
      cases fs <;> cases h <;> exact hp
  | cons d ds ih =>
      cases fs with
      | nil => cases h
      | cons f fs =>
          rw [readPositions?] at h
          obtain ⟨next, hset, h⟩ := Option.bind_eq_some_iff.1 h
          exact ih (distinct_of_setField? hp hset) h

theorem distinct_of_ofData? {d : Data} {p : DetailedProperty} (h : ofData? d = some p) :
    p.values.Distinct := by
  have hempty : ({} : DetailedProperty).values.Distinct := Entries.distinct_nil
  cases d with
  | table es => exact distinct_of_readFields? hempty h
  | list ds => exact distinct_of_readPositions? hempty h
  | _ => cases h

end DetailedProperty

namespace PropertyConfig

/-- The entry that is read where this one was written. -/
def reread : PropertyConfig → PropertyConfig
  | .mapped entries =>
      if LooksDetailed entries then .detailed (DetailedProperty.overlaid {} entries)
      else .mapped entries
  | p => p

/-- No table of the entry has a name twice. -/
def Distinct : PropertyConfig → Prop
  | .listed _ => True
  | .detailed p => p.values.Distinct
  | .mapped entries => entries.Distinct

theorem ofData?_toData {p : PropertyConfig} (hd : p.Distinct) :
    ofData? p.toData = some p.reread := by
  cases p with
  | listed items =>
      have hitems : (items.map Literal.toData).mapM Literal.ofData? = some (items.map id) :=
        mapM_map_eq_some fun l _ => by cases l <;> rfl
      rw [toData, ofData?, list?, hitems, List.map_id]
      rfl
  | detailed p =>
      have hlist : list? (toData (.detailed p)) = none := rfl
      rw [ofData?, hlist, DetailedProperty.ofData?_toData hd]
      rfl
  | mapped entries =>
      -- the detailed form is tried before the table of values, which always fits
      have hlist : list? (toData (.mapped entries)) = none := rfl
      have hmap : valueMap? (toData (.mapped entries)) = some entries := valueMap?_textTable hd
      have hfields : DetailedProperty.ofData? (toData (.mapped entries)) =
          DetailedProperty.readFields? {} [] (DetailedProperty.textFields entries) :=
        congrArg DetailedProperty.ofData? (textTable_eq entries)
      rw [ofData?, hlist, hmap, hfields, reread]
      split
      · next h =>
          rw [DetailedProperty.readFields?_of_looksDetailed hd h (by simp) (by simp)]
          rfl
      · next h =>
          have hnone : DetailedProperty.readFields? {} []
              (DetailedProperty.textFields entries) = none :=
            Option.eq_none_iff_forall_ne_some.2 fun q hq =>
              h (DetailedProperty.looksDetailed_of_readFields? hq)
          rw [hnone]
          rfl

theorem distinct_of_ofData? {d : Data} {p : PropertyConfig} (h : ofData? d = some p) :
    p.Distinct := by
  rw [ofData?] at h
  cases hlist : list? d with
  | some q =>
      rw [hlist] at h
      obtain rfl : q = p := Option.some.inj h
      cases d with
      | list items =>
          obtain ⟨literals, -, rfl⟩ := Option.map_eq_some_iff.1 hlist
          trivial
      | _ => cases hlist
  | none =>
      rw [hlist] at h
      cases hform : DetailedProperty.ofData? d with
      | some form =>
          rw [hform] at h
          obtain rfl : PropertyConfig.detailed form = p := Option.some.inj h
          exact DetailedProperty.distinct_of_ofData? hform
      | none =>
          rw [hform] at h
          obtain ⟨entries, hentries, rfl⟩ := Option.map_eq_some_iff.1 h
          exact DetailedProperty.distinct_of_valueMap? hentries

theorem reread_eq_self_iff {p : PropertyConfig} :
    p.reread = p ↔ ∀ entries, p = .mapped entries → ¬ LooksDetailed entries := by
  cases p with
  | listed items => simp [reread]
  | detailed p => simp [reread]
  | mapped entries =>
      rw [reread]
      split
      · next h => simp [h]
      · next h => simp [h]

end PropertyConfig

/-! ## The whole configuration -/

namespace ThemeConfig

/-- No table of the configuration has a name twice. -/
structure Distinct (c : ThemeConfig) : Prop where
  properties : c.properties.Distinct
  each : ∀ e ∈ c.properties, e.2.Distinct
  conditions : c.conditions.Distinct
  shorthands : c.shorthands.Distinct

/-- The configuration that is read where this one was written. -/
def reread (c : ThemeConfig) : ThemeConfig :=
  { c with properties := c.properties.map fun e => (e.1, e.2.reread) }

theorem reread_eq_self_iff {c : ThemeConfig} :
    c.reread = c ↔
      ∀ e ∈ c.properties, ∀ entries, e.2 = .mapped entries → ¬ LooksDetailed entries := by
  obtain ⟨properties, conditions, shorthands⟩ := c
  have hmap : (properties.map fun e => (e.1, e.2.reread)) = properties ↔
      ∀ e ∈ properties, e.2.reread = e.2 := by
    calc (properties.map fun e => (e.1, e.2.reread)) = properties
        ↔ (properties.map fun e => (e.1, e.2.reread)) = properties.map id := by
          rw [List.map_id]
      _ ↔ ∀ e ∈ properties, (e.1, e.2.reread) = id e := List.map_inj_left
      _ ↔ ∀ e ∈ properties, e.2.reread = e.2 := by simp [Prod.ext_iff]
  simp only [reread, mk.injEq, and_true, hmap, PropertyConfig.reread_eq_self_iff]

end ThemeConfig

namespace Json

theorem plain_textTable (n : Nat) (entries : Entries String) : Plain (n + 1) (textTable entries) :=
  plain_record fun e he => by
    obtain ⟨e', -, rfl⟩ := List.mem_map.1 he
    simp [Plain]

theorem plain_textList (n : Nat) (items : List String) : Plain (n + 1) (textList items) :=
  plain_list fun d hd => by
    obtain ⟨item, -, rfl⟩ := List.mem_map.1 hd
    simp [Plain]

/-- The entry is no list that holds a number. -/
def Numberless (p : PropertyConfig) : Prop :=
  ∀ items, p = .listed items → ∀ l ∈ items, ¬ l.isNumber

theorem plain_property {p : PropertyConfig} (h : Numberless p) : Plain 2 p.toData := by
  cases p with
  | listed items =>
      refine plain_list fun d hd => ?_
      obtain ⟨l, hl, rfl⟩ := List.mem_map.1 hd
      have hl := h items rfl l hl
      cases l with
      | bool b => simp [Literal.toData, Plain]
      | number n => exact absurd rfl hl
      | text s => simp [Literal.toData, Plain]
  | mapped entries => exact plain_textTable 1 entries
  | detailed p =>
      refine plain_record ?_
      simp only [List.forall_mem_append, List.forall_mem_cons]
      refine ⟨⟨⟨by simp [Plain], plain_textTable 0 p.values, by simp⟩, ?_⟩, ?_⟩
      · split
        · simp
        · exact List.forall_mem_singleton.2 (plain_textList 0 p.targets)
      · cases p.unit <;> simp [Plain]

theorem plain_config {c : ThemeConfig} (h : ∀ e ∈ c.properties, Numberless e.2) :
    Plain 4 c.toData := by
  refine plain_record ?_
  simp only [List.forall_mem_cons]
  refine ⟨plain_record fun e he => ?_, plain_textTable 2 _, plain_record fun e he => ?_, by simp⟩
  · obtain ⟨e', he', rfl⟩ := List.mem_map.1 he
    exact plain_property (h e' he')
  · obtain ⟨e', -, rfl⟩ := List.mem_map.1 he
    exact plain_textList 1 e'.2

theorem string?_treeOf (s : String) : string? (treeOf (.text s)) = some s := by
  rw [treeOf, string?, piecesOf, textOf?_pieces, Option.map_some, String.ofList_toList]

theorem strings?_treeOf (items : List String) : strings? (treeOf (textList items)) = some items := by
  have hitems : ((items.map Data.text).map treeOf).mapM string? = some (items.map id) := by
    rw [List.map_map]
    exact mapM_map_eq_some fun s _ => string?_treeOf s
  rw [textList, treeOf_list, strings?, hitems, List.map_id]

/-- Entries that are written one by one are read one by one. -/
theorem members?_treeOf {α β : Type} {read : Tree → Option β} {f : α → Data} {g : α → β}
    {es : Entries α} (hd : es.Distinct) (h : ∀ e ∈ es, read (treeOf (f e.2)) = some (g e.2)) :
    members? read (treeOf (.record (es.map fun e => (e.1, f e.2)))) =
      some (es.map fun e => (e.1, g e.2)) := by
  have hpairs : ((es.map fun e => (piecesOf e.1, treeOf (f e.2))).mapM fun m => do
      let key ← textOf? m.1
      let value ← read m.2
      return (String.ofList key, value)) = some (es.map fun e => (e.1, g e.2)) := by
    refine mapM_map_eq_some fun e he => ?_
    rw [piecesOf, textOf?_pieces, h e he]
    simp
  rw [treeOf_record, List.map_map, members?]
  show Option.bind ((es.map fun e => (piecesOf e.1, treeOf (f e.2))).mapM _) _ = _
  rw [hpairs]
  exact congrArg some (Entries.ofList_of_distinct (Entries.distinct_map _ hd))

theorem members?_treeOf_self {α : Type} {read : Tree → Option α} {f : α → Data}
    {es : Entries α} (hd : es.Distinct) (h : ∀ v, read (treeOf (f v)) = some v) :
    members? read (treeOf (.record (es.map fun e => (e.1, f e.2)))) = some es :=
  (members?_treeOf (g := id) hd fun e _ => h e.2).trans (congrArg some (List.map_id es))

namespace Config

theorem setField?_properties {c : ThemeConfig} {properties : Entries PropertyConfig}
    (hd : properties.Distinct) (heach : ∀ e ∈ properties, e.2.Distinct ∧ Numberless e.2) :
    setField? c .properties (treeOf (.record (properties.map fun e => (e.1, e.2.toData)))) =
      some { c with properties := properties.map fun e => (e.1, e.2.reread) } := by
  refine congrArg (Option.map _) (members?_treeOf hd fun e he => ?_)
  obtain ⟨hdistinct, hnumbers⟩ := heach e he
  rw [property?, Tree.toData?_treeOf (plain_property hnumbers) (by decide)]
  exact PropertyConfig.ofData?_toData hdistinct

theorem setField?_conditions {c : ThemeConfig} {conditions : Entries String}
    (hd : conditions.Distinct) :
    setField? c .conditions (treeOf (textTable conditions)) = some { c with conditions } :=
  congrArg (Option.map _) (members?_treeOf_self hd string?_treeOf)

theorem setField?_shorthands {c : ThemeConfig} {shorthands : Entries (List String)}
    (hd : shorthands.Distinct) :
    setField? c .shorthands
        (treeOf (.record (shorthands.map fun e => (e.1, textList e.2)))) =
      some { c with shorthands } :=
  congrArg (Option.map _) (members?_treeOf_self hd strings?_treeOf)

theorem readFields?_cons {c : ThemeConfig} {seen : List Field} {name : String} {f : Field}
    {t : Tree} {ms : List (List Piece × Tree)} (hname : Field.ofName? name = some f)
    (hseen : f ∉ seen) :
    readFields? c seen ((piecesOf name, t) :: ms) =
      (setField? c f t).bind fun c => readFields? c (f :: seen) ms := by
  have hguard : (guard ((!seen.contains f) = true) : Option Unit) = some () :=
    if_pos (by simpa using hseen)
  rw [readFields?, piecesOf, textOf?_pieces, Option.bind_eq_bind, Option.bind_some,
    String.ofList_toList, hname]
  show Option.bind (guard ((!seen.contains f) = true)) _ = _
  rw [hguard]
  rfl

/-- A written configuration is read as far as its forms can be told apart. -/
theorem ofTree?_toData {c : ThemeConfig} (hc : c.Distinct)
    (hnumbers : ∀ e ∈ c.properties, Numberless e.2) :
    ofTree? (treeOf c.toData) = some c.reread := by
  rw [ThemeConfig.toData, treeOf_record]
  show readFields? {} [] [(piecesOf "properties", _), (piecesOf "conditions", _),
    (piecesOf "shorthands", _)] = _
  rw [readFields?_cons rfl (by simp),
    setField?_properties hc.properties fun e he => ⟨hc.each e he, hnumbers e he⟩,
    Option.bind_some, readFields?_cons rfl (by simp), setField?_conditions hc.conditions,
    Option.bind_some, readFields?_cons rfl (by simp), setField?_shorthands hc.shorthands]
  rfl

/-! ## What has been read has no key twice -/

theorem distinct_of_members? {α : Type} {read : Tree → Option α} {t : Tree} {es : Entries α}
    (h : members? read t = some es) :
    es.Distinct ∧ ∀ e ∈ es, ∃ t, read t = some e.2 := by
  cases t with
  | object members =>
      obtain ⟨pairs, hpairs, heq⟩ := Option.bind_eq_some_iff.1 h
      cases heq
      refine ⟨Entries.distinct_ofList pairs, fun e he => ?_⟩
      obtain ⟨m, -, hm⟩ := exists_of_mapM_eq_some hpairs (Entries.mem_of_mem_ofList he)
      obtain ⟨key, -, hm⟩ := Option.bind_eq_some_iff.1 hm
      obtain ⟨value, hvalue, hm⟩ := Option.bind_eq_some_iff.1 hm
      cases hm
      exact ⟨m.2, hvalue⟩
  | _ => cases h

theorem distinct_of_setField? {c c' : ThemeConfig} {f : Field} {t : Tree} (hc : c.Distinct)
    (h : setField? c f t = some c') : c'.Distinct := by
  cases f with
  | properties =>
      obtain ⟨properties, hread, rfl⟩ := Option.map_eq_some_iff.1 h
      obtain ⟨hkeys, heach⟩ := distinct_of_members? hread
      refine { hc with properties := hkeys, each := fun e he => ?_ }
      obtain ⟨t, ht⟩ := heach e he
      obtain ⟨d, -, hd⟩ := Option.bind_eq_some_iff.1 ht
      exact PropertyConfig.distinct_of_ofData? hd
  | conditions =>
      obtain ⟨conditions, hread, rfl⟩ := Option.map_eq_some_iff.1 h
      exact { hc with conditions := (distinct_of_members? hread).1 }
  | shorthands =>
      obtain ⟨shorthands, hread, rfl⟩ := Option.map_eq_some_iff.1 h
      exact { hc with shorthands := (distinct_of_members? hread).1 }

theorem distinct_of_readFields? {c c' : ThemeConfig} {seen : List Field}
    {ms : List (List Piece × Tree)} (hc : c.Distinct) (h : readFields? c seen ms = some c') :
    c'.Distinct := by
  induction ms generalizing c seen with
  | nil =>
      cases h
      exact hc
  | cons m ms ih =>
      rw [readFields?] at h
      obtain ⟨name, -, h⟩ := Option.bind_eq_some_iff.1 h
      split at h
      · exact ih hc h
      · obtain ⟨-, -, h⟩ := Option.bind_eq_some_iff.1 h
        obtain ⟨next, hset, h⟩ := Option.bind_eq_some_iff.1 h
        exact ih (distinct_of_setField? hc hset) h

theorem distinct_of_readPositions? {c c' : ThemeConfig} {fs : List Field} {ts : List Tree}
    (hc : c.Distinct) (h : readPositions? c fs ts = some c') : c'.Distinct := by
  induction ts generalizing c fs with
  | nil =>
      cases fs <;> cases h <;> exact hc
  | cons t ts ih =>
      cases fs with
      | nil => cases h
      | cons f fs =>
          rw [readPositions?] at h
          obtain ⟨next, hset, h⟩ := Option.bind_eq_some_iff.1 h
          exact ih (distinct_of_setField? hc hset) h

end Config

theorem distinct_of_config {source : String} {c : ThemeConfig} (h : config source = .ok c) :
    c.Distinct := by
  have hempty : ThemeConfig.Distinct {} :=
    ⟨Entries.distinct_nil, by simp, Entries.distinct_nil, Entries.distinct_nil⟩
  rw [config] at h
  split at h
  · next c' hc =>
      cases h
      obtain ⟨tree, -, htree⟩ := Option.bind_eq_some_iff.1 hc
      cases tree with
      | object members => exact Config.distinct_of_readFields? hempty htree
      | array items => exact Config.distinct_of_readPositions? hempty htree
      | _ => cases htree
  · cases h

/-- A configuration that was read from a text, and that has no number in a list, is
written as a text that can be read. What is read from it has the same conditions and
shorthands, and the same properties in the same order and form, except that a table
of values which looks like fields has become a detailed entry. So it is the same
configuration exactly when it has no such table. -/
theorem config_reads_back {source : String} {c : ThemeConfig} (h : config source = .ok c)
    (hnumbers : ∀ e ∈ c.properties, Numberless e.2) :
    config (text c.toData) = .ok c.reread ∧
      (config (text c.toData) = .ok c ↔
        ∀ e ∈ c.properties, ∀ entries, e.2 = .mapped entries → ¬ LooksDetailed entries) := by
  have hread : config (text c.toData) = .ok c.reread := by
    rw [config, Tree.ofText?_text (plain_config hnumbers), Option.bind_some,
      Config.ofTree?_toData (distinct_of_config h) hnumbers]
  refine ⟨hread, ?_⟩
  rw [hread, ← ThemeConfig.reread_eq_self_iff]
  exact ⟨fun heq => Except.ok.inj heq, congrArg _⟩

/-- A text with entries of all three forms. -/
def formsText : String :=
  "\x7b\"properties\":\x7b\"display\":[\"block\",true],"
    ++ "\"width\":\x7b\"unit\":1,\"sm\":\"4px\"\x7d,"
    ++ "\"rotate\":\x7b\"unit\":\"deg\",\"kind\":\"arbitrary\"\x7d\x7d,"
    ++ "\"conditions\":\x7b\"dark\":\".dark &\"\x7d\x7d"

def formsConfig : ThemeConfig where
  properties :=
    [("display", .listed [.text "block", .bool true]),
     ("width", .mapped [("unit", "1"), ("sm", "4px")]),
     ("rotate", .detailed { kind := .arbitrary, unit := some "deg" })]
  conditions := [("dark", ".dark &")]

/-- All three come back as they were. The table has another name beside `unit`, so it
does not look like fields. -/
theorem config_reads_back_forms :
    config formsText = .ok formsConfig ∧ (∀ e ∈ formsConfig.properties, Numberless e.2) ∧
      config (text formsConfig.toData) = .ok formsConfig := by
  have hread : config formsText = .ok formsConfig := by decide +kernel
  have hnumbers : ∀ e ∈ formsConfig.properties, Numberless e.2 := by
    simp [formsConfig, Numberless, Literal.isNumber]
  refine ⟨hread, hnumbers, (config_reads_back hread hnumbers).2.2 ?_⟩
  exact ThemeConfig.reread_eq_self_iff.1 (by decide +kernel)

/-- The number `5` is read as the text of a value, is written as a text, and then is
read as a unit. -/
theorem unit_becomes_field :
    ∃ c, config "\x7b\"properties\":\x7b\"x\":\x7b\"unit\":5\x7d\x7d\x7d" = .ok c ∧
      c.properties = [("x", .mapped [("unit", "5")])] ∧
      (∀ e ∈ c.properties, Numberless e.2) ∧
      config (text c.toData) = .ok { properties := [("x", .detailed { unit := some "5" })] } ∧
      config (text c.toData) ≠ .ok c := by
  refine ⟨{ properties := [("x", .mapped [("unit", "5")])] }, ?_, rfl, ?_, ?_, ?_⟩
  · decide +kernel
  · simp [Numberless]
  · decide +kernel
  · decide +kernel

end Json

end AtomicStyles
