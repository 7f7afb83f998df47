import Mathlib.Data.List.Forall2
import AtomicStyles.Style.Lowering

/-!
# What a successful pass says of its parts

Building a theme and lowering a description are runs of `Except`, and their
laws are stated of the runs that succeed. Such a run is a chain of successful
steps, and a pass over a list that succeeds is an answer for each item. These
are the two facts that take a run apart, so that no later proof has to open
the monad. A pass of `Option` is only asked for its answers where each item is
known to have one. A run that fails has the error of one of its parts.
-/

namespace AtomicStyles

variable {ε α β : Type}

/-- A chain succeeds when its first part does and the rest does from there. -/
theorem bind_eq_ok_iff {x : Except ε α} {f : α → Except ε β} {b : β} :
    (x >>= f) = .ok b ↔ ∃ a, x = .ok a ∧ f a = .ok b := by
  cases x with
  | error e => simp [bind, Except.bind]
  | ok a => simp [bind, Except.bind]

theorem map_eq_ok_iff {x : Except ε α} {f : α → β} {b : β} :
    x.map f = .ok b ↔ ∃ a, x = .ok a ∧ f a = b := by
  cases x with
  | error e => simp [Except.map]
  | ok a => simp [Except.map]

/-- A pass over a list succeeds with the answers for its items, in order. -/
theorem mapM_eq_ok_iff {f : α → Except ε β} {xs : List α} {ys : List β} :
    xs.mapM f = .ok ys ↔ List.Forall₂ (fun x y => f x = .ok y) xs ys := by
  induction xs generalizing ys with
  | nil =>
      rw [List.mapM_nil, List.forall₂_nil_left_iff]
      exact ⟨fun h => (Except.ok.inj h).symm, fun h => congrArg Except.ok h.symm⟩
  | cons x xs ih =>
      rw [List.mapM_cons, bind_eq_ok_iff, List.forall₂_cons_left_iff]
      constructor
      · rintro ⟨y, hy, hrest⟩
        obtain ⟨rest, hr, hb⟩ := bind_eq_ok_iff.1 hrest
        exact ⟨y, rest, hy, ih.1 hr, (Except.ok.inj hb).symm⟩
      · rintro ⟨y, rest, hy, hr, rfl⟩
        exact ⟨y, hy, bind_eq_ok_iff.2 ⟨rest, ih.2 hr, rfl⟩⟩

/-- What every successful step of a pass says, the whole pass says. -/
theorem foldlM_ok_induction {f : β → α → Except ε β} {P : β → List α → β → Prop}
    (nil : ∀ b, P b [] b)
    (cons : ∀ b x next xs c, f b x = .ok next → P next xs c → P b (x :: xs) c) {b c : β}
    {xs : List α} (h : xs.foldlM f b = .ok c) : P b xs c := by
  induction xs generalizing b with
  | nil =>
      obtain rfl := Except.ok.inj h
      exact nil b
  | cons x xs ih =>
      rw [List.foldlM_cons] at h
      obtain ⟨next, hnext, hrest⟩ := bind_eq_ok_iff.1 h
      exact cons b x next xs c hnext (ih hrest)

/-- What holds before a pass, and after each successful step if it held before, holds
after the pass. It may speak of the items that were taken up so far. -/
theorem foldlM_ok_invariant {f : β → α → Except ε β} {P : List α → β → Prop} {b c : β}
    {xs : List α} (h : xs.foldlM f b = .ok c) (nil : P [] b)
    (snoc : ∀ done x next last, P done next → f next x = .ok last → P (done ++ [x]) last) :
    P xs c := by
  refine foldlM_ok_induction (P := fun b xs c => ∀ done, P done b → P (done ++ xs) c)
    (fun b done hdone => ?_) (fun b x next xs c hx hxs done hdone => ?_) h [] nil
  · rw [List.append_nil]
    exact hdone
  · rw [List.append_cons]
    exact hxs _ (snoc done x b next hdone hx)

theorem mapM_eq_some {f : α → Option β} {g : α → β} {xs : List α}
    (h : ∀ x ∈ xs, f x = some (g x)) : xs.mapM f = some (xs.map g) := by
  induction xs with
  | nil => rfl
  | cons x xs ih =>
      obtain ⟨hx, hxs⟩ := List.forall_mem_cons.1 h
      rw [List.mapM_cons, hx, ih hxs]
      rfl

/-- Each answer of a pass is that of one of the items. -/
theorem exists_of_forall₂_right {R : α → β → Prop} {xs : List α} {ys : List β}
    (h : List.Forall₂ R xs ys) {y : β} (hy : y ∈ ys) : ∃ x ∈ xs, R x y := by
  induction h with
  | nil => cases hy
  | cons hxy _ ih =>
      rcases List.mem_cons.1 hy with rfl | hy
      · exact ⟨_, List.mem_cons_self, hxy⟩
      · obtain ⟨x, hx, hR⟩ := ih hy
        exact ⟨x, List.mem_cons_of_mem _ hx, hR⟩

/-- Each item has an answer. -/
theorem exists_of_forall₂_left {R : α → β → Prop} {xs : List α} {ys : List β}
    (h : List.Forall₂ R xs ys) {x : α} (hx : x ∈ xs) : ∃ y ∈ ys, R x y :=
  exists_of_forall₂_right (R := flip R) h.flip hx

theorem map_eq_map_iff_forall₂ {γ : Type} {f : α → γ} {g : β → γ} {xs : List α} {ys : List β} :
    xs.map f = ys.map g ↔ List.Forall₂ (fun x y => f x = g y) xs ys := by
  rw [← List.forall₂_eq_eq_eq, List.forall₂_map_left_iff, List.forall₂_map_right_iff]

/-- A pass over a list succeeds when it has an answer for each item. -/
theorem exists_mapM_ok_iff {f : α → Except ε β} {xs : List α} :
    (∃ ys, xs.mapM f = .ok ys) ↔ ∀ x ∈ xs, ∃ y, f x = .ok y := by
  simp only [mapM_eq_ok_iff]
  constructor
  · rintro ⟨ys, h⟩ x hx
    obtain ⟨y, -, hy⟩ := exists_of_forall₂_left h hx
    exact ⟨y, hy⟩
  · intro h
    induction xs with
    | nil => exact ⟨[], .nil⟩
    | cons x xs ih =>
        obtain ⟨⟨y, hy⟩, hxs⟩ := List.forall_mem_cons.1 h
        obtain ⟨ys, hys⟩ := ih hxs
        exact ⟨y :: ys, .cons hy hys⟩

/-! ## A pass that fails -/

theorem bind_eq_error_iff {x : Except ε α} {f : α → Except ε β} {e : ε} :
    (x >>= f) = .error e ↔ x = .error e ∨ ∃ a, x = .ok a ∧ f a = .error e := by
  cases x with
  | error e => simp [bind, Except.bind]
  | ok a => simp [bind, Except.bind]

theorem map_eq_error_iff {x : Except ε α} {f : α → β} {e : ε} :
    x.map f = .error e ↔ x = .error e := by
  cases x with
  | error e => simp [Except.map]
  | ok a => simp [Except.map]

/-- A pass that fails does so at one item, when the items before it went well. -/
theorem exists_of_foldlM_error {f : β → α → Except ε β} {b : β} {xs : List α} {e : ε}
    (h : xs.foldlM f b = .error e) :
    ∃ done x rest next, xs = done ++ x :: rest ∧ done.foldlM f b = .ok next ∧
      f next x = .error e := by
  induction xs generalizing b with
  | nil => cases h
  | cons x xs ih =>
      rw [List.foldlM_cons, bind_eq_error_iff] at h
      obtain hx | ⟨next, hnext, h⟩ := h
      · exact ⟨[], x, xs, b, rfl, rfl, hx⟩
      · obtain ⟨done, y, rest, last, rfl, hdone, hy⟩ := ih h
        refine ⟨x :: done, y, rest, last, rfl, ?_, hy⟩
        rw [List.foldlM_cons]
        exact bind_eq_ok_iff.2 ⟨next, hnext, hdone⟩

theorem exists_of_mapM_error {f : α → Except ε β} {xs : List α} {e : ε}
    (h : xs.mapM f = .error e) : ∃ x ∈ xs, f x = .error e := by
  induction xs with
  | nil => cases h
  | cons x xs ih =>
      rw [List.mapM_cons, bind_eq_error_iff] at h
      obtain hx | ⟨_, -, h⟩ := h
      · exact ⟨x, List.mem_cons_self, hx⟩
      · obtain hxs | ⟨_, -, h⟩ := bind_eq_error_iff.1 h
        · obtain ⟨v, hv, he⟩ := ih hxs
          exact ⟨v, List.mem_cons_of_mem _ hv, he⟩
        · cases h

end AtomicStyles
