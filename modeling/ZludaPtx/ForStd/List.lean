import Mathlib.Data.List.Nodup

/-!
# Lookups in association lists, and edits at a position

The resolver's scopes and its identifier table are association lists searched with
`List.lookup`, built by zipping names or entries with consecutive identifiers.  When their keys
are distinct, a lookup returns the value paired with the key, which the standard library states
only for its sigma-typed lists.  A lookup of every element of a list in turn, as `mapM` in
`Option`, is a pointwise relation.  The LLVM module is edited in place with `List.modify`: the
lemmas here say what an edit of the element after a known prefix does.
-/

namespace List

variable {α β γ : Type} [BEq α] [LawfulBEq α]

/-- In a list with distinct keys, `lookup` finds the value paired with a key. -/
theorem lookup_of_mem_of_nodup {l : List (α × β)} (hnd : (l.map Prod.fst).Nodup) {a : α} {b : β}
    (hm : (a, b) ∈ l) : l.lookup a = some b := by
  induction l with
  | nil => cases hm
  | cons p l ih =>
    obtain ⟨k, v⟩ := p
    rw [map_cons, nodup_cons] at hnd
    rcases mem_cons.mp hm with he | hl
    · cases he; simp
    · have hne : a ≠ k := by
        rintro rfl
        exact hnd.1 (mem_map.mpr ⟨_, hl, rfl⟩)
      simp only [lookup_cons, beq_false_of_ne hne]
      exact ih hnd.2 hl

/-- A key's `lookup` value is paired with it in the list. -/
theorem mem_of_lookup_eq_some {l : List (α × β)} {a : α} {b : β} (h : l.lookup a = some b) :
    (a, b) ∈ l := by
  obtain ⟨_, _, rfl, -⟩ := lookup_eq_some_iff.mp h
  simp

/-- The `j`-th element of a list, paired with the `j`-th of consecutive numbers. -/
theorem get_mem_zip_range' {γ : Type} (l : List γ) (s : Nat) {j : Nat} (hj : j < l.length) :
    (l.get ⟨j, hj⟩, s + j) ∈ l.zip (range' s l.length) := by
  have h : j < (l.zip (range' s l.length)).length := by simpa using hj
  simpa [getElem_zip, getElem_range'] using getElem_mem h

/-- The `j`-th of consecutive numbers, paired with the image of a list's `j`-th element. -/
theorem mem_range'_zip_map {γ δ : Type} (l : List γ) (f : γ → δ) (s : Nat) {j : Nat}
    (hj : j < l.length) : (s + j, f (l.get ⟨j, hj⟩)) ∈ (range' s l.length).zip (l.map f) := by
  have h : j < ((range' s l.length).zip (l.map f)).length := by simpa using hj
  simpa [getElem_zip, getElem_range'] using getElem_mem h

/-- `modify` only looks at the element it changes. -/
theorem modify_congr {f g : γ → γ} {n : Nat} {l : List γ} (h : ∀ a, l[n]? = some a → f a = g a) :
    l.modify f n = l.modify g n := by
  induction l generalizing n with
  | nil => simp
  | cons x xs ih =>
    cases n with
    | zero => simp [h x (by simp)]
    | succ n => simp [ih (fun a ha => h a (by simpa using ha))]

/-- Changing the element right after a prefix. -/
theorem modify_append_cons_length (l r : List γ) (a : γ) (f : γ → γ) :
    (l ++ a :: r).modify f l.length = l ++ f a :: r := by
  induction l with
  | nil => simp
  | cons x xs ih => simp [ih]

/-- Changing the element just appended. -/
theorem modify_append_length (l : List γ) (a : γ) (f : γ → γ) :
    (l ++ [a]).modify f l.length = l ++ [f a] :=
  modify_append_cons_length l [] a f

/-- `mapM` in `Option` succeeds with `l'` exactly when `f` succeeds on each element with the
    element of `l'` at the same position. -/
theorem mapM_eq_some_iff_forall₂ {δ : Type} {f : γ → Option δ} :
    ∀ {l : List γ} {l' : List δ}, l.mapM f = some l' ↔ Forall₂ (fun a b => f a = some b) l l'
  | [], l' => by cases l' <;> simp [-mapM]
  | a :: l, l' => by cases l' <;> simp [-mapM, Option.bind_eq_some, mapM_eq_some_iff_forall₂]

/-- Every element on the right of a pointwise relation is related to one on the left. -/
theorem Forall₂.exists_of_mem_right {δ : Type} {R : γ → δ → Prop} {l : List γ} {l' : List δ}
    (h : Forall₂ R l l') {b : δ} (hb : b ∈ l') : ∃ a ∈ l, R a b := by
  induction h with
  | nil => cases hb
  | cons hab _ ih =>
    rcases mem_cons.mp hb with rfl | hb
    · exact ⟨_, mem_cons_self _ _, hab⟩
    · obtain ⟨a, ha, h⟩ := ih hb
      exact ⟨a, mem_cons_of_mem _ ha, h⟩

/-- A traversal in `Except` that succeeds keeps the length. -/
theorem length_eq_of_mapM_eq_ok {δ ε : Type} {f : γ → Except ε δ} {l : List γ} {l' : List δ}
    (h : l.mapM f = .ok l') : l'.length = l.length := by
  induction l generalizing l' with
  | nil => cases h; rfl
  | cons a l ih =>
    simp only [List.mapM_cons, Bind.bind, Except.bind] at h
    cases hfa : f a <;> simp only [hfa, reduceCtorEq] at h
    cases hl : l.mapM f <;> simp only [hl, reduceCtorEq, pure, Except.pure, Except.ok.injEq] at h
    subst h
    simp [ih hl]

end List
