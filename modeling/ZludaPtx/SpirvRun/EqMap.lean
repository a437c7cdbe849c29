import ZludaPtx.ForStd.List
import Mathlib.Data.Set.Operations

/-!
# `EqMap`: the renaming the SPIR-V tests build as they compare

The `spirv_run` tests compare the SPIR-V the compiler emits with a hand-written module up to the
choice of ids: an id of the first function may stand for any id of the second, so long as it
stands for the same one throughout and no two ids share a partner.  `EqMap` records the pairs
found so far in both directions, `m1` from the first function's ids to the second's and `m2`
back.  `is_equal` accepts a pair already recorded, records a pair of two new ids, and rejects a
pair that would give an id a second partner.

The two maps stay inverse to each other (`isEqual_wf`), so `m1` is injective.  From that
invariant, an accepted pair is recorded afterwards and nothing recorded is lost
(`isEqual_sound`), and a pair that follows a renaming injective on the ids met so far is always
accepted (`isEqual_of_agrees`).  These two are what the comparison of whole functions is proved
from.

## Key results

- `isEqual_wf`: `is_equal` keeps `m1` and `m2` inverse to each other
- `isEqual_sound`: an accepted pair is recorded, and every earlier pair kept
- `isEqual_of_agrees`: a pair `(a, ρ a)` is accepted when `ρ` is injective on the ids seen
- `isEqual_swap`: asking about `(b, a)` on the exchanged maps is asking about `(a, b)`
-/

namespace ZludaPtx.SpirvRun

/-- `EqMap<T>`: its two `HashMap`s as association lists, newest entry first. -/
structure EqMap (α : Type) where
  m1 : List (α × α)
  m2 : List (α × α)

namespace EqMap

variable {α : Type} [DecidableEq α] {m m₁ m' : EqMap α} {ρ : α → α} {a b : α}

/-- `EqMap::new`. -/
def new : EqMap α := ⟨[], []⟩

/-- `EqMap::is_equal`: both ids recorded, with each other; or neither recorded, and then recorded
    with each other.  A rejected pair leaves the maps as they were. -/
def isEqual (t1 t2 : α) (m : EqMap α) : Bool × EqMap α :=
  match m.m1.lookup t1, m.m2.lookup t2 with
  | some e1, some e2 => (e1 == t2 && e2 == t1, m)
  | none, none => (true, ⟨(t1, t2) :: m.m1, (t2, t1) :: m.m2⟩)
  | _, _ => (false, m)

/-- The map seen from the other side: its two directions exchanged. -/
def swap (m : EqMap α) : EqMap α := ⟨m.m2, m.m1⟩

/-- The two maps are inverse to each other. -/
def Wf (m : EqMap α) : Prop := ∀ a b, m.m1.lookup a = some b ↔ m.m2.lookup b = some a

/-- `m'` keeps every pair `m` records. -/
def Sub (m m' : EqMap α) : Prop := ∀ a b, m.m1.lookup a = some b → m'.m1.lookup a = some b

/-- `ρ` sends every recorded id to its partner. -/
def Agrees (ρ : α → α) (m : EqMap α) : Prop := ∀ a b, m.m1.lookup a = some b → ρ a = b

/-- Every recorded id is among `s`. -/
def RecordedIn (m : EqMap α) (s : List α) : Prop := ∀ a, (m.m1.lookup a).isSome → a ∈ s

theorem new_wf : (new : EqMap α).Wf := by simp [Wf, new]

theorem Sub.refl (m : EqMap α) : Sub m m := fun _ _ h => h

theorem Sub.trans (h₁ : Sub m m₁) (h₂ : Sub m₁ m') : Sub m m' := fun a b h => h₂ a b (h₁ a b h)

theorem Agrees.mono (h : Agrees ρ m') (hs : Sub m m') : Agrees ρ m := fun a b hab =>
  h a b (hs a b hab)

theorem new_agrees (ρ : α → α) : Agrees ρ (new : EqMap α) := by simp [Agrees, new]

theorem new_recordedIn (s : List α) : RecordedIn (new : EqMap α) s := by simp [RecordedIn, new]

private theorem lookup_cons_of_ne {l : List (α × α)} {k x : α} (v : α) (h : x ≠ k) :
    ((k, v) :: l).lookup x = l.lookup x := by
  simp only [List.lookup_cons, beq_false_of_ne h]

/-- Recording two ids that neither map holds keeps the maps inverse. -/
theorem Wf.cons (h : m.Wf) (ha : m.m1.lookup a = none) (hb : m.m2.lookup b = none) :
    Wf ⟨(a, b) :: m.m1, (b, a) :: m.m2⟩ := by
  intro x y
  by_cases hx : x = a
  · subst hx
    by_cases hy : y = b
    · subst hy; simp
    · rw [List.lookup_cons_self, lookup_cons_of_ne _ hy]
      exact ⟨fun e => absurd (Option.some.inj e).symm hy,
        fun e => by rw [(h _ _).mpr e] at ha; cases ha⟩
  · rw [lookup_cons_of_ne _ hx]
    by_cases hy : y = b
    · subst hy
      rw [List.lookup_cons_self]
      exact ⟨fun e => (by rw [(h _ _).mp e] at hb; cases hb),
        fun e => absurd (Option.some.inj e).symm hx⟩
    · rw [lookup_cons_of_ne _ hy]
      exact h x y

/-- With inverse maps, no two ids are recorded with one partner. -/
theorem Wf.injective {c : α} (h : m.Wf) (ha : m.m1.lookup a = some c)
    (hb : m.m1.lookup b = some c) : a = b :=
  Option.some.inj (((h a c).mp ha).symm.trans ((h b c).mp hb))

omit [DecidableEq α] in
@[simp] theorem new_swap : (new : EqMap α).swap = new := rfl

/-- `is_equal` asked about `(b, a)` on the exchanged maps answers as it does about `(a, b)`, and
    leaves the exchanged result. -/
theorem isEqual_swap (m : EqMap α) (a b : α) :
    m.swap.isEqual b a = ((m.isEqual a b).1, (m.isEqual a b).2.swap) := by
  unfold isEqual swap
  cases m.m1.lookup a <;> cases m.m2.lookup b <;> simp [Bool.and_comm]

/-- What an accepted pair leaves: the maps as they were, the pair already recorded; or the pair
    recorded, both ids new before. -/
theorem isEqual_eq_true (he : m.isEqual a b = (true, m')) :
    (m' = m ∧ m.m1.lookup a = some b) ∨
      (m.m1.lookup a = none ∧ m.m2.lookup b = none ∧ m' = ⟨(a, b) :: m.m1, (b, a) :: m.m2⟩) := by
  unfold isEqual at he
  split at he
  · next e1 e2 h1 h2 =>
    simp only [Bool.and_eq_true, beq_iff_eq, Prod.mk.injEq] at he
    obtain ⟨⟨rfl, -⟩, rfl⟩ := he
    exact .inl ⟨rfl, h1⟩
  · next h1 h2 => exact .inr ⟨h1, h2, (Prod.mk.inj he).2.symm⟩
  · cases (Prod.mk.inj he).1

/-- `is_equal` keeps the maps inverse to each other, whatever it answers. -/
theorem isEqual_wf (h : m.Wf) (a b : α) : (m.isEqual a b).2.Wf := by
  unfold isEqual
  split
  · exact h
  · next h1 h2 => exact h.cons h1 h2
  · exact h

/-- An accepted pair is recorded afterwards, every earlier pair is kept, and the maps stay
    inverse. -/
theorem isEqual_sound (h : m.Wf) (he : m.isEqual a b = (true, m')) :
    m'.Wf ∧ Sub m m' ∧ m'.m1.lookup a = some b := by
  have hw : m'.Wf := by simpa [he] using isEqual_wf h a b
  rcases isEqual_eq_true he with ⟨rfl, hab⟩ | ⟨ha, -, rfl⟩
  · exact ⟨hw, Sub.refl _, hab⟩
  · refine ⟨hw, fun x y hxy => ?_, List.lookup_cons_self⟩
    have hx : x ≠ a := by rintro rfl; rw [ha] at hxy; cases hxy
    rwa [lookup_cons_of_ne _ hx]

/-- A pair `(a, ρ a)` is accepted when `ρ` sends every recorded id to its partner and is
    injective on a set of ids holding `a` and every recorded id; afterwards the same holds. -/
theorem isEqual_of_agrees {s : List α} (h : m.Wf) (hρ : Agrees ρ m) (hrec : m.RecordedIn s)
    (ha : a ∈ s) (hinj : Set.InjOn ρ {x | x ∈ s}) :
    ∃ m', m.isEqual a (ρ a) = (true, m') ∧ Agrees ρ m' ∧ m'.RecordedIn s := by
  cases h1 : m.m1.lookup a with
  | some e =>
    have hm2 : m.m2.lookup e = some a := (h a e).mp h1
    refine ⟨m, ?_, hρ, hrec⟩
    simp [isEqual, h1, hm2, hρ a e h1]
  | none =>
    have h2 : m.m2.lookup (ρ a) = none := by
      cases hc : m.m2.lookup (ρ a) with
      | none => rfl
      | some c =>
        have hc1 := (h c (ρ a)).mpr hc
        have : c = a := hinj (hrec c (by simp [hc1])) ha (hρ c _ hc1)
        rw [this, h1] at hc1
        cases hc1
    refine ⟨⟨(a, ρ a) :: m.m1, (ρ a, a) :: m.m2⟩, by simp [isEqual, h1, h2], fun x y hxy => ?_,
      fun x hx => ?_⟩
    · by_cases hx : x = a
      · subst hx; simpa using hxy
      · exact hρ x y (by rwa [lookup_cons_of_ne _ hx] at hxy)
    · by_cases hx' : x = a
      · exact hx' ▸ ha
      · exact hrec x (by rwa [lookup_cons_of_ne _ hx'] at hx)

end EqMap

end ZludaPtx.SpirvRun
