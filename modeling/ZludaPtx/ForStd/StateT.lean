import Mathlib.Logic.Basic

/-!
# Peeling `StateT σ (Except ε)` computations

Both passes thread their state through `StateT σ (Except ε)`: the normalize pass its scoped
resolver, the emitter its LLVM module and builders.  These lemmas take a successful or failed
`bind` apart once, so the proofs about the passes never unfold the monad.
-/

namespace StateT

variable {σ ε α β : Type}

/-- A `bind` succeeds exactly when both halves do. -/
theorem bind_apply_eq_ok {x : StateT σ (Except ε) α} {f : α → StateT σ (Except ε) β}
    {s s' : σ} {b : β} :
    (x >>= f) s = .ok (b, s') ↔ ∃ a s₁, x s = .ok (a, s₁) ∧ f a s₁ = .ok (b, s') := by
  simp only [bind, StateT.bind, Except.bind]
  rcases x s with e | ⟨a, s₁⟩ <;> simp [and_assoc]

/-- A `bind` whose first half succeeds continues with its second half. -/
theorem bind_apply_of_eq_ok {x : StateT σ (Except ε) α} {f : α → StateT σ (Except ε) β}
    {s s₁ : σ} {a : α} (h : x s = .ok (a, s₁)) : (x >>= f) s = f a s₁ := by
  simp only [bind, StateT.bind, Except.bind, h]

/-- A `bind` fails exactly when its first half fails, or its second half fails after it. -/
theorem bind_apply_eq_error {x : StateT σ (Except ε) α} {f : α → StateT σ (Except ε) β}
    {s : σ} {e : ε} :
    (x >>= f) s = .error e ↔ x s = .error e ∨ ∃ a s₁, x s = .ok (a, s₁) ∧ f a s₁ = .error e := by
  simp only [bind, StateT.bind, Except.bind]
  rcases x s with e | ⟨a, s₁⟩ <;> simp [and_assoc]

/-- A `map` succeeds exactly when the mapped computation does. -/
theorem map_apply_eq_ok {x : StateT σ (Except ε) α} {f : α → β} {s s' : σ} {b : β} :
    (f <$> x) s = .ok (b, s') ↔ ∃ a, x s = .ok (a, s') ∧ b = f a := by
  show StateT.map f x s = _ ↔ _
  simp only [StateT.map, bind, Except.bind]
  rcases x s with e | ⟨a, s₁⟩
  · simp
  · simp only [pure, Except.pure, Except.ok.injEq, Prod.mk.injEq]
    exact ⟨fun ⟨h1, h2⟩ => ⟨a, ⟨rfl, h2⟩, h1.symm⟩, fun ⟨_, ⟨rfl, h2⟩, h1⟩ => ⟨h1.symm, h2⟩⟩

@[simp] theorem pure_apply (a : α) (s : σ) : (pure a : StateT σ (Except ε) α) s = .ok (a, s) :=
  rfl

end StateT
