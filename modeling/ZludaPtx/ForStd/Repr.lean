import Mathlib.Tactic.IntervalCases
import Mathlib.Data.Nat.Digits

/-!
# Decimal rendering is injective

Both passes name things by rendering a natural number in decimal: the normalize pass expands
`%r<N>` into `%r0 … %r(N-1)`, and the LLVM resolver names every value by its identifier.
Neither is collision-free unless `Nat.repr` is injective, which the standard library does not
state.  The proof reads the last digit and the remaining prefix off `Nat.toDigits`.  Every
character of a rendering is a digit, so a rendering never holds the NUL that ends a C string.
-/

namespace Nat

/-- With enough fuel, the digits already produced are kept as a suffix. -/
private theorem toDigitsCore_ten_append (fuel n : Nat) (ds : List Char) (h : n < fuel) :
    toDigitsCore 10 fuel n ds = toDigitsCore 10 fuel n [] ++ ds := by
  induction fuel generalizing n ds with
  | zero => omega
  | succ fuel ih =>
    simp only [toDigitsCore]
    split
    · rfl
    · rw [ih _ _ (by omega), ih _ [_] (by omega), List.append_assoc, List.singleton_append]

/-- Any fuel above the number gives the same digits. -/
private theorem toDigitsCore_ten_fuel (f₁ f₂ n : Nat) (h₁ : n < f₁) (h₂ : n < f₂) :
    toDigitsCore 10 f₁ n [] = toDigitsCore 10 f₂ n [] := by
  induction f₁ generalizing f₂ n with
  | zero => omega
  | succ f₁ ih =>
    obtain ⟨f₂, rfl⟩ : ∃ k, f₂ = k + 1 := ⟨f₂ - 1, by omega⟩
    simp only [toDigitsCore]
    split
    · rfl
    · rw [toDigitsCore_ten_append _ _ _ (by omega), toDigitsCore_ten_append f₂ _ _ (by omega),
        ih f₂ _ (by omega) (by omega)]

/-- The decimal digits of `n`: those of `n / 10`, then the last digit. -/
theorem toDigits_ten (n : Nat) :
    toDigits 10 n = (if n / 10 = 0 then [] else toDigits 10 (n / 10)) ++ [digitChar (n % 10)] := by
  show toDigitsCore 10 (n + 1) n [] = _
  rw [toDigitsCore]
  split
  · rfl
  · rw [toDigitsCore_ten_append _ _ _ (by omega), toDigits, toDigitsCore_ten_fuel n (n / 10 + 1) _
      (by omega) (by omega)]

/-- A decimal digit character determines its digit. -/
private theorem digitChar_toNat_sub (d : Nat) (h : d < 10) : (digitChar d).toNat - 48 = d := by
  interval_cases d <;> rfl

/-- Distinct numbers have distinct decimal digit lists. -/
theorem toDigits_ten_injective : Function.Injective (toDigits 10) := by
  intro n
  induction n using Nat.strong_induction_on with
  | _ n ih =>
    intro m h
    rw [toDigits_ten n, toDigits_ten m] at h
    obtain ⟨hinit, hlast⟩ := List.append_inj' h rfl
    have hmod : n % 10 = m % 10 := by
      have := congrArg (fun c => c.toNat - 48) (List.singleton_inj.mp hlast)
      simpa only [digitChar_toNat_sub _ (Nat.mod_lt _ (by omega))] using this
    have hdiv : n / 10 = m / 10 := by
      split at hinit <;> split at hinit
      · omega
      · exact absurd hinit.symm (by rw [toDigits_ten]; simp)
      · exact absurd hinit (by rw [toDigits_ten]; simp)
      · exact ih _ (by omega) hinit
    omega

/-- A digit below ten is rendered as a decimal digit character. -/
private theorem isDigit_digitChar (d : Nat) (h : d < 10) : (digitChar d).isDigit := by
  interval_cases d <;> rfl

/-- Every character of a decimal rendering is a decimal digit. -/
theorem isDigit_of_mem_toDigits_ten {n : Nat} {c : Char} (h : c ∈ toDigits 10 n) : c.isDigit := by
  induction n using Nat.strong_induction_on with
  | _ n ih =>
    rw [toDigits_ten, List.mem_append, List.mem_singleton] at h
    rcases h with h | rfl
    · split at h
      · cases h
      · exact ih _ (by omega) h
    · exact isDigit_digitChar _ (Nat.mod_lt _ (by omega))

/-- Decimal rendering is injective. -/
theorem repr_injective : Function.Injective Nat.repr := fun _ _ h =>
  toDigits_ten_injective (congrArg String.data h)

/-- `toString` on `Nat` is injective: the form the passes use. -/
theorem toString_injective : Function.Injective (toString : Nat → String) :=
  repr_injective

/-- Every character of `toString n` is a decimal digit. -/
theorem isDigit_of_mem_toString {n : Nat} {c : Char} (h : c ∈ (toString n).data) : c.isDigit :=
  isDigit_of_mem_toDigits_ten h

end Nat

namespace String

/-- Appending to a fixed prefix is injective. -/
theorem append_right_injective (b : String) : Function.Injective (b ++ ·) := fun _ _ h =>
  String.ext (List.append_cancel_left (congrArg String.data h))

end String
