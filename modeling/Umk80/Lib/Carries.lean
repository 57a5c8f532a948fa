import Mathlib.Data.Nat.Digits.Defs
import Mathlib.Tactic.Ring

/-!
# Carries

Numbers are added digit by digit, from the lowest digit up, with what does not fit into a digit
carried to the next. One equation per digit, `x + y + c = z + b * c'`, gives one equation for the
whole numbers, and as the digits of the result are below the base, both the result and the last
carry can be read off. Subtraction is the same chain, read from the result: `z + y + c = x + b * c'`
where the carries are borrows.

## Main definitions

* `Ripple` — the chain of the carries

## Main results

* `Ripple.value` — the equation for the numbers
* `Ripple.add`, `Ripple.sub` — the result and the last carry, of a sum and of a difference
-/

namespace Carries

/-- From the carry `c` the digits of `xs`, `ys` and `zs` lead to the carry `c'`, in base `b`. -/
inductive Ripple (b : ℕ) : ℕ → List ℕ → List ℕ → List ℕ → ℕ → Prop
  | nil (c : ℕ) : Ripple b c [] [] [] c
  | cons {c c' c'' x y z : ℕ} {xs ys zs : List ℕ} (hdigit : x + y + c = z + b * c')
      (hrest : Ripple b c' xs ys zs c'') : Ripple b c (x :: xs) (y :: ys) (z :: zs) c''

variable {b c c' : ℕ} {xs ys zs : List ℕ}

theorem Ripple.length_eq (h : Ripple b c xs ys zs c') :
    xs.length = zs.length ∧ ys.length = zs.length := by
  induction h with
  | nil c => exact ⟨rfl, rfl⟩
  | cons _ _ ih => exact ⟨congrArg (· + 1) ih.1, congrArg (· + 1) ih.2⟩

/-- **The equation for the numbers.** -/
theorem Ripple.value (h : Ripple b c xs ys zs c') :
    Nat.ofDigits b xs + Nat.ofDigits b ys + c = Nat.ofDigits b zs + b ^ zs.length * c' := by
  induction h with
  | nil c => simp
  | @cons c c₁ c₂ x y z xs ys zs hdigit hrest ih =>
    simp only [Nat.ofDigits_cons, List.length_cons]
    calc x + b * Nat.ofDigits b xs + (y + b * Nat.ofDigits b ys) + c
        = (x + y + c) + b * (Nat.ofDigits b xs + Nat.ofDigits b ys) := by ring
      _ = z + b * (Nat.ofDigits b xs + Nat.ofDigits b ys + c₁) := by rw [hdigit]; ring
      _ = z + b * Nat.ofDigits b zs + b ^ (zs.length + 1) * c₂ := by rw [ih]; ring

/-- **A sum**; the last carry says whether it has more digits. -/
theorem Ripple.add (h : Ripple b c xs ys zs c') (hb : 1 < b) (hz : ∀ z ∈ zs, z < b)
    (hc' : c' ≤ 1) :
    Nat.ofDigits b zs = (Nat.ofDigits b xs + Nat.ofDigits b ys + c) % b ^ xs.length ∧
      (c' = 1 ↔ b ^ xs.length ≤ Nat.ofDigits b xs + Nat.ofDigits b ys + c) := by
  have hvalue := h.value
  have hlt := Nat.ofDigits_lt_base_pow_length hb hz
  rw [← h.length_eq.1] at hvalue hlt
  have hcases : c' = 0 ∨ c' = 1 := by omega
  rcases hcases with rfl | rfl
  · rw [hvalue, Nat.mul_zero, Nat.add_zero, Nat.mod_eq_of_lt hlt]
    omega
  · rw [hvalue, Nat.mul_one, Nat.add_mod_right, Nat.mod_eq_of_lt hlt]
    omega

/-- **A difference**, of the numbers `xs` and `ys`; the last carry says whether there was not
enough to take away from. -/
theorem Ripple.sub (h : Ripple b c zs ys xs c') (hb : 1 < b) (hx : ∀ x ∈ xs, x < b)
    (hz : ∀ z ∈ zs, z < b) (hc' : c' ≤ 1) :
    ((Nat.ofDigits b zs : ℕ) : ℤ) =
        (((Nat.ofDigits b xs : ℕ) : ℤ) - (Nat.ofDigits b ys : ℕ) - c) % (b ^ xs.length : ℕ) ∧
      (c' = 1 ↔ Nat.ofDigits b xs < Nat.ofDigits b ys + c) := by
  have hvalue := h.value
  have hltx := Nat.ofDigits_lt_base_pow_length hb hx
  have hltz := Nat.ofDigits_lt_base_pow_length hb hz
  rw [h.length_eq.1] at hltz
  generalize Nat.ofDigits b zs = z at *
  generalize Nat.ofDigits b ys = y at *
  generalize Nat.ofDigits b xs = x at *
  generalize b ^ xs.length = p at *
  have hcases : c' = 0 ∨ c' = 1 := by omega
  rcases hcases with rfl | rfl
  · have hdiff : (x : ℤ) - y - c = z := by omega
    rw [hdiff, Int.emod_eq_of_lt (by omega) (by omega)]
    omega
  · have hdiff : (x : ℤ) - y - c = z + p * (-1) := by omega
    rw [hdiff, Int.add_mul_emod_self_left, Int.emod_eq_of_lt (by omega) (by omega)]
    omega

end Carries
