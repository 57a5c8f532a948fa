import Mathlib.Data.Nat.Notation
import Mathlib.Logic.Function.Iterate

/-!
# While loops with fuel

A `while` loop of the source language may run forever. `whileLoop cond body fuel s` runs it for at
most `fuel` iterations and gives `none` if the condition still holds then; the loop terminates
from `s` when some fuel gives `some`.

## Main results

* `whileLoop_inv` — an invariant of the body holds of the state in which the loop stops
* `whileLoop_eq_some_iff` — the loop stops after the first iterations that falsify the condition
-/

namespace WhileLoop

variable {σ : Type}

/-- `while (cond s) s = body s;` for at most `fuel` iterations. -/
def whileLoop (cond : σ → Bool) (body : σ → σ) : ℕ → σ → Option σ
  | 0, s => if cond s then none else some s
  | n + 1, s => if cond s then whileLoop cond body n (body s) else some s

variable {cond : σ → Bool} {body : σ → σ}

/-- **Invariant rule.** -/
theorem whileLoop_inv {P : σ → Prop} (hP : ∀ s, cond s = true → P s → P (body s)) {n : ℕ} :
    ∀ {s s' : σ}, whileLoop cond body n s = some s' → P s → P s' := by
  induction n with
  | zero =>
    intro s s' h hs
    rw [whileLoop] at h
    split at h
    · cases h
    · cases h
      exact hs
  | succ n ih =>
    intro s s' h hs
    rw [whileLoop] at h
    split at h
    · exact ih h (hP s ‹_› hs)
    · cases h
      exact hs

/-- **What a loop computes**: the body, iterated until the condition fails for the first time. -/
theorem whileLoop_eq_some_iff {fuel : ℕ} {s s' : σ} : whileLoop cond body fuel s = some s' ↔
    ∃ k ≤ fuel, s' = body^[k] s ∧ cond (body^[k] s) = false ∧
      ∀ j < k, cond (body^[j] s) = true := by
  induction fuel generalizing s with
  | zero =>
    rw [whileLoop]
    constructor
    · intro h
      split at h
      · cases h
      · cases h
        exact ⟨0, Nat.le_refl 0, rfl, Bool.eq_false_iff.mpr ‹_›,
          fun j hj => absurd hj j.not_lt_zero⟩
    · rintro ⟨k, hk, rfl, hstop, -⟩
      obtain rfl := Nat.le_zero.mp hk
      exact if_neg (Bool.eq_false_iff.mp hstop)
  | succ fuel ih =>
    rw [whileLoop]
    constructor
    · intro h
      split at h
      · obtain ⟨k, hk, hs', hstop, hbefore⟩ := ih.mp h
        refine ⟨k + 1, Nat.succ_le_succ hk, hs', hstop, fun j hj => ?_⟩
        cases j with
        | zero => assumption
        | succ j => exact hbefore j (Nat.lt_of_succ_lt_succ hj)
      · cases h
        exact ⟨0, Nat.zero_le _, rfl, Bool.eq_false_iff.mpr ‹_›,
          fun j hj => absurd hj j.not_lt_zero⟩
    · rintro ⟨k, hk, rfl, hstop, hbefore⟩
      cases k with
      | zero => exact if_neg (Bool.eq_false_iff.mp hstop)
      | succ k =>
        have hfirst : cond s = true := hbefore 0 k.succ_pos
        rw [if_pos hfirst]
        exact ih.mpr ⟨k, Nat.le_of_succ_le_succ hk, rfl, hstop,
          fun j hj => hbefore (j + 1) (Nat.succ_lt_succ hj)⟩

end WhileLoop
