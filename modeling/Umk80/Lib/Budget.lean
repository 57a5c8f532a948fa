import Mathlib.Data.Nat.Find
import Mathlib.Logic.Function.Iterate

/-!
# Running to a budget

A system takes steps, each of which costs something. It is run until the costs reach a budget: it
takes the fewest steps that cost at least that much. The budget is overrun by less than the last
step costs, and a run can be cut in two if the second part is given what the first has left.

## Main definitions

* `spent` — what some steps cost together
* `Meets` — the number of steps of a run to a budget

## Main results

* `exists_meets` — every budget is met, if no step is for free
* `Meets.le_add` — how far a budget is overrun
* `Meets.add` — a run in two parts
-/

namespace Budget

variable {σ : Type} (step : σ → σ) (cost : σ → ℕ)

/-- What the first `k` steps cost. -/
def spent : ℕ → σ → ℕ
  | 0, _ => 0
  | k + 1, s => cost s + spent k (step s)

/-- From `s` it takes `k` steps to spend `budget`. -/
structure Meets (budget k : ℕ) (s : σ) : Prop where
  reached : budget ≤ spent step cost k s
  before : ∀ j < k, spent step cost j s < budget

variable {step cost}

theorem spent_add (j k : ℕ) (s : σ) :
    spent step cost (j + k) s = spent step cost j s + spent step cost k (step^[j] s) := by
  induction j generalizing s with
  | zero => rw [Nat.zero_add, spent, Nat.zero_add, Function.iterate_zero_apply]
  | succ j ih =>
    rw [Nat.succ_add, spent, ih, spent, Function.iterate_succ_apply, Nat.add_assoc]

theorem spent_succ (k : ℕ) (s : σ) :
    spent step cost (k + 1) s = spent step cost k s + cost (step^[k] s) := by
  rw [spent_add k 1, spent, spent, Nat.add_zero]

theorem spent_lt_of_lt (hpos : ∀ s, 0 < cost s) {j k : ℕ} (h : j < k) (s : σ) :
    spent step cost j s < spent step cost k s := by
  obtain ⟨l, rfl⟩ := Nat.exists_eq_add_of_lt h
  have hlast := hpos (step^[j] s)
  have hrest : spent step cost (l + 1) (step^[j] s) =
      cost (step^[j] s) + spent step cost l (step (step^[j] s)) := rfl
  rw [Nat.add_assoc, spent_add, hrest]
  omega

theorem le_spent (hpos : ∀ s, 0 < cost s) (k : ℕ) (s : σ) : k ≤ spent step cost k s := by
  induction k with
  | zero => exact Nat.zero_le _
  | succ k ih =>
    exact Nat.succ_le_of_lt (Nat.lt_of_le_of_lt ih (spent_lt_of_lt hpos k.lt_succ_self s))

/-- **Every budget is met.** -/
theorem exists_meets (hpos : ∀ s, 0 < cost s) (budget : ℕ) (s : σ) :
    ∃ k, Meets step cost budget k s := by
  have hreach : ∃ k, budget ≤ spent step cost k s := ⟨budget, le_spent hpos budget s⟩
  exact ⟨Nat.find hreach, Nat.find_spec hreach,
    fun j hj => Nat.lt_of_not_le (Nat.find_min hreach hj)⟩

/-- What some steps cost is met by these steps. -/
theorem meets_spent (hpos : ∀ s, 0 < cost s) (k : ℕ) (s : σ) :
    Meets step cost (spent step cost k s) k s :=
  ⟨Nat.le_refl _, fun _ hj => spent_lt_of_lt hpos hj s⟩

theorem Meets.eq_zero {k : ℕ} {s : σ} (h : Meets step cost 0 k s) : k = 0 := by
  by_contra hk
  exact absurd (h.before 0 (Nat.pos_of_ne_zero hk)) (Nat.not_lt_zero _)

/-- **How far a budget is overrun**: by less than the last step costs. -/
theorem Meets.le_add {budget k c : ℕ} {s : σ} (h : Meets step cost budget k s)
    (hcost : ∀ s, cost s ≤ c + 1) : spent step cost k s ≤ budget + c := by
  cases k with
  | zero => exact Nat.zero_le _
  | succ k =>
    have hbefore := h.before k k.lt_succ_self
    have hlast := hcost (step^[k] s)
    rw [spent_succ]
    omega

/-- **A run in two parts.** -/
theorem Meets.add {a b k l : ℕ} {s : σ} (h : Meets step cost a k s)
    (h' : Meets step cost (a + b - spent step cost k s) l (step^[k] s)) :
    Meets step cost (a + b) (k + l) s := by
  have hreached := h'.reached
  refine ⟨by rw [spent_add]; omega, fun j hj => ?_⟩
  rcases Nat.lt_or_ge j k with hlt | hge
  · exact Nat.lt_of_lt_of_le (h.before j hlt) (Nat.le_add_right a b)
  · obtain ⟨i, rfl⟩ := Nat.exists_eq_add_of_le hge
    have hbefore := h'.before i (by omega)
    rw [spent_add]
    omega

end Budget
