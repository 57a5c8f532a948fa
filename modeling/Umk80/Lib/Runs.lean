import Mathlib.Data.Nat.Notation
import Mathlib.Tactic.Common

/-!
# Runs of a transition system

A deterministic system takes one input at a time. A run is a list of inputs, so a fact about runs is
a fact about the states before and after one input, and an induction that is done here.

## Main definitions

* `run` — the state after a list of inputs
* `AllAlong` — every input of a run is of some kind, in the state it meets
* `countAlong` — how many inputs of a run were events of some kind, in the state they met

## Main results

* `run_inv` — what every input preserves holds after every run
* `exists_turn` — what holds only at the end was brought about by one of the inputs
* `exists_source` — what holds at the end comes from a source, and nothing has disturbed it since
* `countAlong_add_le` — events that are paid for in advance are no more than the payments
-/

namespace Runs

variable {σ ι : Type} (step : σ → ι → σ)

/-- The state after the inputs `is`. -/
def run (x : σ) (is : List ι) : σ := is.foldl step x

@[simp] theorem run_nil (x : σ) : run step x [] = x := rfl

@[simp] theorem run_cons (x : σ) (i : ι) (is : List ι) :
    run step x (i :: is) = run step (step x i) is := rfl

theorem run_append (x : σ) (is is' : List ι) :
    run step x (is ++ is') = run step (run step x is) is' := List.foldl_append

/-- **Invariants.** -/
theorem run_inv {P : σ → Prop} (h : ∀ x i, P x → P (step x i)) {x : σ} (hx : P x)
    (is : List ι) : P (run step x is) := by
  induction is generalizing x with
  | nil => exact hx
  | cons i is ih => exact ih (h x i hx)

/-- **Turning points.** A property that fails at the start of a run and holds at its end is brought
about by one of the inputs. -/
theorem exists_turn {P : σ → Prop} {x : σ} {is : List ι} (h₀ : ¬ P x) (h₁ : P (run step x is)) :
    ∃ pre i post, is = pre ++ i :: post ∧ ¬ P (run step x pre) ∧
      P (step (run step x pre) i) := by
  induction is generalizing x with
  | nil => exact absurd h₁ h₀
  | cons i is ih =>
    by_cases hi : P (step x i)
    · exact ⟨[], i, is, rfl, h₀, hi⟩
    · obtain ⟨pre, j, post, rfl, hpre, hj⟩ := ih hi h₁
      exact ⟨i :: pre, j, post, rfl, hpre, hj⟩

/-- Every input of a run is of some kind, in the state it meets. -/
def AllAlong (kind : σ → ι → Prop) : σ → List ι → Prop
  | _, [] => True
  | x, i :: is => kind x i ∧ AllAlong kind (step x i) is

/-- **Sources.** If an input leads to `P` only as a source of it, or quietly from `P`, then what
holds at the end of a run and not at its start comes from a source, with only quiet inputs since. -/
theorem exists_source {P : σ → Prop} {source quiet : σ → ι → Prop}
    (h : ∀ x i, P (step x i) → source x i ∨ quiet x i ∧ P x) {x : σ} {is : List ι} (h₀ : ¬ P x)
    (h₁ : P (run step x is)) : ∃ pre i post, is = pre ++ i :: post ∧
      source (run step x pre) i ∧ AllAlong step quiet (step (run step x pre) i) post := by
  have hcases : (AllAlong step quiet x is ∧ P x) ∨ ∃ pre i post, is = pre ++ i :: post ∧
      source (run step x pre) i ∧ AllAlong step quiet (step (run step x pre) i) post := by
    clear h₀
    induction is generalizing x with
    | nil => exact Or.inl ⟨trivial, h₁⟩
    | cons i is ih =>
      rcases ih h₁ with ⟨hquiet, hi⟩ | ⟨pre, j, post, rfl, hsource, hquiet⟩
      · rcases h x i hi with hsource | ⟨hquiet', hx⟩
        · exact Or.inr ⟨[], i, is, rfl, hsource, hquiet⟩
        · exact Or.inl ⟨⟨hquiet', hquiet⟩, hx⟩
      · exact Or.inr ⟨i :: pre, j, post, rfl, hsource, hquiet⟩
  exact hcases.resolve_left fun hquiet => h₀ hquiet.2

/-! ## Counting -/

/-- The number of inputs of a run that are events, each judged in the state it meets. -/
def countAlong (event : σ → ι → Bool) : σ → List ι → ℕ
  | _, [] => 0
  | x, i :: is => (event x i).toNat + countAlong event (step x i) is

/-- **Potentials.** If each event consumes a unit of `stored` and each payment adds at most one,
a run has no more events than payments and what was stored at the start. -/
theorem countAlong_add_le {event : σ → ι → Bool} (payment : σ → ι → Bool) (stored : σ → ℕ)
    (h : ∀ x i, (event x i).toNat + stored (step x i) ≤ (payment x i).toNat + stored x)
    (x : σ) (is : List ι) :
    countAlong step event x is + stored (run step x is) ≤
      countAlong step payment x is + stored x := by
  induction is generalizing x with
  | nil => exact Nat.le_refl _
  | cons i is ih =>
    have hhead := h x i
    have htail := ih (step x i)
    rw [countAlong, countAlong, run_cons]
    omega

end Runs
