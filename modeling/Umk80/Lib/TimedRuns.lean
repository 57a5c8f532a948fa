import Mathlib.Logic.Function.Iterate
import Mathlib.Tactic.Common

/-!
# Timed runs of a deterministic machine

A machine takes one step at a time, and each step takes some time. What a piece of code does is
said by `Arrives`: the machine gets from one state to another in a given time. Where the final
state need not be spelled out, `Leads` says what holds of it and bounds the time.

The machine is deterministic, so of two runs from one state the shorter is the beginning of the
longer. A condition that holds within some time, and then for ever, therefore holds at the end of
every run that is long enough, wherever the observer stops it.

A loop that waits for something outside has no last state. What can be said is that the machine
comes back to one point again and again, and of what kind the states are between: `Through` is a run
whose states are all of a kind, and `Within` that one leads to the point.

## Main definitions

* `Clocked` — a step function with the time of each step
* `Arrives` — from a state to another, in a time
* `Leads` — to a state of some kind, within a time
* `Through`, `Within` — the same, with a condition on the states on the way

## Main results

* `Arrives.trans`, `Arrives.compare` — runs compose, and runs from one state are comparable
* `Arrives.simulate` — a simulation carries runs over
* `Leads.bind`, `Leads.loop` — sequencing, and loops with a counter
* `Leads.settles` — what is reached and then kept holds at the end of every longer run
* `Within.step`, `Within.reaches` — a point that the machine comes back to stays near for ever
* `Within.map` — a change that the steps on the way do not see leaves the point as near as it was
-/

namespace TimedRuns

/-- A deterministic machine whose steps take time. -/
structure Clocked (σ : Type) where
  step : σ → σ
  cost : σ → ℕ

/-- The machine gets from a state to another in the given time. -/
inductive Arrives {σ : Type} (M : Clocked σ) : σ → ℕ → σ → Prop
  | refl (s : σ) : Arrives M s 0 s
  | step {s s' : σ} {t : ℕ} (h : Arrives M (M.step s) t s') : Arrives M s (M.cost s + t) s'

/-- The machine gets to a state that satisfies `Q`, within the given time. -/
def Leads {σ : Type} (M : Clocked σ) (s : σ) (t : ℕ) (Q : σ → Prop) : Prop :=
  ∃ u s', u ≤ t ∧ Arrives M s u s' ∧ Q s'

variable {σ τ : Type} {M : Clocked σ} {N : Clocked τ} {s s' s'' : σ} {t u : ℕ}

/-! ## Runs -/

namespace Arrives

/-- One step. -/
theorem one (M : Clocked σ) (s : σ) : Arrives M s (M.cost s) (M.step s) := .step (.refl _)

/-- The same run, with the time written differently. -/
theorem cast (h : Arrives M s t s') (ht : t = u) : Arrives M s u s' := ht ▸ h

/-- The same run, with the end written differently. -/
theorem ends (h : Arrives M s t s') (hs : s' = s'') : Arrives M s t s'' := hs ▸ h

theorem trans (h : Arrives M s t s') (h' : Arrives M s' u s'') : Arrives M s (t + u) s'' := by
  induction h with
  | refl s => exact h'.cast (Nat.zero_add u).symm
  | step _ ih => exact (Arrives.step (ih h')).cast (Nat.add_assoc _ _ _).symm

/-- A run is an iteration of the step. -/
theorem iterate (h : Arrives M s t s') : ∃ n, M.step^[n] s = s' := by
  induction h with
  | refl s => exact ⟨0, rfl⟩
  | step _ ih =>
    obtain ⟨n, hn⟩ := ih
    exact ⟨n + 1, hn⟩

/-- Of two runs from one state the shorter is the beginning of the longer. -/
theorem compare (hpos : ∀ s, 0 < M.cost s) (h : Arrives M s t s') (h' : Arrives M s u s'')
    (htu : t ≤ u) : Arrives M s' (u - t) s'' := by
  induction h generalizing u with
  | refl s => exact h'
  | @step s s' t h ih =>
    cases h' with
    | refl _ => exact absurd htu (by have := hpos s''; omega)
    | @step _ _ u h' => exact (ih h' (by omega)).cast (by omega)

/-- What every step keeps holds after a run. -/
theorem inv {P : σ → Prop} (hP : ∀ s, P s → P (M.step s)) (h : Arrives M s t s') (hs : P s) :
    P s' := by
  induction h with
  | refl s => exact hs
  | step _ ih => exact ih (hP _ hs)

/-- **Simulation.** Machines whose steps keep a relation and take the same time run alike. -/
theorem simulate {R : σ → τ → Prop}
    (hR : ∀ s x, R s x → N.cost x = M.cost s ∧ R (M.step s) (N.step x)) {x : τ}
    (h : Arrives M s t s') (hs : R s x) : ∃ x', Arrives N x t x' ∧ R s' x' := by
  induction h generalizing x with
  | refl s => exact ⟨x, .refl x, hs⟩
  | step _ ih =>
    obtain ⟨hcost, hstep⟩ := hR _ _ hs
    obtain ⟨x', hrun, hend⟩ := ih hstep
    exact ⟨x', hcost ▸ hrun.step, hend⟩

/-- Runs are as long as one likes. -/
theorem lasting (hpos : ∀ s, 0 < M.cost s) (s : σ) (n : ℕ) : ∃ t s', n ≤ t ∧ Arrives M s t s' := by
  induction n with
  | zero => exact ⟨0, s, Nat.le_refl 0, .refl s⟩
  | succ n ih =>
    obtain ⟨t, s', ht, hrun⟩ := ih
    exact ⟨_, _, Nat.add_le_add ht (hpos s'), hrun.trans (one M s')⟩

end Arrives

/-! ## Where runs lead -/

variable {P Q : σ → Prop}

theorem Arrives.leads (h : Arrives M s t s') (hQ : Q s') : Leads M s t Q :=
  ⟨t, s', Nat.le_refl t, h, hQ⟩

namespace Leads

theorem of (h : Q s) : Leads M s t Q := ⟨0, s, Nat.zero_le t, .refl s, h⟩

theorem mono (h : Leads M s t P) (htu : t ≤ u) (hPQ : ∀ s, P s → Q s) : Leads M s u Q := by
  obtain ⟨v, s', hv, hrun, hP⟩ := h
  exact ⟨v, s', Nat.le_trans hv htu, hrun, hPQ s' hP⟩

/-- More time. -/
theorem le (h : Leads M s t Q) (htu : t ≤ u) : Leads M s u Q := h.mono htu fun _ => id

/-- **Sequencing.** -/
theorem bind (h : Leads M s t P) (h' : ∀ s', P s' → Leads M s' u Q) : Leads M s (t + u) Q := by
  obtain ⟨v, s', hv, hrun, hP⟩ := h
  obtain ⟨w, s'', hw, hrun', hQ⟩ := h' s' hP
  exact ⟨v + w, s'', Nat.add_le_add hv hw, hrun.trans hrun', hQ⟩

/-- A run before. -/
theorem after (h : Arrives M s t s') (h' : Leads M s' u Q) : Leads M s (t + u) Q :=
  (h.leads (Q := (· = s')) rfl).bind fun _ heq => heq ▸ h'

/-- **Loops.** If each round takes the invariant from a value of the counter to the one below,
the loop ends with the counter at zero. -/
theorem loop {I : ℕ → σ → Prop} (h : ∀ n s, I (n + 1) s → Leads M s t (I n)) {n : ℕ}
    (hs : I n s) : Leads M s (n * t) (I 0) := by
  induction n generalizing s with
  | zero => exact .of hs
  | succ n ih =>
    have hround := (h n s hs).bind fun s' hs' => ih hs'
    exact hround.mono (Nat.le_of_eq (by rw [Nat.succ_mul, Nat.add_comm])) fun _ => id

/-- **What is reached and then kept** holds at the end of every run that takes long enough. -/
theorem settles (hpos : ∀ s, 0 < M.cost s) (hkeep : ∀ s, Q s → Q (M.step s))
    (h : Leads M s t Q) (hrun : Arrives M s u s') (htu : t ≤ u) : Q s' := by
  obtain ⟨v, s₁, hv, hrun₁, hQ⟩ := h
  exact (hrun₁.compare hpos hrun (Nat.le_trans hv htu)).inv hkeep hQ

end Leads

/-! ## Runs through states of a kind -/

/-- A run on which every state satisfies `P`, the last one apart. -/
inductive Through {σ : Type} (M : Clocked σ) (P : σ → Prop) : σ → ℕ → σ → Prop
  | refl (s : σ) : Through M P s 0 s
  | step {s s' : σ} {t : ℕ} (hP : P s) (h : Through M P (M.step s) t s') :
    Through M P s (M.cost s + t) s'

/-- A state that satisfies `Q` comes within the given time, and until then `P` holds. -/
def Within {σ : Type} (M : Clocked σ) (P : σ → Prop) (t : ℕ) (Q : σ → Prop) (s : σ) : Prop :=
  ∃ u s', u ≤ t ∧ Through M P s u s' ∧ Q s'

namespace Through

theorem cast (h : Through M P s t s') (ht : t = u) : Through M P s u s' := ht ▸ h

theorem trans (h : Through M P s t s') (h' : Through M P s' u s'') :
    Through M P s (t + u) s'' := by
  induction h with
  | refl s => exact h'.cast (Nat.zero_add u).symm
  | step hP _ ih => exact (Through.step hP (ih h')).cast (Nat.add_assoc _ _ _).symm

theorem reaches (h : Through M P s t s') : Arrives M s t s' := by
  induction h with
  | refl s => exact .refl s
  | step _ _ ih => exact ih.step

theorem mono {P' : σ → Prop} (hPP : ∀ s, P s → P' s) (h : Through M P s t s') :
    Through M P' s t s' := by
  induction h with
  | refl s => exact .refl s
  | step hP _ ih => exact .step (hPP _ hP) ih

/-- A change that the steps do not see is made at the end as well as at the beginning. -/
theorem map {f : σ → σ} (hf : ∀ s, P s → P (f s) ∧ M.cost (f s) = M.cost s ∧
    M.step (f s) = f (M.step s)) (h : Through M P s t s') : Through M P (f s) t (f s') := by
  induction h with
  | refl s => exact .refl _
  | step hP _ ih =>
    obtain ⟨hP', hcost, hstep⟩ := hf _ hP
    rw [← hstep] at ih
    exact (Through.step hP' ih).cast (by rw [hcost])

theorem within (h : Through M P s t s') (hQ : Q s') (htu : t ≤ u) : Within M P u Q s :=
  ⟨t, s', htu, h, hQ⟩

end Through

namespace Within

theorem of (h : Q s) : Within M P t Q s := ⟨0, s, Nat.zero_le t, .refl s, h⟩

/-- More time. -/
theorem le (h : Within M P t Q s) (htu : t ≤ u) : Within M P u Q s := by
  obtain ⟨v, s', hv, hrun, hQ⟩ := h
  exact hrun.within hQ (Nat.le_trans hv htu)

/-- A run before. -/
theorem after (h : Through M P s t s') (h' : Within M P u Q s') : Within M P (t + u) Q s := by
  obtain ⟨v, s'', hv, hrun, hQ⟩ := h'
  exact (h.trans hrun).within hQ (Nat.add_le_add_left hv t)

theorem leads (h : Within M P t Q s) : Leads M s t Q := by
  obtain ⟨u, s', hu, hrun, hQ⟩ := h
  exact ⟨u, s', hu, hrun.reaches, hQ⟩

/-- What holds on the way and at the point holds now. -/
theorem now (h : Within M P t Q s) : P s ∨ Q s := by
  obtain ⟨u, s', -, hrun, hQ⟩ := h
  cases hrun with
  | refl _ => exact .inr hQ
  | step hP _ => exact .inl hP

/-- **A point that the machine comes back to** stays near. -/
theorem step (hback : ∀ s, Q s → Within M P t Q (M.step s)) (h : Within M P t Q s) :
    Within M P t Q (M.step s) := by
  obtain ⟨u, s', hu, hrun, hQ⟩ := h
  cases hrun with
  | refl _ => exact hback _ hQ
  | step hP hrest => exact hrest.within hQ (by omega)

/-- For ever. -/
theorem reaches (hback : ∀ s, Q s → Within M P t Q (M.step s)) (h : Within M P t Q s)
    (hrun : Arrives M s u s') : Within M P t Q s' :=
  hrun.inv (fun _ => step hback) h

/-- **A change that the steps do not see** leaves the point as near as it was. -/
theorem map {f : σ → σ} (hf : ∀ s, P s → P (f s) ∧ M.cost (f s) = M.cost s ∧
    M.step (f s) = f (M.step s)) (hQ : ∀ s, Q s → Q (f s)) (h : Within M P t Q s) :
    Within M P t Q (f s) := by
  obtain ⟨u, s', hu, hrun, h'⟩ := h
  exact (hrun.map hf).within (hQ _ h') hu

end Within

end TimedRuns
