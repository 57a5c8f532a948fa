import Mathlib.Order.Monotone.Basic
import Mathlib.Algebra.Order.Group.Nat
import Mathlib.Tactic.Common

/-!
# Leaky integrators

A family of accumulators integrates time: over an interval `dt` the cells that are lit gain
`dt * scale`, and once every `period` all of them lose a fraction `1 / c`, rounded down. The
accumulators here are unbounded natural numbers, so what is proved about them is what an
implementation should show as long as its own never overflow.

When one interval asks for `limit` decay steps or more, everything is set to 0 instead.

## Main definitions

* `leak` — one decay step of one accumulator
* `Integrator`, `Rate`, `Pulse` — accumulators, constants, and one interval
* `Integrator.feed`, `Integrator.run` — one interval, and a list of them

## Main results

* `leak_mono` — rounding does not break the order between accumulators
* `Integrator.cell_le_run`, `cell_eq_zero_run` — order and darkness are kept by every run
* `Integrator.bounded_run`, `Integrator.boundedBy_run` — the accumulators of a run stay below a
  fixed bound
* `Integrator.le_cell_drain` — what decay steps take away at most
* `Integrator.cell_pos_run` — without a blackout nothing that was lit becomes dark
-/

namespace LeakyIntegrator

/-! ## One accumulator -/

/-- Lose a `c`-th part, rounded down. -/
def leak (c x : ℕ) : ℕ := x - x / c

theorem leak_le (c x : ℕ) : leak c x ≤ x := Nat.sub_le x (x / c)

@[simp] theorem leak_zero (c : ℕ) : leak c 0 = 0 := by simp [leak]

/-- **Rounding keeps the order.** -/
theorem leak_mono (c : ℕ) : Monotone (leak c) := by
  refine monotone_nat_of_le_succ fun x => ?_
  have hdiv : (x + 1) / c ≤ x / c + 1 := by
    rw [Nat.succ_div]
    split
    · exact Nat.le_refl _
    · exact Nat.le_succ _
  have hle := Nat.div_le_self x c
  unfold leak
  omega

theorem leak_pos {c x : ℕ} (hc : 1 < c) (hx : 0 < x) : 0 < leak c x :=
  Nat.sub_pos_of_lt (Nat.div_lt_self hx hc)

/-- A decay step takes at least `q` off a bound of `c * q` or more. -/
theorem leak_le_sub {c q b x : ℕ} (hc : 0 < c) (hx : x ≤ b) (hb : c * q ≤ b) :
    leak c x ≤ b - q := by
  have hdiv : q ≤ b / c := (Nat.le_div_iff_mul_le hc).mpr (by rwa [Nat.mul_comm])
  have hmono := leak_mono c hx
  unfold leak at hmono ⊢
  omega

/-- Below `c * (b + 1)` a decay step takes away at most `b`. -/
theorem le_leak_add {c b x : ℕ} (h : x < c * (b + 1)) : x ≤ leak c x + b := by
  have hdiv : x / c < b + 1 := Nat.div_lt_of_lt_mul h
  unfold leak
  omega

/-! ## Integrators -/

/-- Accumulators, and the time since the last decay step. -/
structure Integrator (ι : Type) where
  cell : ι → ℕ
  acc : ℕ

/-- The constants of an integrator. -/
structure Rate where
  scale : ℕ
  c : ℕ
  period : ℕ
  limit : ℕ

/-- An interval, and the cells lit during it. -/
structure Pulse (ι : Type) where
  dt : ℕ
  lit : ι → Bool

variable {ι : Type} (p : Rate)

namespace Integrator

def add (s : Integrator ι) (u : Pulse ι) : Integrator ι where
  cell k := if u.lit k then s.cell k + u.dt * p.scale else s.cell k
  acc := s.acc + u.dt

/-- One decay step. -/
def decay (s : Integrator ι) : Integrator ι where
  cell k := leak p.c (s.cell k)
  acc := s.acc - p.period

/-- Decay steps while they are due, at most `n` more after `steps`. -/
def drain : ℕ → ℕ → Integrator ι → ℕ × Integrator ι
  | 0, steps, s => (steps, s)
  | n + 1, steps, s =>
    if p.period ≤ s.acc then drain n (steps + 1) (s.decay p) else (steps, s)

def dark : Integrator ι where
  cell _ := 0
  acc := 0

/-- One interval. -/
def feed (s : Integrator ι) (u : Pulse ι) : Integrator ι :=
  let r := (s.add p u).drain p p.limit 0
  if p.limit ≤ r.1 then dark else r.2

def run (s : Integrator ι) (us : List (Pulse ι)) : Integrator ι := us.foldl (feed p) s

variable {p}

@[simp] theorem acc_add (s : Integrator ι) (u : Pulse ι) : (s.add p u).acc = s.acc + u.dt := rfl

@[simp] theorem acc_decay (s : Integrator ι) : (s.decay p).acc = s.acc - p.period := rfl

/-! ## Invariants of a run -/

/-- What decay steps preserve is preserved by any number of them. -/
theorem drain_inv {P : Integrator ι → Prop}
    (hP : ∀ s, p.period ≤ s.acc → P s → P (s.decay p)) {n : ℕ} :
    ∀ {steps : ℕ} {s : Integrator ι}, P s → P (s.drain p n steps).2 := by
  induction n with
  | zero => exact fun h => h
  | succ n ih =>
    intro steps s h
    rw [drain]
    split
    · exact ih (hP s ‹_› h)
    · exact h

/-- **Run rule.** An invariant of adding, decaying and going dark is an invariant of a run. -/
theorem run_inv {P : Integrator ι → Prop} {us : List (Pulse ι)}
    (hadd : ∀ s, ∀ u ∈ us, P s → P (s.add p u))
    (hdecay : ∀ s, p.period ≤ s.acc → P s → P (s.decay p)) (hdark : P dark)
    {s : Integrator ι} (hs : P s) : P (s.run p us) := by
  induction us generalizing s with
  | nil => exact hs
  | cons u us ih =>
    refine ih (fun s v hv => hadd s v (List.mem_cons_of_mem _ hv)) ?_
    rw [feed]
    split
    · exact hdark
    · exact drain_inv hdecay (hadd s u List.mem_cons_self hs)

/-- **Order.** A cell that is lit only when another one is lit never gains more. -/
theorem cell_le_run {a b : ι} (us : List (Pulse ι)) (hlit : ∀ u ∈ us, u.lit a → u.lit b)
    {s : Integrator ι} (hs : s.cell a ≤ s.cell b) : (s.run p us).cell a ≤ (s.run p us).cell b := by
  refine run_inv (P := fun s : Integrator ι => s.cell a ≤ s.cell b) ?_ ?_ (Nat.le_refl 0) hs
  · intro s u hu h
    have hab := hlit u hu
    simp only [add]
    split
    · rw [if_pos (hab ‹_›)]
      exact Nat.add_le_add_right h _
    · split
      · exact h.trans (Nat.le_add_right _ _)
      · exact h
  · intro s _ h
    exact leak_mono p.c h

/-- **Darkness.** A cell that is never lit stays at 0. -/
theorem cell_eq_zero_run {a : ι} (us : List (Pulse ι)) (hlit : ∀ u ∈ us, u.lit a = false)
    {s : Integrator ι} (hs : s.cell a = 0) : (s.run p us).cell a = 0 := by
  refine run_inv (P := fun s : Integrator ι => s.cell a = 0) ?_ ?_ rfl hs
  · intro s u hu h
    simp [add, hlit u hu, h]
  · intro s _ h
    simp [decay, h]

/-! ## The bound -/

/-- Every cell is below what one `c`-th of it would refill in a period, plus what the time since
the last decay step can have added. -/
def Bounded (p : Rate) (s : Integrator ι) : Prop :=
  ∀ k, s.cell k ≤ p.c * (p.scale * p.period) + p.scale * s.acc

/-- The same from a level `K`, which may be above what an integrator at rest refills. -/
def BoundedBy (p : Rate) (K : ℕ) (s : Integrator ι) : Prop :=
  ∀ k, s.cell k ≤ K + p.scale * s.acc

theorem boundedBy_dark (K : ℕ) : BoundedBy p K (dark : Integrator ι) := fun _ => Nat.zero_le _

theorem bounded_dark : Bounded p (dark : Integrator ι) := boundedBy_dark _

theorem BoundedBy.add {K : ℕ} {s : Integrator ι} (h : s.BoundedBy p K) (u : Pulse ι) :
    (s.add p u).BoundedBy p K := by
  intro k
  have hk := h k
  have hmul : p.scale * (s.acc + u.dt) = p.scale * s.acc + u.dt * p.scale := by
    rw [Nat.mul_add, Nat.mul_comm u.dt]
  simp only [Integrator.add]
  rw [hmul]
  split
  · omega
  · omega

/-- A decay step comes after a period at least, and takes away what the period can have added if
the level is high enough. -/
theorem BoundedBy.decay {K : ℕ} (hc : 0 < p.c) (hK : (p.c - 1) * (p.scale * p.period) ≤ K)
    {s : Integrator ι} (h : s.BoundedBy p K) (hacc : p.period ≤ s.acc) :
    (s.decay p).BoundedBy p K := by
  intro k
  have hmul : p.scale * p.period ≤ p.scale * s.acc := Nat.mul_le_mul_left _ hacc
  have hlevel : p.c * (p.scale * p.period) ≤ K + p.scale * s.acc := by
    rw [← Nat.succ_pred_eq_of_pos hc, Nat.succ_mul]
    exact Nat.add_le_add hK hmul
  simp only [Integrator.decay]
  rw [Nat.mul_sub, ← Nat.add_sub_assoc hmul]
  exact leak_le_sub hc (h k) hlevel

theorem boundedBy_run {K : ℕ} (hc : 0 < p.c) (hK : (p.c - 1) * (p.scale * p.period) ≤ K)
    (us : List (Pulse ι)) {s : Integrator ι} (h : s.BoundedBy p K) : (s.run p us).BoundedBy p K :=
  run_inv (fun _ u _ h => h.add u) (fun _ hacc h => h.decay hc hK hacc) (boundedBy_dark K) h

/-- **The accumulators of every run are bounded**, however long it is. -/
theorem bounded_run (hc : 0 < p.c) (us : List (Pulse ι)) {s : Integrator ι} (h : s.Bounded p) :
    (s.run p us).Bounded p :=
  boundedBy_run hc (Nat.mul_le_mul_right _ (Nat.sub_le p.c 1)) us h

/-! ## The remainder -/

/-- Draining stops either for want of a due step or at the limit. -/
theorem drain_acc {n : ℕ} : ∀ (steps : ℕ) (s : Integrator ι),
    (s.drain p n steps).2.acc < p.period ∨ (s.drain p n steps).1 = steps + n := by
  induction n with
  | zero => exact fun _ _ => Or.inr rfl
  | succ n ih =>
    intro steps s
    rw [drain]
    split
    · rcases ih (steps + 1) (s.decay p) with h | h
      · exact Or.inl h
      · exact Or.inr (by omega)
    · exact Or.inl (Nat.lt_of_not_le ‹_›)

/-- After every interval less than a period is left over. -/
theorem acc_feed_lt (hp : 0 < p.period) (s : Integrator ι) (u : Pulse ι) :
    (s.feed p u).acc < p.period := by
  rw [feed]
  split
  · exact hp
  · rcases drain_acc (p := p) (n := p.limit) 0 (s.add p u) with h | h
    · exact h
    · omega

/-- Each decay step takes a period off the remainder. -/
theorem drain_steps {n : ℕ} : ∀ (steps : ℕ) (s : Integrator ι),
    (s.drain p n steps).1 * p.period + (s.drain p n steps).2.acc = steps * p.period + s.acc := by
  induction n with
  | zero => exact fun _ _ => rfl
  | succ n ih =>
    intro steps s
    rw [drain]
    split
    · have h := ih (steps + 1) (s.decay p)
      rw [Nat.add_mul, Nat.one_mul, acc_decay] at h
      omega
    · rfl

/-- Below `c * (b + 1)` each decay step takes away at most `b`. -/
theorem le_cell_drain {a : ι} {b n : ℕ} : ∀ (steps : ℕ) (s : Integrator ι),
    s.cell a < p.c * (b + 1) →
      s.cell a + steps * b ≤ (s.drain p n steps).2.cell a + (s.drain p n steps).1 * b := by
  induction n with
  | zero => exact fun _ _ _ => Nat.le_refl _
  | succ n ih =>
    intro steps s h
    rw [drain]
    split
    · have hleak : (s.decay p).cell a < p.c * (b + 1) := (leak_le p.c _).trans_lt h
      have hone : s.cell a ≤ (s.decay p).cell a + b := le_leak_add h
      have hrest := ih (steps + 1) (s.decay p) hleak
      rw [Nat.succ_mul] at hrest
      omega
    · exact Nat.le_refl _

/-- An interval shorter than `limit` periods does not go dark. -/
theorem feed_eq_drain {s : Integrator ι} {u : Pulse ι} (h : s.acc + u.dt < p.limit * p.period) :
    s.feed p u = ((s.add p u).drain p p.limit 0).2 := by
  rw [feed]
  refine if_neg fun hlimit => ?_
  have hsteps := drain_steps (p := p) (n := p.limit) 0 (s.add p u)
  have hmul := Nat.mul_le_mul_right p.period hlimit
  rw [acc_add, Nat.zero_mul, Nat.zero_add] at hsteps
  omega

/-- **Without a blackout** a cell that has been lit for a positive time is never 0 again. -/
theorem cell_pos_run (hc : 1 < p.c) (hscale : 0 < p.scale) (hp : 0 < p.period) {a : ι}
    (us : List (Pulse ι)) (hshort : ∀ u ∈ us, p.period + u.dt ≤ p.limit * p.period)
    {s : Integrator ι} (hs : s.acc < p.period)
    (hlit : 0 < s.cell a ∨ ∃ u ∈ us, u.lit a = true ∧ 0 < u.dt) : 0 < (s.run p us).cell a := by
  induction us generalizing s with
  | nil => simpa [run] using hlit
  | cons u us ih =>
    have hu := hshort u List.mem_cons_self
    have hfeed := feed_eq_drain (s := s) (u := u) (p := p) (by omega)
    refine ih (fun v hv => hshort v (List.mem_cons_of_mem _ hv)) (s.acc_feed_lt hp u) ?_
    have hdrain (h : 0 < (s.add p u).cell a) : 0 < (s.feed p u).cell a := by
      rw [hfeed]
      exact drain_inv (P := fun s : Integrator ι => 0 < s.cell a)
        (fun s _ h => leak_pos hc h) h
    rcases hlit with hpos | ⟨v, hv, hva, hdt⟩
    · refine Or.inl (hdrain ?_)
      simp only [add]
      split
      · exact Nat.add_pos_left hpos _
      · exact hpos
    · rcases List.mem_cons.mp hv with rfl | hv
      · refine Or.inl (hdrain ?_)
        simp only [add, hva, if_true]
        exact Nat.add_pos_right _ (Nat.mul_pos hdt hscale)
      · exact Or.inr ⟨v, hv, hva, hdt⟩

end Integrator

end LeakyIntegrator
