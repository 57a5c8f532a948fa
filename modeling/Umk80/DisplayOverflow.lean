import Umk80.DisplayClock

/-!
# When the accumulators overflow

A T state adds 256 to the total, and a decay step takes `1 / 64` of it away every `tau / 64`
T states. So the total settles at `256 * tau`, and from `tau = 2^24` on, some 8 seconds at 2 MHz,
that is more than 32 bits hold. `umk_display_set_persistence` takes any constant, and it forgets the
T states that have passed since the last decay step; called often enough, it lets the total grow at
any constant.

Below `2^24`, and with room for one more decay period in the total at each call, no run of any
length overflows.

## Main definitions

* `Display.Wraps`, `Display.NeverWraps` — an interval that overflows, and a list without one
* `Machine.NeverOverflows` — a run in which nothing overflows
* `Machine.Spares` — a run in which every change of the persistence leaves room

## Main results

* `Display.neverWraps_iff` — which changes of the persistence leave room for every future
* `Machine.neverOverflows_of_spares` — runs that leave room never overflow
* `Machine.exists_wraps_of_long` — runs that are too long for their persistence overflow
-/

namespace Umk80

open Interaction LeakyIntegrator

namespace Display

/-! ## Overflow -/

/-- Adding an interval makes an accumulator that it feeds wrap around. -/
def Wraps (d : Display) (iv : Interval) : Prop :=
  (∃ k, d.lit iv.sel iv.seg k = true ∧ 2 ^ 32 ≤ (d.slot k).toNat + iv.dt.toNat * 256) ∨
    2 ^ 32 ≤ d.decayAcc.toNat + iv.dt.toNat

/-- No interval of a list makes an accumulator wrap around. -/
def NeverWraps (d : Display) (ivs : List Interval) : Prop :=
  ∀ before iv after, ivs = before ++ iv :: after → ¬ (d.replay before).Wraps iv

theorem neverWraps_nil (d : Display) : d.NeverWraps [] :=
  fun _ _ _ h => absurd h.symm (List.append_ne_nil_of_right_ne_nil _ (List.cons_ne_nil _ _))

theorem neverWraps_cons {d : Display} {iv : Interval} {ivs : List Interval} :
    d.NeverWraps (iv :: ivs) ↔
      ¬ d.Wraps iv ∧ (d.integrate iv.dt iv.sel iv.seg).NeverWraps ivs := by
  constructor
  · intro h
    refine ⟨h [] iv ivs rfl, fun before iv' after heq => ?_⟩
    exact h (iv :: before) iv' after (by rw [heq, List.cons_append])
  · rintro ⟨hiv, hivs⟩ (_ | ⟨iv₀, before⟩) iv' after heq
    · obtain ⟨rfl, -⟩ := List.cons.inj heq
      exact hiv
    · obtain ⟨rfl, hrest⟩ := List.cons.inj heq
      exact hivs before iv' after hrest

theorem neverWraps_append {d : Display} {ivs ivs' : List Interval} (h : d.NeverWraps ivs)
    (h' : (d.replay ivs).NeverWraps ivs') : d.NeverWraps (ivs ++ ivs') := by
  induction ivs generalizing d with
  | nil => exact h'
  | cons iv ivs ih =>
    obtain ⟨hiv, hivs⟩ := neverWraps_cons.mp h
    exact neverWraps_cons.mpr ⟨hiv, ih hivs h'⟩

/-- The time base does not matter. -/
theorem neverWraps_at {t : U64} {d : Display} {ivs : List Interval}
    (h : (d.withIntegratedTo t).NeverWraps ivs) : d.NeverWraps ivs := by
  intro before iv after heq
  have hno := h before iv after heq
  rw [replay_withIntegratedTo] at hno
  rintro (⟨k, hlit, hk⟩ | hacc)
  · refine hno (Or.inl ⟨k, ?_, ?_⟩)
    · cases k
      all_goals exact hlit
    · cases k
      all_goals exact hk
  · exact hno (Or.inr hacc)

theorem Fits.not_wraps {d : Display} {iv : Interval} (h : d.Fits iv.dt) : ¬ d.Wraps iv := by
  rintro (⟨k, -, hk⟩ | hacc)
  · exact Nat.not_le_of_lt (h.1 k) hk
  · exact Nat.not_le_of_lt h.2 hacc

/-! ## Room -/

/-- A display whose accumulators stay on the level `K`, with room for a decay period on top. -/
structure Roomy (d : Display) (K : ℕ) : Prop where
  below : ∀ k, (d.slot k).toNat ≤ d.total.toNat
  bounded : d.integrator.BoundedBy d.rate K
  level : 63 * (256 * d.stepSize.toNat) ≤ K
  room : K + 256 * (d.stepSize.toNat + 17) < 2 ^ 32
  settled : d.Settled

variable {d : Display} {K : ℕ}

theorem Roomy.fits (h : d.Roomy K) {dt : U32} (hdt : dt.toNat ≤ 18) : d.Fits dt := by
  have hsettled : d.decayAcc.toNat < d.stepSize.toNat := h.settled
  have hroom := h.room
  refine ⟨fun k => ?_, by omega⟩
  have hk : (d.slot k).toNat ≤ K + 256 * d.decayAcc.toNat := h.bounded k
  omega

theorem Roomy.integrate (h : d.Roomy K) {iv : Interval} (hdt : iv.dt.toNat ≤ 18) :
    (d.integrate iv.dt iv.sel iv.seg).Roomy K := by
  have hfeed := integrator_integrate (h.fits hdt)
  have hsetup := d.integrate_setup iv.dt iv.sel iv.seg
  have hlevel : (d.rate.c - 1) * (d.rate.scale * d.rate.period) ≤ K := h.level
  refine ⟨fun k => ?_, ?_, ?_, ?_, d.settled_integrate iv⟩
  · have hlit : ∀ u ∈ [d.pulse iv], u.lit k = true → u.lit .total = true := by
      rintro u hu -
      rw [List.mem_singleton.mp hu]
      rfl
    have hcell := Integrator.cell_le_run (p := d.rate) [d.pulse iv] hlit (s := d.integrator)
      (h.below k)
    change (d.integrator.feed d.rate (d.pulse iv)).cell k ≤
      (d.integrator.feed d.rate (d.pulse iv)).cell .total at hcell
    rw [← hfeed] at hcell
    exact hcell
  · rw [hfeed, rate_of_setup hsetup]
    exact Integrator.boundedBy_run (by decide : 0 < 64) hlevel [d.pulse iv] h.bounded
  · rw [hsetup.stepSize]
    exact h.level
  · rw [hsetup.stepSize]
    exact h.room

theorem Roomy.neverWraps (h : d.Roomy K) {ivs : List Interval}
    (hshort : ∀ iv ∈ ivs, iv.dt.toNat ≤ 18) : d.NeverWraps ivs ∧ (d.replay ivs).Roomy K := by
  induction ivs generalizing d with
  | nil => exact ⟨neverWraps_nil d, h⟩
  | cons iv ivs ih =>
    have hdt := hshort iv List.mem_cons_self
    obtain ⟨hrest, hend⟩ := ih (h.integrate hdt)
      fun iv' h' => hshort iv' (List.mem_cons_of_mem _ h')
    exact ⟨neverWraps_cons.mpr ⟨(h.fits hdt).not_wraps, hrest⟩, hend⟩

/-- The decay period at the persistence constant `tau`. -/
def periodOf (tau : U32) : ℕ := max 1 (tau.toNat / 64)

/-- There is room for the persistence constant `tau`. -/
def HasRoom (d : Display) (tau : U32) : Prop :=
  tau.toNat < 2 ^ 24 ∧ d.total.toNat + 256 * (periodOf tau + 17) < 2 ^ 32

theorem toNat_stepSize_setPersistence (d : Display) (tau : U32) :
    (d.setPersistence tau).stepSize.toNat = periodOf tau := by
  rw [toNat_stepSize, periodOf]
  by_cases h : tau = 0
  · have htau : (d.setPersistence tau).tauCycles = 1 := if_pos h
    rw [htau, h]
    rfl
  · have htau : (d.setPersistence tau).tauCycles = tau := if_neg h
    rw [htau]

theorem HasRoom.roomy {tau : U32} (h : d.HasRoom tau)
    (hbelow : ∀ k, (d.slot k).toNat ≤ d.total.toNat) :
    (d.setPersistence tau).Roomy (max d.total.toNat (63 * (256 * periodOf tau))) := by
  obtain ⟨htau, htotal⟩ := h
  have hsize := d.toNat_stepSize_setPersistence tau
  have hperiod : periodOf tau < 2 ^ 18 := by
    rw [periodOf]
    omega
  refine ⟨?_, ?_, ?_, ?_, ?_⟩
  · intro k
    have hk := hbelow k
    cases k with
    | pair i j => exact hk
    | digit i => exact hk
    | total => exact hk
  · intro k
    have hk : (d.slot k).toNat ≤ _ := (hbelow k).trans (le_max_left _ (63 * (256 * periodOf tau)))
    cases k with
    | pair i j => exact hk
    | digit i => exact hk
    | total => exact hk
  · rw [hsize]
    exact le_max_right _ _
  · rw [hsize, ← Nat.lt_sub_iff_add_lt]
    refine max_lt ?_ ?_
    · omega
    · omega
  · exact settled_of_zero rfl

/-! ## No room -/

/-- The most that a decay step takes off an accumulator: `1 / 64` of 32 bits. -/
def MAX_LEAK : ℕ := 2 ^ 26 - 1

/-- What decay steps do not take off the total stays there. -/
theorem total_integrate {iv : Interval} (hd : d.Settled) (hdt : iv.dt.toNat ≤ 18)
    (h : ¬ d.Wraps iv) : d.total.toNat + 256 * iv.dt.toNat ≤
      (d.integrate iv.dt iv.sel iv.seg).total.toNat + d.decaySteps iv * MAX_LEAK := by
  obtain ⟨hsteps, hloop⟩ := integrator_decayLoop (p := d.rate) d.stepSize rfl rfl
    DECAY_MAX_STEPS 0 (d.filled iv)
  have hsum := settled_add hd hdt
  have hsmall : (d.decayAcc + iv.dt).toNat < DECAY_MAX_STEPS * d.stepSize.toNat := by
    have hlt : d.decayAcc.toNat < d.stepSize.toNat := hd
    rw [hsum, DECAY_MAX_STEPS]
    omega
  have hfilled : (d.filled iv).total.toNat = d.total.toNat + 256 * iv.dt.toNat := by
    have hfits : d.total.toNat + iv.dt.toNat * 256 < 2 ^ 32 := by
      by_contra hnot
      exact h (Or.inl ⟨.total, rfl, Nat.le_of_not_lt hnot⟩)
    have hslot : (d.filled iv).total = d.total + iv.dt * ENERGY_SCALE :=
      slot_deposit d iv.dt iv.sel iv.seg .total
    rw [hslot, BitVec.toNat_add, BitVec.toNat_mul, show (ENERGY_SCALE : U32).toNat = 256 from rfl]
    omega
  have hlt : (d.filled iv).integrator.cell .total < d.rate.c * (MAX_LEAK + 1) :=
    (d.filled iv).total.isLt.trans_eq (by decide : 2 ^ 32 = 64 * (MAX_LEAK + 1))
  have hdrain := Integrator.le_cell_drain (n := DECAY_MAX_STEPS) 0 (d.filled iv).integrator hlt
  rw [← hsteps, ← hloop, Nat.zero_mul, Nat.add_zero] at hdrain
  change (d.filled iv).total.toNat ≤ _ + d.decaySteps iv * MAX_LEAK at hdrain
  rw [hfilled] at hdrain
  rw [(integrate_small hsmall).2.1]
  exact hdrain

theorem total_replay {ivs : List Interval} (hd : d.Settled)
    (hshort : ∀ iv ∈ ivs, iv.dt.toNat ≤ 18) (h : d.NeverWraps ivs) :
    d.total.toNat + 256 * (ivs.flatMap Interval.ticks).length ≤
      (d.replay ivs).total.toNat + d.stepsApplied ivs * MAX_LEAK := by
  induction ivs generalizing d with
  | nil => simp [replay, stepsApplied]
  | cons iv ivs ih =>
    obtain ⟨hiv, hivs⟩ := neverWraps_cons.mp h
    have hfirst := total_integrate hd (hshort iv List.mem_cons_self) hiv
    have hrest := ih (d.settled_integrate iv)
      (fun iv' h' => hshort iv' (List.mem_cons_of_mem _ h')) hivs
    have htail : d.replay (iv :: ivs) = (d.integrate iv.dt iv.sel iv.seg).replay ivs := rfl
    rw [htail, stepsApplied, Nat.add_mul, List.flatMap_cons, List.length_append, Interval.ticks,
      List.length_replicate]
    omega

/-- **A run overflows** when its T states add more than its decay steps can take away and 32 bits
can hold. -/
theorem not_neverWraps_of_long {ivs : List Interval} (hacc : d.decayAcc = 0)
    (hshort : ∀ iv ∈ ivs, iv.dt.toNat ≤ 18) {n : ℕ}
    (hn : (ivs.flatMap Interval.ticks).length = n)
    (hlong : 2 ^ 32 + n / d.stepSize.toNat * MAX_LEAK ≤ 256 * n) : ¬ d.NeverWraps ivs := by
  intro h
  have hd := settled_of_zero hacc
  have htotal := total_replay hd hshort h
  obtain ⟨hsteps, -⟩ := stepsApplied_spec hd hshort
  rw [hacc, hn] at hsteps
  rw [hn] at htotal
  have hfew : d.stepsApplied ivs ≤ n / d.stepSize.toNat := by
    refine (Nat.le_div_iff_mul_le d.stepSize_pos).mpr ?_
    change _ = 0 + n at hsteps
    omega
  have hleak := Nat.mul_le_mul_right MAX_LEAK hfew
  have hend := (d.replay ivs).total.isLt
  omega

theorem length_ticks_idle (n : ℕ) :
    ((List.replicate n idle).flatMap Interval.ticks).length = n := by
  induction n with
  | zero => rfl
  | succ n ih =>
    rw [List.replicate_succ, List.flatMap_cons, List.length_append, ih, Nat.add_comm]
    rfl

/-- **Without room for another decay period** the total overflows before the next decay step. -/
theorem exists_wraps_of_noRoom (hacc : d.decayAcc = 0)
    (htotal : 2 ^ 32 ≤ d.total.toNat + 256 * (d.stepSize.toNat + 17)) :
    ∃ ivs, (∀ iv ∈ ivs, 0 < iv.dt.toNat ∧ iv.dt.toNat ≤ 18) ∧ ¬ d.NeverWraps ivs := by
  have hd := settled_of_zero hacc
  have hpos := d.stepSize_pos
  obtain ⟨n, hn⟩ : ∃ n, d.stepSize.toNat = n + 1 := ⟨_, (Nat.succ_pred_eq_of_pos hpos).symm⟩
  have hidle : ∀ iv ∈ List.replicate n idle, 0 < iv.dt.toNat ∧ iv.dt.toNat ≤ 18 := by
    intro iv hiv
    rw [List.eq_of_mem_replicate hiv]
    decide
  -- T states one by one up to the last before a decay step, and then an XTHL
  refine ⟨List.replicate n idle ++ [⟨18, 0, 0⟩], ?_, fun h => ?_⟩
  · intro iv hiv
    rcases List.mem_append.mp hiv with hiv | hiv
    · exact hidle iv hiv
    · rw [List.mem_singleton.mp hiv]
      decide
  · have hbefore : d.NeverWraps (List.replicate n idle) :=
      fun before iv after heq => h before iv (after ++ [⟨18, 0, 0⟩])
        (by rw [heq, List.append_assoc, List.cons_append])
    have hshort : ∀ iv ∈ List.replicate n idle, iv.dt.toNat ≤ 18 := fun iv hiv => (hidle iv hiv).2
    have hgain := total_replay hd hshort hbefore
    obtain ⟨hsteps, -⟩ := stepsApplied_spec hd hshort
    rw [length_ticks_idle] at hgain hsteps
    rw [hacc, hn] at hsteps
    change _ = 0 + n at hsteps
    have hnone : d.stepsApplied (List.replicate n idle) = 0 := by
      refine Nat.eq_zero_of_not_pos fun hsome => ?_
      have hperiod := Nat.mul_le_mul_right (n + 1) hsome
      omega
    rw [hnone, Nat.zero_mul, Nat.add_zero] at hgain
    refine h _ ⟨18, 0, 0⟩ [] rfl (Or.inl ⟨.total, rfl, ?_⟩)
    rw [hn, Nat.add_assoc, Nat.mul_add, ← Nat.add_assoc] at htotal
    exact htotal.trans (Nat.add_le_add_right hgain (256 * 18))

/-- **Which changes of the persistence leave room for every future.** -/
theorem neverWraps_iff (hbelow : ∀ k, (d.slot k).toNat ≤ d.total.toNat) (tau : U32) :
    (∀ ivs : List Interval, (∀ iv ∈ ivs, 0 < iv.dt.toNat ∧ iv.dt.toNat ≤ 18) →
      (d.setPersistence tau).NeverWraps ivs) ↔ d.HasRoom tau := by
  have hsize := d.toNat_stepSize_setPersistence tau
  constructor
  · intro h
    by_contra hnot
    rcases Nat.lt_or_ge tau.toNat (2 ^ 24) with htau | htau
    · have htotal : 2 ^ 32 ≤ (d.setPersistence tau).total.toNat +
          256 * ((d.setPersistence tau).stepSize.toNat + 17) := by
        rw [hsize]
        exact Nat.le_of_not_lt fun hlt => hnot ⟨htau, hlt⟩
      obtain ⟨ivs, hivs, hwraps⟩ := exists_wraps_of_noRoom rfl htotal
      exact hwraps (h ivs hivs)
    · have hslow : 2 ^ 18 ≤ periodOf tau := by
        rw [periodOf]
        omega
      have hpos : 0 < periodOf tau := by omega
      obtain ⟨n, hn⟩ : ∃ n, 2 ^ 32 * periodOf tau = n := ⟨_, rfl⟩
      have hidle : ∀ iv ∈ List.replicate n idle, 0 < iv.dt.toNat ∧ iv.dt.toNat ≤ 18 := by
        intro iv hiv
        rw [List.eq_of_mem_replicate hiv]
        decide
      refine not_neverWraps_of_long rfl (fun iv hiv => (hidle iv hiv).2) (length_ticks_idle n) ?_
        (h _ hidle)
      rw [hsize, ← hn, Nat.mul_div_cancel _ hpos, MAX_LEAK]
      omega
  · intro h ivs hivs
    exact ((h.roomy hbelow).neverWraps fun iv hiv => (hivs iv hiv).2).1

end Display

namespace Machine

/-! ## Runs -/

/-- The machine from which a machine cycle runs an instruction dry. -/
def cycleDryRuns (m : Machine) : List Machine := if m.step.mcIndex = 0 then [m.onTrial] else []

/-- The machines from which a call runs an instruction dry. -/
def dryRuns (m : Machine) : Call → List Machine
  | .stepMachineCycle => m.cycleDryRuns
  | .pressStep =>
    if !m.step.latchStep then [] else if m.step.latchCycle then m.cycleDryRuns else []
  | _ => []

/-- Nothing that an instruction feeds the display, dry or not, makes an accumulator wrap around. -/
def NeverOverflows (fuel : ℕ) : Machine → List Call → Prop
  | _, [] => True
  | m, c :: cs =>
    (∀ m₁ ∈ m.dryRuns c ++ m.executions fuel c, m₁.display.NeverWraps m₁.intervals) ∧
      ∀ m', m.call fuel c = some m' → m'.NeverOverflows fuel cs

/-- Every change of the persistence leaves room. -/
def Spares (fuel : ℕ) : Machine → List Call → Prop
  | _, [] => True
  | m, c :: cs =>
    (∀ tau, c = .displaySetPersistence tau → m.display.HasRoom tau) ∧
      ∀ m', m.call fuel c = some m' → m'.Spares fuel cs

/-- What keeps a machine from overflowing. -/
structure HasRoom (m : Machine) : Prop where
  clock : m.cpu.cycles ≤ m.display.integratedTo
  room : ∃ K, m.display.Roomy K

variable {m m' : Machine}

theorem HasRoom.of_sameTime (h : m.HasRoom) (hsame : SameTime m m') : m'.HasRoom := by
  refine ⟨?_, ?_⟩
  · rw [hsame.cycles, hsame.display]
    exact h.clock
  · rw [hsame.display]
    exact h.room

/-- **One instruction** overflows nothing and leaves the room as it is. -/
theorem HasRoom.execOne (h : m.HasRoom) :
    m.display.NeverWraps m.intervals ∧ m.execOne.2.HasRoom := by
  obtain ⟨hclock, hshort, t, hdisp⟩ := display_execOne h.clock
  obtain ⟨K, hK⟩ := h.room
  obtain ⟨hnever, hend⟩ := hK.neverWraps fun iv hiv => (hshort iv hiv).2
  refine ⟨hnever, hclock, K, ?_⟩
  rw [hdisp]
  exact ⟨hend.below, hend.bounded, hend.level, hend.room, hend.settled⟩

theorem HasRoom.cleared (h : m.HasRoom) (d : Display) (htau : d.tauCycles = m.display.tauCycles)
    (hdisp : m'.display = d.clearAccumulator m'.cpu.cycles) : m'.HasRoom := by
  obtain ⟨K, hK⟩ := h.room
  have hsize : m'.display.stepSize = m.display.stepSize := by
    rw [hdisp, Display.stepSize, Display.stepSize, ← htau]
    rfl
  have hslot (k : Display.Slot) : m'.display.slot k = 0 := by
    rw [hdisp]
    cases k
    all_goals rfl
  refine ⟨?_, K, ?_, ?_, ?_, ?_, ?_⟩
  · rw [hdisp]
    exact BitVec.le_refl _
  · intro k
    rw [hslot k]
    exact Nat.zero_le _
  · intro k
    change (m'.display.slot k).toNat ≤ _
    rw [hslot k]
    exact Nat.zero_le _
  · rw [hsize]
    exact hK.level
  · rw [hsize]
    exact hK.room
  · refine Display.settled_of_zero ?_
    rw [hdisp]
    rfl

theorem HasRoom.call {fuel : ℕ} {c : Call} (h : m.HasRoom)
    (hc : ∀ tau, c = .displaySetPersistence tau → m.display.HasRoom tau)
    (hcall : m.call fuel c = some m') : m'.HasRoom := by
  rcases call_display hcall with ⟨-, hthrough⟩ | ⟨d, htau, hdisp⟩ | ⟨tau, rfl, rfl⟩
  · exact hthrough.inv (P := fun _ m => m.HasRoom) (l := []) (fun hsame h => h.of_sameTime hsame)
      (fun _ _ _ h => h.execOne.2) h
  · exact h.cleared d htau hdisp
  · obtain ⟨K, hK⟩ := h.room
    exact ⟨h.clock, _, (hc tau rfl).roomy hK.below⟩

theorem HasRoom.dryRuns (h : m.HasRoom) (c : Call) : ∀ m₁ ∈ m.dryRuns c, m₁.HasRoom := by
  have hnone : ∀ m₁ ∈ ([] : List Machine), m₁.HasRoom := fun _ h₁ => absurd h₁ List.not_mem_nil
  have hcycle : ∀ m₁ ∈ m.cycleDryRuns, m₁.HasRoom := by
    rw [cycleDryRuns]
    split
    · exact fun m₁ h₁ => List.mem_singleton.mp h₁ ▸ h.of_sameTime ⟨rfl, rfl⟩
    · exact hnone
  cases c with
  | stepMachineCycle => exact hcycle
  | pressStep =>
    change ∀ m₁ ∈ if !m.step.latchStep then [] else
      if m.step.latchCycle then m.cycleDryRuns else [], m₁.HasRoom
    split
    · exact hnone
    · split
      · exact hcycle
      · exact hnone
  | _ => exact hnone

theorem HasRoom.neverOverflows {fuel : ℕ} {cs : List Call} (h : m.HasRoom)
    (hcs : m.Spares fuel cs) : m.NeverOverflows fuel cs := by
  induction cs generalizing m with
  | nil => trivial
  | cons c cs ih =>
    obtain ⟨hc, hrest⟩ := hcs
    refine ⟨fun m₁ h₁ => ?_, fun m' hcall => ih (h.call hc hcall) (hrest m' hcall)⟩
    rcases List.mem_append.mp h₁ with h₁ | h₁
    · exact (h.dryRuns c m₁ h₁).execOne.1
    · exact (executions_inv (P := HasRoom) (fun hsame h => h.of_sameTime hsame)
        (fun h => h.execOne.2) h fuel c m₁ h₁).execOne.1

theorem hasRoom_init (rev : Rev) : (init rev).HasRoom := by
  have hsize : (init rev).display.stepSize.toNat = 625 := by
    rw [Display.toNat_stepSize]
    change max 1 ((2000000 / 50 : U32).toNat / 64) = 625
    decide
  refine ⟨BitVec.le_refl _, 63 * (256 * 625), ?_, ?_, ?_, ?_, ?_⟩
  · intro k
    cases k
    all_goals exact Nat.le_refl 0
  · intro k
    cases k
    all_goals exact Nat.zero_le _
  · rw [hsize]
  · rw [hsize]
    decide
  · exact Display.settled_of_zero rfl

/-- **No overflow in runs that leave room.** If every change of the persistence is to a constant
below 2^24, and comes when the total has room for one more decay period at the new constant, no
accumulator ever wraps around, however long the run. -/
theorem neverOverflows_of_spares (fuel : ℕ) (rev : Rev) (cs : List Call)
    (h : (init rev).Spares fuel cs) : (init rev).NeverOverflows fuel cs :=
  (hasRoom_init rev).neverOverflows h

/-- Doubling the persistence at power-on leaves room. -/
theorem neverOverflows_of_spares_double :
    (init .rev1).NeverOverflows 0 [.displaySetPersistence 80000, .stepInstruction] := by
  refine neverOverflows_of_spares 0 .rev1 _ ⟨fun tau htau => ?_, fun m' _ => ⟨?_, ?_⟩⟩
  · cases htau
    exact ⟨by decide, by decide⟩
  · exact fun tau htau => absurd htau Call.noConfusion
  · exact fun _ _ => trivial

/-! ## Long runs -/

theorem neverWraps_through {ms : List Machine} (h : Through m ms m')
    (hclock : m.display.integratedTo = m.cpu.cycles)
    (hwrap : ∀ m₁ ∈ ms, m₁.cpu.cycles.toNat + m₁.execOne.1 < 2 ^ 64)
    (hnever : ∀ m₁ ∈ ms, m₁.display.NeverWraps m₁.intervals) :
    m.display.NeverWraps (ms.flatMap intervals) := by
  refine (h.inv (P := fun l m' => Integrated m l m' ∧ m.display.NeverWraps (l.flatMap intervals))
    (l := []) ?_ ?_ ?_).2
  · exact fun hsame ⟨h, hw⟩ => ⟨h.of_sameTime hsame, hw⟩
  · rintro l m₁ hm₁ ⟨h, hw⟩
    refine ⟨h.execOne (hwrap m₁ hm₁), ?_⟩
    rw [List.flatMap_append, List.flatMap_singleton]
    refine Display.neverWraps_append hw ?_
    have hnext := hnever m₁ hm₁
    rw [h.display] at hnext
    exact Display.neverWraps_at hnext
  · exact ⟨integrated_nil hclock, Display.neverWraps_nil _⟩

/-- **A run that is too long for its persistence** overflows on the way, whatever the program. -/
theorem exists_wraps_of_long {ms : List Machine} (h : Through m ms m')
    (hclock : m.display.integratedTo = m.cpu.cycles)
    (hwrap : ∀ m₁ ∈ ms, m₁.cpu.cycles.toNat + m₁.execOne.1 < 2 ^ 64)
    (hacc : m.display.decayAcc = 0)
    (hlong : 2 ^ 32 + states ms / m.display.stepSize.toNat * Display.MAX_LEAK ≤ 256 * states ms) :
    ∃ m₁ ∈ ms, ¬ m₁.display.NeverWraps m₁.intervals := by
  by_contra hnone
  have hnever : ∀ m₁ ∈ ms, m₁.display.NeverWraps m₁.intervals := by
    intro m₁ hm₁
    by_contra hw
    exact hnone ⟨m₁, hm₁, hw⟩
  have hfed := integrated_through h hclock hwrap
  have hticks : ((ms.flatMap intervals).flatMap Interval.ticks).length = states ms := by
    rw [hfed.ticks, length_timelines]
  exact Display.not_neverWraps_of_long hacc hfed.short hticks hlong
    (neverWraps_through h hclock hwrap hnever)

/-- The longest persistence, and then a run of 2^24 T states: 8.4 s at 2 MHz. -/
def slowRun : List Call := [.displaySetPersistence 0xFFFFFFFF, .runCycles 0x1000000]

/-- The total overflows before the first decay step. -/
theorem not_neverOverflows_slowRun : ∃ fuel, ¬ (init .rev1).NeverOverflows fuel slowRun := by
  obtain ⟨m, hm⟩ : ∃ m, m = (init .rev1).displaySetPersistence 0xFFFFFFFF := ⟨_, rfl⟩
  have hclock : m.display.integratedTo = m.cpu.cycles := by rw [hm]; rfl
  have hcycles : m.cpu.cycles = 0#64 := by rw [hm]; rfl
  have hlatch : m.step.latchStep = false := by rw [hm]; rfl
  have hacc : m.display.decayAcc = 0 := by rw [hm]; rfl
  have hsize : m.display.stepSize.toNat = 2 ^ 26 - 1 := by
    rw [hm]
    change ((init .rev1).display.setPersistence 0xFFFFFFFF).stepSize.toNat = _
    rw [Display.toNat_stepSize_setPersistence]
    decide
  obtain ⟨k, hk⟩ : ∃ k, m.Meets (2 ^ 24) k := Budget.exists_meets execOne_pos _ m
  have hspent : m.spent k ≤ 2 ^ 24 + 17 := hk.le_add fun m => m.cost_execOne.1.2
  have hreached : 2 ^ 24 ≤ m.spent k := hk.reached
  have hrun := runCycles_of_meets hlatch (by decide) (by omega) hk (Nat.le_refl k)
  have hcall : m.call k (.runCycles 0x1000000) = some (m.after k).panelUpdate :=
    congrArg (Option.map Prod.snd) hrun
  have hthrough := through_runCycles hcall
  have hwrap : ∀ m₁ ∈ m.executions k (.runCycles 0x1000000),
      m₁.cpu.cycles.toNat + m₁.execOne.1 < 2 ^ 64 := by
    intro m₁ hm₁
    rw [executions_runCycles, hlatch, if_neg Bool.false_ne_true] at hm₁
    have hlt := lt_of_mem_loopExecutions m₁ hm₁
    have hcost := m₁.cost_execOne.1.2
    rw [hcycles, BitVec.sub_zero, BitVec.lt_def] at hlt
    change m₁.cpu.cycles.toNat < 0x1000000 at hlt
    omega
  have helapsed := (integrated_through hthrough hclock hwrap).elapsed
  rw [cpu_panelUpdate, cycles_after, hcycles, BitVec.zero_add, BitVec.toNat_ofNat] at helapsed
  change _ = 0 + _ at helapsed
  have hstates : 2 ^ 24 ≤ states (m.executions k (.runCycles 0x1000000)) ∧
      states (m.executions k (.runCycles 0x1000000)) ≤ 2 ^ 24 + 17 := by
    omega
  have hnone : states (m.executions k (.runCycles 0x1000000)) / (2 ^ 26 - 1) = 0 :=
    Nat.div_eq_of_lt (by omega)
  obtain ⟨m₁, hm₁, hwraps⟩ := exists_wraps_of_long hthrough hclock hwrap hacc
    (by rw [hsize, hnone]; omega)
  refine ⟨k, fun hnever => hwraps ?_⟩
  exact (hnever.2 m (by rw [hm]; rfl)).1 m₁ (List.mem_append_right _ hm₁)

end Machine

end Umk80
