import Umk80.Brightness

/-!
# What an unrefreshed digit keeps

A decay step takes `x / 64` off every accumulator, rounded down, so it takes nothing off an
accumulator below 64. A digit that is never selected again therefore does not fade out: whatever
was lit stays above 0 until 512 decay steps fall due in a single interval, which no instruction is
long enough for. What is left is a residue of at most 63, and its pattern is still readable.

## Main definitions

* `Display.FadesOut` — enough decay steps without the digit make it dark
* `Display.Overdue` — any interval at all ends in a blackout

## Main results

* `Display.fadesOut_iff` — only a digit that is dark already fades out, or one that is overdue
* `Machine.Recorded.fadesOut_iff_dark` — in a run only what is dark already fades out
-/

namespace Umk80

open LeakyIntegrator

namespace Display

/-- The decay steps that an interval applies. -/
def decaySteps (d : Display) (iv : Interval) : ℕ :=
  (decayLoop d.stepSize DECAY_MAX_STEPS 0 (d.filled iv)).1

/-- The decay steps that a list of intervals applies. -/
def stepsApplied (d : Display) : List Interval → ℕ
  | [] => 0
  | iv :: ivs => d.decaySteps iv + (d.integrate iv.dt iv.sel iv.seg).stepsApplied ivs

/-- An interval that `display_advance` can integrate, in which digit `i` is not selected. -/
structure Without (d : Display) (i : Fin 6) (iv : Interval) : Prop where
  pos : 0 < iv.dt
  le : iv.dt ≤ 0x00100000
  unselected : iv.sel.getLsbD (d.position i) = false

/-- Nothing is left of digit `i`. -/
structure Dark (d : Display) (i : Fin 6) : Prop where
  pairs : ∀ j, d.energy i j = 0
  digit : d.energyDigit i = 0

/-- **Digit `i` fades out**: there is a number of decay steps after which it is dark, reads 0
everywhere, and shows an empty mask. -/
def FadesOut (d : Display) (i : Fin 6) : Prop :=
  ∃ N, ∀ ivs, (∀ iv ∈ ivs, d.Without i iv) → N ≤ d.stepsApplied ivs →
    (d.replay ivs).Dark i ∧ (∀ j, (d.replay ivs).relative i j = 0) ∧
      ∀ threshold, (d.replay ivs).pattern threshold i = 0

/-- So many decay steps are due that any interval ends in a blackout. -/
def Overdue (d : Display) : Prop :=
  ∀ dt : U32, 0 < dt → dt ≤ 0x00100000 →
    DECAY_MAX_STEPS * d.stepSize.toNat ≤ (d.decayAcc + dt).toNat

/-! ## One interval -/

theorem integrate_eq (d : Display) (iv : Interval) : d.integrate iv.dt iv.sel iv.seg =
    afterLoop (decayLoop d.stepSize DECAY_MAX_STEPS 0 (d.filled iv)) := by
  obtain ⟨hsetup, hacc⟩ := d.deposit_setup iv.dt iv.sel iv.seg
  rw [filled, ← hacc, ← hsetup.stepSize]
  rfl

/-- The accumulators of digit `i`. -/
def Slot.isOf (i : Fin 6) : Slot → Prop
  | .pair i' _ => i' = i
  | .digit i' => i' = i
  | .total => False

theorem slot_filled {d : Display} {i : Fin 6} {iv : Interval} (h : d.Without i iv) {k : Slot}
    (hk : k.isOf i) : (d.filled iv).slot k = d.slot k := by
  have hslot : (d.filled iv).slot k = (d.deposit iv.dt iv.sel iv.seg).slot k := by
    cases k
    all_goals rfl
  have hlit : d.lit iv.sel iv.seg k = false := by
    cases k with
    | total => exact hk.elim
    | digit i' =>
      rw [lit, show i' = i from hk]
      exact h.unselected
    | pair i' j =>
      rw [lit, show i' = i from hk, h.unselected]
      rfl
  rw [hslot, slot_deposit, hlit]
  rfl

theorem dark_iff {d : Display} {i : Fin 6} : d.Dark i ↔ ∀ k : Slot, k.isOf i → d.slot k = 0 := by
  constructor
  · intro h k hk
    cases k with
    | total => exact hk.elim
    | digit i' =>
      cases hk
      exact h.digit
    | pair i' j =>
      cases hk
      exact h.pairs j
  · intro h
    exact ⟨fun j => h (.pair i j) rfl, h (.digit i) rfl⟩

/-- **A digit that is dark stays dark** while it is not selected. -/
theorem Dark.integrate {d : Display} {i : Fin 6} {iv : Interval} (hdark : d.Dark i)
    (h : d.Without i iv) : (d.integrate iv.dt iv.sel iv.seg).Dark i := by
  obtain ⟨-, hloop⟩ := integrator_decayLoop (p := d.rate) d.stepSize rfl rfl
    DECAY_MAX_STEPS 0 (d.filled iv)
  rw [integrate_eq, dark_iff]
  intro k hk
  have hzero :
      ((decayLoop d.stepSize DECAY_MAX_STEPS 0 (d.filled iv)).2.integrator).cell k = 0 := by
    rw [hloop]
    refine Integrator.drain_inv (P := fun s : Integrator Slot => s.cell k = 0) ?_ ?_
    · intro s _ hs
      simp [Integrator.decay, hs]
    · change ((d.filled iv).slot k).toNat = 0
      rw [slot_filled h hk, dark_iff.mp hdark k hk]
      rfl
  unfold afterLoop
  split
  · cases k
    all_goals rfl
  · exact BitVec.eq_of_toNat_eq hzero

/-- The decay loop takes its steps off the remainder, and stops for want of a due step or at the
limit. -/
theorem decaySteps_spec (d : Display) (iv : Interval) :
    d.decaySteps iv * d.stepSize.toNat +
      (decayLoop d.stepSize DECAY_MAX_STEPS 0 (d.filled iv)).2.decayAcc.toNat =
        (d.decayAcc + iv.dt).toNat ∧
    ((decayLoop d.stepSize DECAY_MAX_STEPS 0 (d.filled iv)).2.decayAcc < d.stepSize ∨
      d.decaySteps iv = DECAY_MAX_STEPS) := by
  obtain ⟨hcount, hloop⟩ := integrator_decayLoop (p := d.rate) d.stepSize rfl rfl
    DECAY_MAX_STEPS 0 (d.filled iv)
  have hsteps := Integrator.drain_steps (p := d.rate) (n := DECAY_MAX_STEPS) 0
    (d.filled iv).integrator
  have hleft := Integrator.drain_acc (p := d.rate) (n := DECAY_MAX_STEPS) 0
    (d.filled iv).integrator
  rw [← hcount, ← hloop] at hsteps hleft
  rw [Nat.zero_mul, Nat.zero_add] at hsteps
  rw [Nat.zero_add] at hleft
  exact ⟨hsteps, hleft⟩

theorem stepSize_pos (d : Display) : 0 < d.stepSize.toNat := by
  unfold stepSize
  dsimp only
  split
  · decide
  · exact Nat.pos_of_ne_zero fun h => ‹¬ _› (BitVec.eq_of_toNat_eq h)

theorem settled_of_zero {d : Display} (h : d.decayAcc = 0) : d.Settled := by
  rw [Settled, h]
  exact d.stepSize_pos

/-- Every interval leaves the remainder below a decay step. -/
theorem settled_integrate (d : Display) (iv : Interval) :
    (d.integrate iv.dt iv.sel iv.seg).Settled := by
  have hsize := (d.integrate_setup iv.dt iv.sel iv.seg).stepSize
  rw [Settled, hsize, integrate_eq, afterLoop]
  split
  · exact d.stepSize_pos
  · rcases (d.decaySteps_spec iv).2 with hlt | hcount
    · exact hlt
    · exact absurd hcount.ge ‹_›

/-- **Without a blackout** an interval takes its decay steps off the remainder. -/
theorem integrate_small {d : Display} {iv : Interval}
    (hacc : (d.decayAcc + iv.dt).toNat < DECAY_MAX_STEPS * d.stepSize.toNat) :
    d.decaySteps iv < DECAY_MAX_STEPS ∧
    d.integrate iv.dt iv.sel iv.seg =
      (decayLoop d.stepSize DECAY_MAX_STEPS 0 (d.filled iv)).2 ∧
    d.decaySteps iv * d.stepSize.toNat + (d.integrate iv.dt iv.sel iv.seg).decayAcc.toNat =
      (d.decayAcc + iv.dt).toNat := by
  obtain ⟨hsteps, -⟩ := d.decaySteps_spec iv
  have hfew : d.decaySteps iv < DECAY_MAX_STEPS := by
    refine Nat.lt_of_mul_lt_mul_right (a := d.stepSize.toNat) ?_
    exact Nat.lt_of_le_of_lt (Nat.le_add_right _ _) (hsteps ▸ hacc)
  have hloop : d.integrate iv.dt iv.sel iv.seg =
      (decayLoop d.stepSize DECAY_MAX_STEPS 0 (d.filled iv)).2 := by
    rw [integrate_eq]
    exact if_neg (Nat.not_le_of_lt hfew)
  rw [hloop]
  exact ⟨hfew, rfl, hsteps⟩

/-- It darkens nothing. -/
theorem integrate_without {d : Display} {i : Fin 6} {iv : Interval} (h : d.Without i iv)
    (hacc : (d.decayAcc + iv.dt).toNat < DECAY_MAX_STEPS * d.stepSize.toNat) {k : Slot}
    (hk : k.isOf i) (hne : d.slot k ≠ 0) : (d.integrate iv.dt iv.sel iv.seg).slot k ≠ 0 := by
  obtain ⟨-, hloop⟩ := integrator_decayLoop (p := d.rate) d.stepSize rfl rfl
    DECAY_MAX_STEPS 0 (d.filled iv)
  rw [(integrate_small hacc).2.1]
  intro h0
  have hpos : 0 < ((decayLoop d.stepSize DECAY_MAX_STEPS 0
      (d.filled iv)).2.integrator).cell k := by
    rw [hloop]
    refine Integrator.drain_inv (P := fun s : Integrator Slot => 0 < s.cell k)
      (fun s _ hs => leak_pos (by decide : 1 < 64) hs) ?_
    change 0 < ((d.filled iv).slot k).toNat
    rw [slot_filled h hk]
    exact Nat.pos_of_ne_zero fun hz => hne (BitVec.eq_of_toNat_eq hz)
  change 0 < (BitVec.toNat _) at hpos
  rw [h0] at hpos
  exact absurd hpos (Nat.lt_irrefl 0)

/-- **A blackout.** When 512 decay steps fall due, every digit is dark. -/
theorem dark_of_due {d : Display} {iv : Interval}
    (hdue : DECAY_MAX_STEPS * d.stepSize.toNat ≤ (d.decayAcc + iv.dt).toNat) (i : Fin 6) :
    (d.integrate iv.dt iv.sel iv.seg).Dark i := by
  obtain ⟨hsteps, hleft⟩ := d.decaySteps_spec iv
  have hmany : DECAY_MAX_STEPS ≤ d.decaySteps iv := by
    rcases hleft with hlt | hcount
    · refine Nat.le_of_lt_succ (Nat.lt_of_mul_lt_mul_right (a := d.stepSize.toNat) ?_)
      rw [BitVec.lt_def] at hlt
      rw [Nat.succ_mul]
      omega
    · exact hcount.ge
  have hblack : d.integrate iv.dt iv.sel iv.seg =
      (decayLoop d.stepSize DECAY_MAX_STEPS 0 (d.filled iv)).2.blackout := by
    rw [integrate_eq]
    exact if_pos hmany
  rw [hblack]
  exact ⟨fun _ => rfl, rfl⟩

/-! ## Any number of intervals -/

theorem Without.of_setup {d d' : Display} {i : Fin 6} {iv : Interval} (h : d.Without i iv)
    (hsetup : SameSetup d d') : d'.Without i iv := by
  refine ⟨h.pos, h.le, ?_⟩
  rw [position, hsetup.2.2]
  exact h.unselected

theorem Dark.replay {d : Display} {i : Fin 6} {ivs : List Interval} (hdark : d.Dark i)
    (h : ∀ iv ∈ ivs, d.Without i iv) : (d.replay ivs).Dark i := by
  induction ivs generalizing d with
  | nil => exact hdark
  | cons iv ivs ih =>
    refine ih (hdark.integrate (h iv List.mem_cons_self)) fun iv' hiv' => ?_
    exact (h iv' (List.mem_cons_of_mem _ hiv')).of_setup (d.integrate_setup _ _ _)

/-- A dark digit reads 0 and shows nothing. -/
theorem Dark.reads {d : Display} {i : Fin 6} (h : d.Dark i) :
    (∀ j, d.relative i j = 0) ∧ ∀ threshold, d.pattern threshold i = 0 := by
  have hrel (j : Fin 8) : d.relative i j = 0 := by
    rw [relative, h.digit]
    rfl
  refine ⟨hrel, fun threshold => BitVec.eq_of_getLsbD_eq fun k hk => ?_⟩
  calc (d.pattern threshold i).getLsbD k
      = decide (threshold < d.relative i ⟨k, hk⟩) := getLsbD_pattern d threshold i ⟨k, hk⟩
    _ = decide (threshold < 0) := by rw [hrel]
    _ = false := decide_eq_false (Nat.not_lt_zero _)
    _ = (0 : U8).getLsbD k := BitVec.getLsbD_zero.symm

/-- One T state with nothing selected. -/
def idle : Interval := ⟨1, 0, 0⟩

theorem without_idle (d : Display) (i : Fin 6) : d.Without i idle :=
  ⟨by decide, by decide, BitVec.getLsbD_zero⟩

/-- **Idling** applies as many decay steps as one likes, and darkens nothing. -/
theorem replay_idle {d : Display} {i : Fin 6} (hd : d.Settled) (n : ℕ) :
    d.decayAcc.toNat + n < (d.stepsApplied (List.replicate n idle) + 1) * d.stepSize.toNat ∧
    ∀ k : Slot, k.isOf i → d.slot k ≠ 0 → (d.replay (List.replicate n idle)).slot k ≠ 0 := by
  induction n generalizing d with
  | zero =>
    have hlt : d.decayAcc.toNat < d.stepSize.toNat := hd
    exact ⟨by simpa [stepsApplied] using hlt, fun _ _ h => h⟩
  | succ n ih =>
    have hlt : d.decayAcc.toNat < d.stepSize.toNat := hd
    have hsize := d.stepSize.isLt
    have hone : (d.decayAcc + idle.dt).toNat = d.decayAcc.toNat + 1 := by
      rw [BitVec.toNat_add, show idle.dt.toNat = 1 from rfl]
      exact Nat.mod_eq_of_lt (by omega)
    have hsmall : (d.decayAcc + idle.dt).toNat < DECAY_MAX_STEPS * d.stepSize.toNat := by
      rw [hone]
      unfold DECAY_MAX_STEPS
      omega
    obtain ⟨-, -, hsteps⟩ := integrate_small hsmall
    have hkeep {k : Slot} (hk : k.isOf i) := integrate_without (d.without_idle i) hsmall hk
    obtain ⟨ihsteps, ihkeep⟩ := ih (d.settled_integrate idle)
    rw [(d.integrate_setup _ _ _).stepSize] at ihsteps
    rw [hone] at hsteps
    refine ⟨?_, fun k hk hne => ihkeep k hk (hkeep hk hne)⟩
    rw [List.replicate_succ, stepsApplied]
    generalize (d.integrate idle.dt idle.sel idle.seg).stepsApplied (List.replicate n idle) = s
      at ihsteps
    rw [Nat.add_assoc, Nat.add_mul]
    omega

/-- A digit of which something is left keeps it through as many decay steps as one likes. -/
theorem FadesOut.dark_or_overdue {d : Display} {i : Fin 6} (h : d.FadesOut i) :
    d.Dark i ∨ d.Overdue := by
  obtain ⟨N, hN⟩ := h
  by_contra hnot
  obtain ⟨hdark, hdue⟩ := not_or.mp hnot
  obtain ⟨k, hk⟩ := not_forall.mp (mt dark_iff.mpr hdark)
  obtain ⟨hof, hne⟩ := Classical.not_imp.mp hk
  obtain ⟨dt, hdt⟩ := not_forall.mp hdue
  obtain ⟨hpos, hdt⟩ := Classical.not_imp.mp hdt
  obtain ⟨hle, hsmall⟩ := Classical.not_imp.mp hdt
  -- one interval without a blackout, and then enough single T states
  have hfirst : d.Without i ⟨dt, 0, 0⟩ := ⟨hpos, hle, BitVec.getLsbD_zero⟩
  have hkeep := integrate_without hfirst (Nat.lt_of_not_le hsmall) hof hne
  have hsettled := d.settled_integrate ⟨dt, 0, 0⟩
  generalize hd' : d.integrate dt 0 0 = d' at hsettled hkeep
  obtain ⟨hsteps, hidle⟩ := replay_idle (i := i) hsettled (N * d'.stepSize.toNat)
  have henough : N ≤ d'.stepsApplied (List.replicate (N * d'.stepSize.toNat) idle) := by
    have hlt := Nat.lt_of_le_of_lt (Nat.le_add_left _ _) hsteps
    exact Nat.le_of_lt_succ (Nat.lt_of_mul_lt_mul_right hlt)
  have hrun := hN (⟨dt, 0, 0⟩ :: List.replicate (N * d'.stepSize.toNat) idle) ?_ ?_
  · refine hidle k hof hkeep ?_
    have hzero := dark_iff.mp hrun.1 k hof
    rw [Display.replay, List.foldl_cons, hd'] at hzero
    exact hzero
  · intro iv hiv
    rcases List.mem_cons.mp hiv with rfl | hiv
    · exact hfirst
    · rw [List.eq_of_mem_replicate hiv]
      exact d.without_idle i
  · rw [stepsApplied, hd']
    exact henough.trans (Nat.le_add_left _ _)

theorem Dark.fadesOut {d : Display} {i : Fin 6} (h : d.Dark i) : d.FadesOut i :=
  ⟨0, fun _ hivs _ => ⟨h.replay hivs, (h.replay hivs).reads⟩⟩

theorem Overdue.fadesOut {d : Display} (h : d.Overdue) (i : Fin 6) : d.FadesOut i := by
  refine ⟨1, fun ivs hivs hN => ?_⟩
  cases ivs with
  | nil => exact absurd hN (Nat.not_succ_le_zero 0)
  | cons iv ivs =>
    have hiv := hivs iv List.mem_cons_self
    have hdark := dark_of_due (h iv.dt hiv.pos hiv.le) i
    have hrest : ((d.integrate iv.dt iv.sel iv.seg).replay ivs).Dark i :=
      hdark.replay fun iv' hiv' =>
        (hivs iv' (List.mem_cons_of_mem _ hiv')).of_setup (d.integrate_setup _ _ _)
    exact ⟨hrest, hrest.reads⟩

/-- **What fades out.** A digit fades out exactly when it is dark already, or when the remainder
is so large that the next interval, whatever its length, is taken for ages. -/
theorem fadesOut_iff (d : Display) (i : Fin 6) : d.FadesOut i ↔ d.Dark i ∨ d.Overdue := by
  constructor
  · exact FadesOut.dark_or_overdue
  · rintro (h | h)
    · exact h.fadesOut
    · exact h.fadesOut i

/-! ## Reachable displays -/

theorem Settled.not_overdue {d : Display} (h : d.Settled) : ¬ d.Overdue := by
  intro hdue
  have hlt : d.decayAcc.toNat < d.stepSize.toNat := h
  have hsize := d.stepSize.isLt
  have hacc : (d.decayAcc + 1).toNat = d.decayAcc.toNat + 1 := by
    rw [BitVec.toNat_add, show (1 : U32).toNat = 1 from rfl]
    exact Nat.mod_eq_of_lt (by omega)
  have hdue := hdue 1 (by decide) (by decide)
  rw [hacc, DECAY_MAX_STEPS] at hdue
  omega

theorem settled_replay {d : Display} (h : d.Settled) (ivs : List Interval) :
    (d.replay ivs).Settled := by
  induction ivs generalizing d with
  | nil => exact h
  | cons iv ivs ih => exact ih (d.settled_integrate iv)

end Display

namespace Machine

/-- **No run is ever overdue**, at whatever persistence. -/
theorem Recorded.settled {m : Machine} {tau : U32} {ivs : List Interval} (h : m.Recorded tau ivs) :
    m.display.Settled := by
  obtain ⟨t, hdisp⟩ := h.replays
  have hblack : m.display.blackout.Settled := Display.settled_of_zero rfl
  rw [hdisp]
  exact Display.settled_replay hblack ivs

/-- In a run only the digits that are dark fade out. -/
theorem Recorded.fadesOut_iff_dark {m : Machine} {tau : U32} {ivs : List Interval}
    (h : m.Recorded tau ivs) (i : Fin 6) : m.display.FadesOut i ↔ m.display.Dark i := by
  constructor
  · intro hfades
    exact hfades.dark_or_overdue.resolve_right h.settled.not_overdue
  · exact Display.Dark.fadesOut

/-- `MVI A,89H; OUT 0FBH; MVI A,1; OUT 0F8H; MVI A,5BH; OUT 0F9H; MVI A,0; OUT 0F8H`: one digit
is shown once and never selected again. -/
def shownOnce : List Call :=
  .loadRom 0 [0x3E, 0x89, 0xD3, 0xFB, 0x3E, 0x01, 0xD3, 0xF8, 0x3E, 0x5B, 0xD3, 0xF9, 0x3E, 0x00,
    0xD3, 0xF8] :: List.replicate 8 .stepInstruction

/-- The digit that was shown does not fade out. -/
theorem not_fadesOut_shownOnce : ∃ m, (init .rev2).calls 0 shownOnce = some m ∧
    ¬ m.display.FadesOut (m.display.position 0) := by
  have hrun : ((init .rev2).recordAll 0 [] shownOnce).map
      (fun x => decide (x.1.display.energyDigit (x.1.display.position 0) = 0)) = some false := by
    decide +kernel
  obtain ⟨⟨m, ivs⟩, hm, hlit⟩ := Option.map_eq_some_iff.mp hrun
  have h := recorded_recordAll (recorded_init .rev2) (by decide) hm
  refine ⟨m, calls_of_recordAll hm, fun hfades => ?_⟩
  exact of_decide_eq_false hlit ((h.fadesOut_iff_dark _).mp hfades).digit

end Machine

end Umk80
