import Umk80.DisplayRuns

/-!
# Brightness over whole runs

At the default persistence the accumulators of every run are ordered, a pair under its digit and
a digit under the whole, because a pair is lit only while its digit is selected and the rounded
decay keeps the order. None of them can overflow. So the two readings are exact quotients, and a
digit that was only ever shown with one mask reads as that mask: its lit segments have gained and
lost exactly what the digit has, and the others nothing.

## Main results

* `Machine.display_ordering` — order, absence of overflow and exact readings, in every run
* `Machine.clean_digit` — what a cleanly multiplexed digit reads
-/

namespace Umk80

open LeakyIntegrator

namespace Display

/-! ## Readings -/

/-- **A reading is an exact quotient** when the accumulator is at most its norm. -/
theorem toNat_brightness {energy norm : U32} (h : energy ≤ norm) :
    (brightness energy norm).toNat = energy.toNat * 255 / norm.toNat := by
  have hle : energy.toNat ≤ norm.toNat := h
  by_cases hnorm : norm = 0
  · have h0 : energy.toNat = 0 := by
      rw [hnorm] at hle
      exact Nat.le_zero.mp hle
    rw [brightness, if_pos hnorm, h0, Nat.zero_mul, Nat.zero_div]
    rfl
  · have hpos : 0 < norm.toNat := by
      rcases Nat.eq_zero_or_pos norm.toNat with h0 | h0
      · exact absurd (BitVec.eq_of_toNat_eq h0) hnorm
      · exact h0
    have hq : energy.toNat * 255 / norm.toNat ≤ 255 :=
      Nat.div_le_of_le_mul (Nat.mul_le_mul_right 255 hle)
    have ht : ((energy.setWidth 64 * 255 / norm.setWidth 64 : U64)).toNat =
        energy.toNat * 255 / norm.toNat := by
      have := energy.isLt
      have := norm.isLt
      have h255 : (255 : U64).toNat = 255 := rfl
      rw [BitVec.toNat_udiv, BitVec.toNat_mul, BitVec.toNat_setWidth, BitVec.toNat_setWidth, h255,
        Nat.mod_eq_of_lt (a := energy.toNat) (by omega),
        Nat.mod_eq_of_lt (a := norm.toNat) (by omega), Nat.mod_eq_of_lt (by omega)]
    have hclamp : ¬ (255 : U64) < energy.setWidth 64 * 255 / norm.setWidth 64 := by
      rw [BitVec.lt_def, ht]
      exact Nat.not_lt.mpr hq
    rw [brightness, if_neg hnorm]
    dsimp only
    rw [if_neg hclamp, BitVec.toNat_setWidth, ht]
    omega

theorem brightness_self {x : U32} (hx : x ≠ 0) : brightness x x = 255 := by
  have hpos : 0 < x.toNat := by
    rcases Nat.eq_zero_or_pos x.toNat with h0 | h0
    · exact absurd (BitVec.eq_of_toNat_eq h0) hx
    · exact h0
  apply BitVec.eq_of_toNat_eq
  rw [toNat_brightness (BitVec.le_refl x), Nat.mul_div_cancel_left 255 hpos]
  rfl

theorem brightness_zero (norm : U32) : brightness 0 norm = 0 := by
  apply BitVec.eq_of_toNat_eq
  rw [toNat_brightness (show (0 : U32) ≤ norm from Nat.zero_le norm.toNat)]
  exact Nat.zero_div _

theorem getLsbD_one_shiftLeft :
    ∀ j k : Fin 8, ((1 : U8) <<< (j : ℕ)).getLsbD k = decide (j = k) := by
  decide

/-- The bits of a mask collected in a loop. -/
theorem getLsbD_foldl_mask (lit : Fin 8 → Prop) [DecidablePred lit] (js : List (Fin 8)) (mask : U8)
    (k : Fin 8) : (js.foldl (fun (mask : U8) (j : Fin 8) =>
      if lit j then mask ||| (1 : U8) <<< (j : ℕ) else mask) mask).getLsbD k =
        (mask.getLsbD k || js.any fun j => decide (j = k) && decide (lit j)) := by
  induction js generalizing mask with
  | nil => simp
  | cons j js ih =>
    rw [List.foldl_cons, ih, List.any_cons]
    by_cases hj : lit j
    · rw [if_pos hj, BitVec.getLsbD_or, getLsbD_one_shiftLeft]
      simp [hj, Bool.or_assoc]
    · rw [if_neg hj]
      simp [hj]

/-- **Bit `j` of a pattern** says that segment `j` is above the threshold. -/
theorem getLsbD_pattern (d : Display) (threshold : U8) (i : Fin 6) (j : Fin 8) :
    (d.pattern threshold i).getLsbD j = decide (threshold < d.relative i j) := by
  rw [pattern, getLsbD_foldl_mask (fun j => threshold < d.relative i j)]
  rw [show (0 : U8).getLsbD j = false from BitVec.getLsbD_zero, Bool.false_or, Bool.eq_iff_iff,
    List.any_eq_true]
  constructor
  · rintro ⟨k, -, hk⟩
    simp only [Bool.and_eq_true, decide_eq_true_eq] at hk
    obtain ⟨rfl, hk⟩ := hk
    exact decide_eq_true hk
  · intro h
    exact ⟨j, List.mem_finRange j, by simpa using h⟩

/-! ## Cleared accumulators -/

theorem integrator_blackout (d : Display) : d.blackout.integrator = Integrator.dark := by
  rw [integrator, Integrator.dark]
  congr 1
  funext k
  cases k
  all_goals rfl

theorem atDefault_blackout {d : Display} (htau : d.tauCycles = 40000) : d.blackout.AtDefault := by
  refine ⟨htau, ?_, ?_⟩
  · rw [integrator_blackout]
    exact Integrator.bounded_dark
  · have hsize : d.blackout.stepSize = 625 := by
      rw [stepSize, show d.blackout.tauCycles = 40000 from htau]
      rfl
    rw [Settled, hsize]
    exact (by decide : (0 : U32) < 625)

end Display

namespace Machine

variable {m : Machine} {ivs : List Interval}

/-- What the record says of the accumulators: they are what unbounded ones would be. -/
theorem Recorded.integrator (h : m.Recorded 40000 ivs) : m.display.integrator =
    Integrator.dark.run m.display.rate (ivs.map m.display.pulse) := by
  obtain ⟨t, hdisp⟩ := h.replays
  have hat : ((m.display.blackout.replay ivs).withIntegratedTo t).integrator =
      (m.display.blackout.replay ivs).integrator := by
    rw [Display.integrator, Display.integrator]
    congr 1
  have hrun := (Display.atDefault_blackout h.tau).integrator_replay fun iv hiv =>
    (h.short iv hiv).2.trans (by decide)
  have hsetup : Display.SameSetup m.display m.display.blackout := ⟨rfl, rfl, rfl⟩
  rw [Display.integrator_blackout, Display.rate_of_setup hsetup,
    Display.pulse_of_setup hsetup] at hrun
  rw [← hrun, ← hat, ← hdisp]

theorem Recorded.slot_le (h : m.Recorded 40000 ivs) {a b : Display.Slot}
    (hlit : ∀ iv ∈ ivs, m.display.lit iv.sel iv.seg a = true →
      m.display.lit iv.sel iv.seg b = true) : m.display.slot a ≤ m.display.slot b := by
  have hle := Integrator.cell_le_run (p := m.display.rate) (a := a) (b := b)
    (ivs.map m.display.pulse) ?_ (s := Integrator.dark) (Nat.le_refl 0)
  · rw [← h.integrator] at hle
    exact hle
  · intro u hu
    obtain ⟨iv, hiv, rfl⟩ := List.mem_map.mp hu
    exact hlit iv hiv

theorem Recorded.slot_eq_zero (h : m.Recorded 40000 ivs) {a : Display.Slot}
    (hlit : ∀ iv ∈ ivs, m.display.lit iv.sel iv.seg a = false) : m.display.slot a = 0 := by
  have hzero := Integrator.cell_eq_zero_run (p := m.display.rate) (a := a)
    (ivs.map m.display.pulse) ?_ (s := Integrator.dark) rfl
  · rw [← h.integrator] at hzero
    exact BitVec.eq_of_toNat_eq hzero
  · intro u hu
    obtain ⟨iv, hiv, rfl⟩ := List.mem_map.mp hu
    exact hlit iv hiv

theorem Recorded.slot_ne_zero (h : m.Recorded 40000 ivs) {a : Display.Slot}
    (hlit : ∃ iv ∈ ivs, m.display.lit iv.sel iv.seg a = true) : m.display.slot a ≠ 0 := by
  have hperiod : m.display.rate.period = 625 := by
    rw [Display.rate, Display.stepSize, h.tau]
    rfl
  have hpos := Integrator.cell_pos_run (p := m.display.rate) (a := a)
    (s := Integrator.dark) (by decide : 1 < 64) (by decide : 0 < 256) (by rw [hperiod]; decide)
    (ivs.map m.display.pulse) ?_ (by rw [hperiod]; exact (by decide : 0 < 625))
    (Or.inr ?_)
  · rw [← h.integrator] at hpos
    intro h0
    change 0 < (m.display.slot a).toNat at hpos
    rw [h0] at hpos
    exact absurd hpos (Nat.lt_irrefl 0)
  · intro u hu
    obtain ⟨iv, hiv, rfl⟩ := List.mem_map.mp hu
    have hdt : (m.display.pulse iv).dt ≤ 18 := (h.short iv hiv).2
    rw [hperiod]
    change 625 + (m.display.pulse iv).dt ≤ 512 * 625
    omega
  · obtain ⟨iv, hiv, hl⟩ := hlit
    exact ⟨m.display.pulse iv, List.mem_map_of_mem hiv, hl, (h.short iv hiv).1⟩

theorem Recorded.energy_le (h : m.Recorded 40000 ivs) (i : Fin 6) (j : Fin 8) :
    m.display.energy i j ≤ m.display.energyDigit i :=
  h.slot_le (a := .pair i j) (b := .digit i) fun _ _ hl => (Bool.and_eq_true _ _ ▸ hl).1

theorem Recorded.energyDigit_le (h : m.Recorded 40000 ivs) (i : Fin 6) :
    m.display.energyDigit i ≤ m.display.total :=
  h.slot_le (a := .digit i) (b := .total) fun _ _ _ => rfl

theorem recorded_init (rev : Rev) : (init rev).Recorded 40000 [] :=
  recorded_clear (init rev).display rfl rfl

/-- **Order, room and exactness.** In every state that a run from `umk_init` reaches at the
default persistence: a pair's energy is at most its digit's and a digit's at most the total; no
addition since the last clear has overflowed, and the accumulators are those of an integrator
without bounds; both readings are exact quotients. -/
theorem display_ordering (fuel : ℕ) (rev : Rev) (cs : List Call) (m : Machine)
    (ivs : List Interval) (hcs : ∀ c ∈ cs, c.keepsPersistence = true)
    (hrun : (init rev).recordAll fuel [] cs = some (m, ivs)) :
    (∀ i j, m.display.energy i j ≤ m.display.energyDigit i ∧
      m.display.energyDigit i ≤ m.display.total) ∧
    (∀ pre iv post, ivs = pre ++ iv :: post →
      (m.display.blackout.replay pre).Fits iv.dt) ∧
    m.display.integrator = Integrator.dark.run m.display.rate (ivs.map m.display.pulse) ∧
    ∀ i j, (m.display.intensity i j).toNat =
        (m.display.energy i j).toNat * 255 / m.display.total.toNat ∧
      (m.display.relative i j).toNat =
        (m.display.energy i j).toNat * 255 / (m.display.energyDigit i).toNat := by
  have h := recorded_recordAll (recorded_init rev) hcs hrun
  refine ⟨fun i j => ⟨h.energy_le i j, h.energyDigit_le i⟩, ?_, h.integrator, ?_⟩
  · intro pre iv post hivs
    have hshort (iv : Interval) (hiv : iv ∈ ivs) : iv.dt.toNat ≤ 2 ^ 20 :=
      (h.short iv hiv).2.trans (by decide)
    have hpre : (m.display.blackout.replay pre).AtDefault :=
      (Display.atDefault_blackout h.tau).replay fun iv hiv => hshort iv (by rw [hivs]; simp [hiv])
    exact hpre.fits (hshort iv (by rw [hivs]; simp))
  · intro i j
    have htotal : m.display.energy i j ≤ m.display.total :=
      BitVec.le_trans (h.energy_le i j) (h.energyDigit_le i)
    exact ⟨Display.toNat_brightness htotal, Display.toNat_brightness (h.energy_le i j)⟩

/-- The digits have been selected for longer than the segments have been on. -/
theorem display_ordering_litRun : ∃ m ivs,
    (init .rev2).recordAll 0 [] litRun = some (m, ivs) ∧
      (m.display.energy 0 0, m.display.energyDigit 0, m.display.total) = (1792, 4352, 10496) ∧
      m.display.energy 0 0 ≤ m.display.energyDigit 0 ∧
      (m.display.relative 0 0).toNat =
        (m.display.energy 0 0).toNat * 255 / (m.display.energyDigit 0).toNat := by
  have hrun : ((init .rev2).recordAll 0 [] litRun).map (fun x =>
      (x.1.display.energy 0 0, x.1.display.energyDigit 0, x.1.display.total)) =
      some (1792, 4352, 10496) := by
    decide +kernel
  obtain ⟨⟨m, ivs⟩, hrecord, hcells⟩ := Option.map_eq_some_iff.mp hrun
  obtain ⟨hle, -, -, hquotient⟩ := display_ordering 0 .rev2 litRun m ivs (by decide) hrecord
  exact ⟨m, ivs, hrecord, hcells, (hle 0 0).1, (hquotient 0 0).2⟩

/-- The interval selects digit `i`. -/
def selects (m : Machine) (iv : Interval) (i : Fin 6) : Bool :=
  iv.sel.getLsbD (m.display.position i)

/-- **A clean digit reads exactly its mask.** Take any run from cleared accumulators at the
default persistence, and what it has fed the display since they were last cleared. A segment that
was on whenever its digit was selected reads 255, one that never was reads 0, and a digit only
ever shown with one mask reads as that mask at every threshold below 255. A pair lit in every
interval has intensity 255. -/
theorem clean_digit (fuel : ℕ) (m₀ : Machine) (htau : m₀.display.tauCycles = 40000)
    (cs : List Call) (m : Machine) (ivs : List Interval)
    (hcs : ∀ c ∈ cs, c.keepsPersistence = true)
    (hrun : m₀.displayClearAccumulator.recordAll fuel [] cs = some (m, ivs)) (i : Fin 6) :
    ((∃ iv ∈ ivs, m.selects iv i = true) → ∀ j : Fin 8,
      (∀ iv ∈ ivs, m.selects iv i = true → iv.seg.getLsbD j = true) →
        m.display.relative i j = 255) ∧
    (∀ j : Fin 8, (∀ iv ∈ ivs, m.selects iv i = true → iv.seg.getLsbD j = false) →
      m.display.relative i j = 0) ∧
    ((∃ iv ∈ ivs, m.selects iv i = true) → ∀ mask : U8,
      (∀ iv ∈ ivs, m.selects iv i = true → iv.seg = mask) →
        ∀ threshold : U8, threshold < 255 → m.display.pattern threshold i = mask) ∧
    (ivs ≠ [] → ∀ j : Fin 8,
      (∀ iv ∈ ivs, m.selects iv i = true ∧ iv.seg.getLsbD j = true) →
        m.display.intensity i j = 255) := by
  have h := recorded_recordAll (recorded_clear (m := m₀.displayClearAccumulator) m₀.display htau
    rfl) hcs hrun
  have hon : (∃ iv ∈ ivs, m.selects iv i = true) → ∀ j : Fin 8,
      (∀ iv ∈ ivs, m.selects iv i = true → iv.seg.getLsbD j = true) →
        m.display.relative i j = 255 := by
    intro hsel j hseg
    have hge : m.display.energyDigit i ≤ m.display.energy i j :=
      h.slot_le (a := .digit i) (b := .pair i j)
        fun iv hiv hl => (Bool.and_eq_true _ _).mpr ⟨hl, hseg iv hiv hl⟩
    have heq : m.display.energy i j = m.display.energyDigit i :=
      BitVec.le_antisymm (h.energy_le i j) hge
    rw [Display.relative, heq]
    exact Display.brightness_self (h.slot_ne_zero (a := .digit i) hsel)
  have hoff : ∀ j : Fin 8, (∀ iv ∈ ivs, m.selects iv i = true → iv.seg.getLsbD j = false) →
      m.display.relative i j = 0 := by
    intro j hseg
    have hzero : m.display.energy i j = 0 := by
      refine h.slot_eq_zero (a := .pair i j) fun iv hiv => ?_
      cases hl : iv.sel.getLsbD (m.display.position i) with
      | false => rw [Display.lit, hl, Bool.false_and]
      | true =>
        rw [Display.lit, hl, Bool.true_and]
        exact hseg iv hiv hl
    rw [Display.relative, hzero]
    exact Display.brightness_zero _
  refine ⟨hon, hoff, ?_, ?_⟩
  · intro hsel mask hmask threshold ht
    refine BitVec.eq_of_getLsbD_eq fun k hk => ?_
    rw [Display.getLsbD_pattern m.display threshold i ⟨k, hk⟩]
    cases hbit : mask.getLsbD k with
    | true =>
      rw [hon hsel ⟨k, hk⟩ fun iv hiv hl => by rw [hmask iv hiv hl]; exact hbit]
      exact decide_eq_true ht
    | false =>
      rw [hoff ⟨k, hk⟩ fun iv hiv hl => by rw [hmask iv hiv hl]; exact hbit]
      exact decide_eq_false (Nat.not_lt_zero _)
  · intro hne j hlit
    have htotal : m.display.total ≤ m.display.energy i j :=
      h.slot_le (a := .total) (b := .pair i j)
        fun iv hiv _ => (Bool.and_eq_true _ _).mpr (hlit iv hiv)
    have heq : m.display.energy i j = m.display.total :=
      BitVec.le_antisymm (BitVec.le_trans (h.energy_le i j) (h.energyDigit_le i)) htotal
    obtain ⟨iv, hiv⟩ := List.exists_mem_of_ne_nil ivs hne
    rw [Display.intensity, heq]
    exact Display.brightness_self (h.slot_ne_zero (a := .total) ⟨iv, hiv, rfl⟩)

/-- Every digit selected, with the mask of a 2. -/
def showingTwo : Machine :=
  ({ init .rev2 with ppi := { (init .rev2).ppi with outA := 0x3F, outB := 0x5B } } : Machine)

/-- One instruction is enough to read the mask back. -/
theorem clean_digit_showingTwo :
    showingTwo.displayClearAccumulator.stepInstruction.2.display.pattern 254 0 = 0x5B :=
  (clean_digit 0 showingTwo rfl [.stepInstruction] _ showingTwo.displayClearAccumulator.intervals
    (by decide) rfl 0).2.2.1 (by decide +kernel) 0x5B (by decide +kernel) 254 (by decide)

end Machine

end Umk80
