import Mathlib.Data.Fintype.Basic
import Umk80.Display
import Umk80.Lib.LeakyIntegrator

/-!
# The display is a leaky integrator

The 55 accumulators of the display, one for each (digit, segment) pair, one for each digit and
one for the whole, are the cells of a leaky integrator: an interval lights the cells of the
selected digits, and the decay loop drains them together. As long as nothing overflows, the
32-bit display computes exactly what unbounded accumulators would; at the default persistence
nothing ever does.

## Main definitions

* `Display.Slot`, `Display.slot` — the accumulators by name
* `Interval`, `Display.replay` — what `display_advance` adds at once, and a list of it
* `Display.integrator` — the display with unbounded accumulators

## Main results

* `Display.slot_deposit` — which accumulators an interval feeds
* `Display.integrator_integrate` — one interval, if nothing overflows
* `Display.integrator_replay` — any number of intervals, at the default persistence
-/

namespace Umk80

open LeakyIntegrator

/-- An interval that `display_advance` integrates, with the latches in force. -/
structure Interval where
  dt : U32
  sel : U8
  seg : U8
deriving DecidableEq

namespace Display

/-- An accumulator of the display. -/
inductive Slot
  | pair (i : Fin 6) (j : Fin 8)
  | digit (i : Fin 6)
  | total

def slot (d : Display) : Slot → U32
  | .pair i j => d.energy i j
  | .digit i => d.energyDigit i
  | .total => d.total

/-- The accumulators fed while the latches are `sel` and `seg`. -/
def lit (d : Display) (sel seg : U8) : Slot → Bool
  | .pair i j => sel.getLsbD (d.position i) && seg.getLsbD j
  | .digit i => sel.getLsbD (d.position i)
  | .total => true

/-- The accumulators that one selected digit feeds. -/
def Slot.isAt (pos : Fin 6) (seg : U8) : Slot → Bool
  | .pair i j => i == pos && seg.getLsbD j
  | .digit i => i == pos
  | .total => false

/-! ## The latches of an interval -/

theorem position_position (d : Display) (i : Fin 6) : d.position (d.position i) = i := by
  unfold position
  split
  · rfl
  · exact Fin.rev_rev i

theorem slot_depositDigit (d : Display) (dt : U32) (seg : U8) (pos : Fin 6) (k : Slot) :
    (d.depositDigit dt seg pos).slot k =
      if k.isAt pos seg then d.slot k + dt * ENERGY_SCALE else d.slot k := by
  cases k with
  | total => rfl
  | digit i =>
    by_cases hi : i = pos
    · simp [slot, depositDigit, Slot.isAt, hi]
    · simp [slot, depositDigit, Slot.isAt, hi]
  | pair i j =>
    by_cases hi : i = pos
    · simp [slot, depositDigit, Slot.isAt, hi]
    · simp [slot, depositDigit, Slot.isAt, hi]

/-- One turn of the loop over the digits. -/
def depositBit (sel seg : U8) (dt : U32) (d : Display) (bit : Fin 6) : Display :=
  if sel.getLsbD bit then d.depositDigit dt seg (d.position bit) else d

theorem bit0IsLeft_depositBit (sel seg : U8) (dt : U32) (d : Display) (bit : Fin 6) :
    (depositBit sel seg dt d bit).bit0IsLeft = d.bit0IsLeft := by
  unfold depositBit
  split
  · rfl
  · rfl

/-- Two different bits never feed the same accumulator. -/
theorem eq_of_isAt {d : Display} {seg : U8} {k : Slot} {b b' : Fin 6}
    (h : k.isAt (d.position b) seg = true) (h' : k.isAt (d.position b') seg = true) : b = b' := by
  have hpos : d.position b = d.position b' := by
    cases k with
    | total => exact absurd h Bool.false_ne_true
    | digit i =>
      simp only [Slot.isAt, beq_iff_eq] at h h'
      rw [← h, h']
    | pair i j =>
      simp only [Slot.isAt, Bool.and_eq_true, beq_iff_eq] at h h'
      rw [← h.1, h'.1]
  rw [← d.position_position b, hpos, d.position_position]

/-- The loop over the digits, for any list of different bits. -/
theorem slot_foldl_depositBit (sel seg : U8) (dt : U32) (bits : List (Fin 6)) (hbits : bits.Nodup)
    (d : Display) (k : Slot) : (bits.foldl (depositBit sel seg dt) d).slot k =
      if bits.any (fun b => sel.getLsbD b && k.isAt (d.position b) seg)
      then d.slot k + dt * ENERGY_SCALE else d.slot k := by
  induction bits generalizing d with
  | nil => rfl
  | cons b bits ih =>
    obtain ⟨hb, hbits⟩ := List.nodup_cons.mp hbits
    have hpos : (depositBit sel seg dt d b).position = d.position := by
      funext i
      rw [position, position, bit0IsLeft_depositBit]
    rw [List.foldl_cons, ih hbits, hpos, List.any_cons]
    by_cases hsel : sel.getLsbD b = true
    · rw [depositBit, if_pos hsel, slot_depositDigit, hsel, Bool.true_and]
      by_cases hat : k.isAt (d.position b) seg = true
      · -- the accumulator has been fed, and no later bit feeds it again
        have hrest : (bits.any fun b => sel.getLsbD b && k.isAt (d.position b) seg) = false := by
          rw [List.any_eq_false]
          intro b' hb' h
          have hat' := (Bool.and_eq_true _ _ ▸ h).2
          exact hb (eq_of_isAt hat hat' ▸ hb')
        simp [hat, hrest]
      · simp [hat]
    · rw [depositBit, if_neg hsel]
      simp [hsel]

/-- **An interval feeds the accumulators that are lit.** -/
theorem slot_deposit (d : Display) (dt : U32) (sel seg : U8) (k : Slot) :
    (d.deposit dt sel seg).slot k =
      if d.lit sel seg k then d.slot k + dt * ENERGY_SCALE else d.slot k := by
  have hfold := slot_foldl_depositBit sel seg dt (List.finRange 6) (List.nodup_finRange 6) d
  have hany (i : Fin 6) (c : Bool) : ((List.finRange 6).any fun b =>
      sel.getLsbD b && (i == d.position b && c)) = (sel.getLsbD (d.position i) && c) := by
    rw [Bool.eq_iff_iff, List.any_eq_true]
    constructor
    · rintro ⟨b, -, hb⟩
      simp only [Bool.and_eq_true, beq_iff_eq] at hb ⊢
      rw [hb.2.1, position_position]
      exact ⟨hb.1, hb.2.2⟩
    · intro h
      simp only [Bool.and_eq_true] at h
      exact ⟨d.position i, List.mem_finRange _, by simp [h, position_position]⟩
  cases k with
  | total =>
    have htotal := hfold .total
    simp only [Slot.isAt, Bool.and_false] at htotal
    rw [if_neg (by simp)] at htotal
    exact congrArg (· + dt * ENERGY_SCALE) htotal
  | digit i =>
    have hdigit := hfold (.digit i)
    have h := hany i true
    simp only [Bool.and_true] at h
    simp only [Slot.isAt, h] at hdigit
    exact hdigit
  | pair i j =>
    have hpair := hfold (.pair i j)
    simp only [Slot.isAt, hany] at hpair
    exact hpair

/-! ## What an interval leaves alone -/

/-- Time base, persistence and digit order. -/
def SameSetup (d d' : Display) : Prop :=
  d'.integratedTo = d.integratedTo ∧ d'.tauCycles = d.tauCycles ∧ d'.bit0IsLeft = d.bit0IsLeft

theorem SameSetup.trans {d d' d'' : Display} (h : SameSetup d d') (h' : SameSetup d' d'') :
    SameSetup d d'' :=
  ⟨by rw [h'.1, h.1], by rw [h'.2.1, h.2.1], by rw [h'.2.2, h.2.2]⟩

theorem SameSetup.stepSize {d d' : Display} (h : SameSetup d d') : d'.stepSize = d.stepSize := by
  rw [Display.stepSize, Display.stepSize, h.2.1]

theorem SameSetup.lit {d d' : Display} (h : SameSetup d d') : d'.lit = d.lit := by
  funext sel seg k
  cases k with
  | total => rfl
  | digit i => rw [Display.lit, Display.lit, position, position, h.2.2]
  | pair i j => rw [Display.lit, Display.lit, position, position, h.2.2]

theorem deposit_setup (d : Display) (dt : U32) (sel seg : U8) :
    SameSetup d (d.deposit dt sel seg) ∧ (d.deposit dt sel seg).decayAcc = d.decayAcc := by
  have hfold : ∀ (bits : List (Fin 6)) (d : Display),
      SameSetup d (bits.foldl (depositBit sel seg dt) d) ∧
        (bits.foldl (depositBit sel seg dt) d).decayAcc = d.decayAcc := by
    intro bits
    induction bits with
    | nil => exact fun d => ⟨⟨rfl, rfl, rfl⟩, rfl⟩
    | cons b bits ih =>
      intro d
      have hbit : SameSetup d (depositBit sel seg dt d b) ∧
          (depositBit sel seg dt d b).decayAcc = d.decayAcc := by
        unfold depositBit
        split
        · exact ⟨⟨rfl, rfl, rfl⟩, rfl⟩
        · exact ⟨⟨rfl, rfl, rfl⟩, rfl⟩
      obtain ⟨hs, ha⟩ := ih (depositBit sel seg dt d b)
      exact ⟨hbit.1.trans hs, ha.trans hbit.2⟩
  exact hfold (List.finRange 6) d

theorem decayLoop_setup (size : U32) (n : ℕ) : ∀ (steps : ℕ) (d : Display),
    SameSetup d (decayLoop size n steps d).2 := by
  induction n with
  | zero => exact fun _ _ => ⟨rfl, rfl, rfl⟩
  | succ n ih =>
    intro steps d
    rw [decayLoop]
    split
    · exact SameSetup.trans ⟨rfl, rfl, rfl⟩ (ih _ _)
    · exact ⟨rfl, rfl, rfl⟩

theorem integrate_setup (d : Display) (dt : U32) (sel seg : U8) :
    SameSetup d (d.integrate dt sel seg) := by
  refine (d.deposit_setup dt sel seg).1.trans ?_
  have hloop := decayLoop_setup (d.deposit dt sel seg).stepSize DECAY_MAX_STEPS 0
    { d.deposit dt sel seg with decayAcc := (d.deposit dt sel seg).decayAcc + dt }
  unfold integrate decay
  dsimp only
  split
  · exact hloop
  · exact hloop

/-! ## Unbounded accumulators -/

/-- The display with unbounded accumulators. -/
def integrator (d : Display) : Integrator Slot where
  cell k := (d.slot k).toNat
  acc := d.decayAcc.toNat

def rate (d : Display) : Rate where
  scale := 256
  c := 64
  period := d.stepSize.toNat
  limit := DECAY_MAX_STEPS

/-- An interval as the integrator sees it. -/
def pulse (d : Display) (iv : Interval) : Pulse Slot where
  dt := iv.dt.toNat
  lit := d.lit iv.sel iv.seg

theorem toNat_leak (x : U32) : (x - x >>> DECAY_SHIFT).toNat = leak 64 x.toNat := by
  have hshift : (x >>> DECAY_SHIFT).toNat = x.toNat / 64 := by
    rw [BitVec.toNat_ushiftRight, Nat.shiftRight_eq_div_pow]
    rfl
  have hle : x >>> DECAY_SHIFT ≤ x := by
    rw [BitVec.le_def, hshift]
    exact Nat.div_le_self _ _
  rw [BitVec.toNat_sub_of_le hle, hshift, leak]

/-- Adding an interval does not overflow. -/
def Fits (d : Display) (dt : U32) : Prop :=
  (∀ k, (d.slot k).toNat + dt.toNat * 256 < 2 ^ 32) ∧ d.decayAcc.toNat + dt.toNat < 2 ^ 32

/-- The display just before its decay loop. -/
def filled (d : Display) (iv : Interval) : Display :=
  { d.deposit iv.dt iv.sel iv.seg with decayAcc := d.decayAcc + iv.dt }

theorem integrator_filled {d : Display} {iv : Interval} (h : d.Fits iv.dt) :
    (d.filled iv).integrator = d.integrator.add d.rate (d.pulse iv) := by
  have hcell (k : Slot) : ((d.filled iv).slot k).toNat =
      if d.lit iv.sel iv.seg k then (d.slot k).toNat + iv.dt.toNat * 256
      else (d.slot k).toNat := by
    have hk := h.1 k
    have hslot : (d.filled iv).slot k = (d.deposit iv.dt iv.sel iv.seg).slot k := by
      cases k
      all_goals rfl
    rw [hslot, slot_deposit]
    split
    · have hscale : (ENERGY_SCALE : U32).toNat = 256 := rfl
      rw [BitVec.toNat_add, BitVec.toNat_mul, hscale, Nat.mod_eq_of_lt (a := _ * 256) (by omega),
        Nat.mod_eq_of_lt hk]
    · rfl
  have hacc : (d.decayAcc + iv.dt).toNat = d.decayAcc.toNat + iv.dt.toNat := by
    rw [BitVec.toNat_add, Nat.mod_eq_of_lt h.2]
  rw [integrator, Integrator.add]
  congr 1
  funext k
  exact hcell k

theorem integrator_decayLoop {p : Rate} (size : U32) (hp : p.period = size.toNat)
    (hc : p.c = 64) (n : ℕ) : ∀ (steps : ℕ) (d : Display),
    (decayLoop size n steps d).1 = (d.integrator.drain p n steps).1 ∧
      (decayLoop size n steps d).2.integrator = (d.integrator.drain p n steps).2 := by
  induction n with
  | zero => exact fun _ _ => ⟨rfl, rfl⟩
  | succ n ih =>
    intro steps d
    have hdecay (hle : size ≤ d.decayAcc) :
        ({ d with decayAcc := d.decayAcc - size } : Display).step.integrator =
          d.integrator.decay p := by
      rw [integrator, Integrator.decay]
      congr 1
      · funext k
        rw [hc]
        cases k
        all_goals exact toNat_leak _
      · rw [hp]
        exact BitVec.toNat_sub_of_le hle
    have hcond : p.period ≤ d.integrator.acc ↔ size ≤ d.decayAcc := by
      rw [hp, BitVec.le_def]
      rfl
    rw [decayLoop, Integrator.drain]
    by_cases hle : size ≤ d.decayAcc
    · rw [if_pos hle, if_pos (hcond.mpr hle), ← hdecay hle]
      exact ih _ _
    · rw [if_neg hle, if_neg (hcond.not.mpr hle)]
      exact ⟨rfl, rfl⟩

/-- **One interval** computes what unbounded accumulators would, if the additions fit. -/
theorem integrator_integrate {d : Display} {iv : Interval} (h : d.Fits iv.dt) :
    (d.integrate iv.dt iv.sel iv.seg).integrator = d.integrator.feed d.rate (d.pulse iv) := by
  obtain ⟨hsetup, hacc⟩ := d.deposit_setup iv.dt iv.sel iv.seg
  have hfilled := integrator_filled h
  obtain ⟨hsteps, hloop⟩ := integrator_decayLoop (p := d.rate) _
    (congrArg BitVec.toNat hsetup.stepSize.symm) rfl DECAY_MAX_STEPS 0 (d.filled iv)
  rw [hfilled] at hsteps hloop
  rw [filled, ← hacc] at hsteps hloop
  rw [integrate, decay, Integrator.feed]
  by_cases hlimit : DECAY_MAX_STEPS ≤ ((d.integrator.add d.rate (d.pulse iv)).drain d.rate
      DECAY_MAX_STEPS 0).1
  · rw [if_pos (hsteps ▸ hlimit)]
    refine Eq.trans ?_ (if_pos hlimit).symm
    rw [integrator, Integrator.dark]
    congr 1
    funext k
    cases k
    all_goals rfl
  · rw [if_neg (hsteps ▸ hlimit), hloop]
    exact (if_neg hlimit).symm

/-! ## Any number of intervals -/

/-- Integrate a list of intervals. -/
def replay (d : Display) (ivs : List Interval) : Display :=
  ivs.foldl (fun d iv => d.integrate iv.dt iv.sel iv.seg) d

theorem replay_setup (d : Display) (ivs : List Interval) : SameSetup d (d.replay ivs) := by
  induction ivs generalizing d with
  | nil => exact ⟨rfl, rfl, rfl⟩
  | cons iv ivs ih => exact (d.integrate_setup _ _ _).trans (ih _)

/-- The remainder is less than a decay step. -/
def Settled (d : Display) : Prop := d.decayAcc < d.stepSize

/-- What holds of a display at the default persistence, between intervals. -/
structure AtDefault (d : Display) : Prop where
  tau : d.tauCycles = 40000
  bounded : d.integrator.Bounded d.rate
  settled : d.Settled

/-- At the default persistence a decay step is due every 625 T states. -/
theorem AtDefault.period {d : Display} (h : d.AtDefault) : d.rate.period = 625 := by
  rw [rate, stepSize, h.tau]
  rfl

theorem AtDefault.acc_lt {d : Display} (h : d.AtDefault) : d.integrator.acc < 625 := by
  rw [← h.period]
  exact h.settled

/-- **Nothing overflows at the default persistence.** -/
theorem AtDefault.fits {d : Display} (h : d.AtDefault) {dt : U32} (hdt : dt.toNat ≤ 2 ^ 20) :
    d.Fits dt := by
  have hacc : d.decayAcc.toNat < 625 := h.acc_lt
  refine ⟨fun k => ?_, by omega⟩
  have hk := h.bounded k
  rw [h.period] at hk
  change (d.slot k).toNat ≤ 64 * (256 * 625) + 256 * d.decayAcc.toNat at hk
  omega

theorem rate_of_setup {d d' : Display} (h : SameSetup d d') : d'.rate = d.rate := by
  rw [rate, rate, h.stepSize]

theorem pulse_of_setup {d d' : Display} (h : SameSetup d d') : d'.pulse = d.pulse := by
  funext iv
  rw [pulse, pulse, h.lit]

theorem AtDefault.integrate {d : Display} (h : d.AtDefault) {iv : Interval}
    (hdt : iv.dt.toNat ≤ 2 ^ 20) : (d.integrate iv.dt iv.sel iv.seg).AtDefault := by
  have hfeed := integrator_integrate (h.fits hdt)
  have hsetup := d.integrate_setup iv.dt iv.sel iv.seg
  refine ⟨by rw [hsetup.2.1, h.tau], ?_, ?_⟩
  · rw [hfeed, rate_of_setup hsetup]
    exact Integrator.bounded_run (by decide : 0 < 64) [d.pulse iv] h.bounded
  · have hlt := Integrator.acc_feed_lt (p := d.rate) (by rw [h.period]; decide) d.integrator
      (d.pulse iv)
    rw [← hfeed] at hlt
    rw [Settled, hsetup.stepSize]
    exact hlt

theorem AtDefault.replay {d : Display} (h : d.AtDefault) {ivs : List Interval}
    (hdt : ∀ iv ∈ ivs, iv.dt.toNat ≤ 2 ^ 20) : (d.replay ivs).AtDefault := by
  induction ivs generalizing d with
  | nil => exact h
  | cons iv ivs ih =>
    exact ih (h.integrate (hdt iv List.mem_cons_self))
      fun iv hiv => hdt iv (List.mem_cons_of_mem _ hiv)

/-- **Over any number of intervals** the display computes, at the default persistence, what
unbounded accumulators would. -/
theorem AtDefault.integrator_replay {d : Display} (h : d.AtDefault) {ivs : List Interval}
    (hdt : ∀ iv ∈ ivs, iv.dt.toNat ≤ 2 ^ 20) :
    (d.replay ivs).integrator = d.integrator.run d.rate (ivs.map d.pulse) := by
  induction ivs generalizing d with
  | nil => rfl
  | cons iv ivs ih =>
    have hiv := hdt iv List.mem_cons_self
    have hsetup := d.integrate_setup iv.dt iv.sel iv.seg
    have hrest := ih (h.integrate hiv) fun iv hiv => hdt iv (List.mem_cons_of_mem _ hiv)
    rw [rate_of_setup hsetup, pulse_of_setup hsetup, integrator_integrate (h.fits hiv)] at hrest
    exact hrest

end Display

end Umk80
