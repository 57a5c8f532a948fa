import Umk80.FadeOut
import Umk80.I8080Output
import Umk80.RunCycles

/-!
# The time base of the display

Time reaches the display in pieces: up to T state 7 of an OUT to a display port, and up to the end
of every instruction. Nothing is lost or counted twice where they meet. As long as the 64-bit
counter of T states does not come round, the display has integrated exactly up to the counter
between any two instructions, each T state with the latches in force during it; and since an
instruction is short, the decay loop never comes to its limit and takes exactly the steps that are
due.

## Main definitions

* `Interval.ticks` — the T states of an interval
* `Machine.latchesAt`, `Machine.timeline` — the latches in force during an instruction
* `Machine.OnTime` — what holds between calls
* `Machine.Exact` — what a run does to the display, T state by T state

## Main results

* `Display.stepsApplied_spec` — short intervals take the decay steps that are due
* `Machine.ticks_execOne` — one instruction
* `Machine.display_clock` — every run
-/

namespace Umk80

open Interaction

/-- The T states of an interval, each with the digits and the segments selected. -/
def Interval.ticks (iv : Interval) : List (U8 × U8) :=
  List.replicate iv.dt.toNat (iv.sel, iv.seg)

namespace Display

/-! ## Decay steps -/

/-- The decay period is `tau / 64`, and at least one T state. -/
theorem toNat_stepSize (d : Display) : d.stepSize.toNat = max 1 (d.tauCycles.toNat / 64) := by
  have hshift : (d.tauCycles >>> DECAY_SHIFT).toNat = d.tauCycles.toNat / 64 := by
    rw [BitVec.toNat_ushiftRight, Nat.shiftRight_eq_div_pow]
    rfl
  rw [← hshift, stepSize]
  split
  · rename_i h
    rw [h]
    rfl
  · rename_i h
    have hpos : (d.tauCycles >>> DECAY_SHIFT).toNat ≠ 0 := fun h0 => h (BitVec.eq_of_toNat_eq h0)
    omega

theorem settled_add {d : Display} (h : d.Settled) {dt : U32} (hdt : dt.toNat ≤ 18) :
    (d.decayAcc + dt).toNat = d.decayAcc.toNat + dt.toNat := by
  have hlt : d.decayAcc.toNat < d.stepSize.toNat := h
  have hsize := d.toNat_stepSize
  have htau := d.tauCycles.isLt
  rw [BitVec.toNat_add]
  exact Nat.mod_eq_of_lt (by omega)

/-- **Short intervals** take the decay steps that are due, and no interval ends in a blackout. -/
theorem stepsApplied_spec {d : Display} (h : d.Settled) {ivs : List Interval}
    (hshort : ∀ iv ∈ ivs, iv.dt.toNat ≤ 18) :
    d.stepsApplied ivs * d.stepSize.toNat + (d.replay ivs).decayAcc.toNat =
      d.decayAcc.toNat + (ivs.flatMap Interval.ticks).length ∧
    ∀ before iv after, ivs = before ++ iv :: after →
      (d.replay before).decaySteps iv < DECAY_MAX_STEPS := by
  induction ivs generalizing d with
  | nil =>
    refine ⟨by simp [stepsApplied, replay], ?_⟩
    intro before iv after heq
    exact absurd heq.symm (List.append_ne_nil_of_right_ne_nil _ (List.cons_ne_nil _ _))
  | cons iv ivs ih =>
    have hdt := hshort iv List.mem_cons_self
    have hlt : d.decayAcc.toNat < d.stepSize.toNat := h
    have hsum := settled_add h hdt
    have hsmall : (d.decayAcc + iv.dt).toNat < DECAY_MAX_STEPS * d.stepSize.toNat := by
      rw [hsum, DECAY_MAX_STEPS]
      omega
    obtain ⟨hfew, -, hsteps⟩ := integrate_small hsmall
    obtain ⟨ihsteps, ihfew⟩ := ih (d.settled_integrate iv)
      fun iv' hiv' => hshort iv' (List.mem_cons_of_mem _ hiv')
    rw [(d.integrate_setup _ _ _).stepSize] at ihsteps
    refine ⟨?_, ?_⟩
    · have htail : d.replay (iv :: ivs) = (d.integrate iv.dt iv.sel iv.seg).replay ivs := rfl
      rw [stepsApplied, Nat.add_mul, htail, List.flatMap_cons, List.length_append,
        Interval.ticks, List.length_replicate]
      omega
    · rintro (_ | ⟨iv₀, before⟩) iv' after heq
      · obtain ⟨rfl, -⟩ := List.cons.inj heq
        exact hfew
      · obtain ⟨rfl, hrest⟩ := List.cons.inj heq
        exact ihfew before iv' after hrest

/-! ## One piece of time -/

section Piece

variable {d : Display} {t : U64} {c : ℕ}

/-- A few T states after the time base, as long as the counter does not come round. -/
theorem lt_add_ofNat (hpos : 0 < c) (hc : c ≤ 18) (hwrap : t.toNat + c < 2 ^ 64) :
    t < t + BitVec.ofNat 64 c ∧ t + BitVec.ofNat 64 c - t = BitVec.ofNat 64 c := by
  constructor
  · rw [BitVec.lt_def, BitVec.toNat_add, BitVec.toNat_ofNat]
    omega
  · rw [BitVec.add_comm, BitVec.add_sub_cancel]

theorem intervalsTo_add (h : d.integratedTo = t) (hpos : 0 < c) (hc : c ≤ 18)
    (hwrap : t.toNat + c < 2 ^ 64) (outA outB : U8) :
    d.intervalsTo outA outB (t + BitVec.ofNat 64 c) =
      [⟨BitVec.ofNat 32 c, outA &&& 0x3F, outB⟩] := by
  obtain ⟨hlt, hdelta⟩ := lt_add_ofNat hpos hc hwrap
  have hshort : ¬ (0x00100000 : U64) < BitVec.ofNat 64 c := by
    rw [BitVec.lt_def, BitVec.toNat_ofNat]
    change ¬ 0x00100000 < c % 2 ^ 64
    omega
  have hsmall : (BitVec.ofNat 64 c).setWidth 32 = BitVec.ofNat 32 c := by
    refine BitVec.eq_of_toNat_eq ?_
    rw [BitVec.toNat_setWidth, BitVec.toNat_ofNat, BitVec.toNat_ofNat]
    omega
  rw [intervalsTo, h, if_neg (BitVec.not_le.mpr hlt), hdelta, interval, if_neg hshort, hsmall]

theorem integratedTo_add (h : d.integratedTo = t) (hpos : 0 < c) (hc : c ≤ 18)
    (hwrap : t.toNat + c < 2 ^ 64) (outA outB : U8) :
    (d.advance outA outB (t + BitVec.ofNat 64 c)).integratedTo = t + BitVec.ofNat 64 c := by
  rw [integratedTo_advance, h]
  exact if_neg (BitVec.not_le.mpr (lt_add_ofNat hpos hc hwrap).1)

end Piece

end Display

/-- An OUT to another port leaves the latches of the displays alone. -/
theorem Chips.latches_busOut {b : Chips} {port : U8} (val : U8)
    (h : ¬ (port = PORT_A ∨ port = PORT_B ∨ port = PORT_CTRL)) :
    (b.busOut port val).ppi.outA = b.ppi.outA ∧ (b.busOut port val).ppi.outB = b.ppi.outB := by
  obtain ⟨ha, hb, hctrl⟩ : port ≠ PORT_A ∧ port ≠ PORT_B ∧ port ≠ PORT_CTRL := by
    simpa only [not_or] using h
  rw [busOut, if_neg ha, if_neg hb, if_neg hctrl]
  by_cases hc : port = PORT_C
  · rw [if_pos hc]
    dsimp only
    split_ifs
    all_goals exact ⟨rfl, rfl⟩
  · rw [if_neg hc]
    by_cases hdbg : port = PORT_DBG
    · rw [if_pos hdbg]
      exact ⟨rfl, rfl⟩
    · rw [if_neg hdbg]
      exact ⟨rfl, rfl⟩

namespace Machine

/-! ## One instruction -/

/-- The digits and the segments that the latches of the ВВ55 select. -/
def latches (m : Machine) : U8 × U8 := (m.ppi.outA &&& 0x3F, m.ppi.outB)

/-- The latches in force during T state `t` of the next instruction: what it writes to them takes
effect at T state 7. -/
def latchesAt (m : Machine) (t : ℕ) : U8 × U8 := if t < 7 then m.latches else m.execOne.2.latches

/-- The latches in force during the next instruction, T state by T state. -/
def timeline (m : Machine) : List (U8 × U8) := (List.range m.execOne.1).map m.latchesAt

/-- Nothing has been written to a port since the instruction started. -/
structure Unwritten (m : Machine) (x : Board × List Interval) : Prop where
  start : x.1.stepStartCycles = m.cpu.cycles
  display : x.1.display = m.display
  ppi : x.1.ppi = m.ppi
  record : x.2 = []

theorem Unwritten.recordHandler {m : Machine} {x : Board × List Interval} (h : m.Unwritten x)
    {o : BusOp} (ho : o.isOutput = false) : m.Unwritten (recordHandler o x).2 := by
  have hrecord : x.2 ++ [] = [] := by rw [List.append_nil, h.record]
  cases o with
  | read addr st => exact ⟨h.start, h.display, h.ppi, hrecord⟩
  | write addr val st =>
    have hchips := x.1.toChips_poke addr val
    refine ⟨?_, ?_, ?_, hrecord⟩
    · simp [Umk80.recordHandler, busHandler, hchips, h.start]
    · simp [Umk80.recordHandler, busHandler, hchips, h.display]
    · simp [Umk80.recordHandler, busHandler, hchips, h.ppi]
  | input port => exact ⟨h.start, h.display, h.ppi, hrecord⟩
  | output port val => exact absurd ho.symm Bool.false_ne_true

theorem Unwritten.foldl {m : Machine} {x : Board × List Interval} (h : m.Unwritten x)
    {es : List BusEvent} (hes : ∀ e ∈ es, e.1.isOutput = false) :
    m.Unwritten (es.foldl (fun x e => (Umk80.recordHandler e.1 x).2) x) := by
  induction es generalizing x with
  | nil => exact h
  | cons e es ih =>
    exact ih (h.recordHandler (hes e List.mem_cons_self))
      fun e' he' => hes e' (List.mem_cons_of_mem _ he')

/-- The board and the record when the calls of the next instruction have been made. -/
def written (m : Machine) : Board × List Interval :=
  ((I8080.step.run m.cpu).run recordHandler (m.started, [])).2

theorem written_eq (m : Machine) : m.Unwritten m.written ∨ m.execOne.1 = 10 ∧
    ∃ x port val, m.Unwritten x ∧ m.written = (recordHandler (.output port val) x).2 := by
  have hout := I8080.outLast_step recordHandler (m.cpu, (m.started, []))
  have hcost : (I8080.stepResult recordHandler (m.cpu, (m.started, []))).1 = m.execOne.1 :=
    congrArg Prod.fst m.run_recordHandler.1
  have hstart : m.Unwritten (m.started, []) := ⟨rfl, rfl, rfl, rfl⟩
  have hwritten : m.written = (I8080.stepCalls recordHandler (m.cpu, (m.started, []))).foldl
      (fun x e => (recordHandler e.1 x).2) (m.started, []) := Prog.run_eq_foldl _ _ _
  rw [hcost] at hout
  rw [hwritten]
  rcases hout with hquiet | ⟨hcyc, before, port, val, hes, hquiet⟩
  · exact Or.inl (hstart.foldl hquiet)
  · refine Or.inr ⟨hcyc, _, port, val, hstart.foldl hquiet, ?_⟩
    rw [hes, List.foldl_append]
    rfl

/-- An instruction writes to a display port in 10 T states, or it leaves the latches and what the
display has integrated alone. -/
theorem written_cases (m : Machine) :
    (m.written.2 = [] ∧ m.written.1.display = m.display ∧
      m.written.1.ppi.outA = m.ppi.outA ∧ m.written.1.ppi.outB = m.ppi.outB) ∨
    m.execOne.1 = 10 ∧
      m.written.2 =
        m.display.intervalsTo m.ppi.outA m.ppi.outB (m.cpu.cycles + OUT_WRITE_OFFSET) ∧
      m.written.1.display =
        m.display.advance m.ppi.outA m.ppi.outB (m.cpu.cycles + OUT_WRITE_OFFSET) := by
  rcases m.written_eq with h | ⟨hcost, x, port, val, h, hwritten⟩
  · exact Or.inl ⟨h.record, h.display, congrArg Ppi.outA h.ppi, congrArg Ppi.outB h.ppi⟩
  · rw [hwritten]
    have hdisp := x.1.toChips.display_busOut port val
    rw [h.display, h.ppi, h.start] at hdisp
    by_cases hport : port = PORT_A ∨ port = PORT_B ∨ port = PORT_CTRL
    · rw [if_pos hport] at hdisp
      refine Or.inr ⟨hcost, ?_, hdisp⟩
      simp only [Umk80.recordHandler, busIntervals, if_pos hport, h.record, h.display, h.ppi,
        h.start, List.nil_append]
    · rw [if_neg hport] at hdisp
      obtain ⟨ha, hb⟩ := Chips.latches_busOut (b := x.1.toChips) val hport
      rw [h.ppi] at ha hb
      refine Or.inl ⟨?_, hdisp, ha, hb⟩
      simp only [Umk80.recordHandler, busIntervals, if_neg hport, h.record, List.nil_append]

/-- What the instruction feeds the display after its bus calls. -/
theorem intervals_eq (m : Machine) : m.intervals = m.written.2 ++
    m.written.1.display.intervalsTo m.written.1.ppi.outA m.written.1.ppi.outB
      (m.cpu.cycles + BitVec.ofNat 64 m.execOne.1) := by
  have hcycles : ((I8080.step.run m.cpu).run recordHandler (m.started, [])).1.2.cycles =
      m.cpu.cycles + BitVec.ofNat 64 m.execOne.1 := by
    rw [m.run_recordHandler.1]
    exact m.cost_execOne.2
  rw [intervals, ← hcycles]
  rfl

theorem execOne_written (m : Machine) :
    m.execOne.2.latches = (m.written.1.ppi.outA &&& 0x3F, m.written.1.ppi.outB) ∧
      m.execOne.2.display = m.written.1.display.advance m.written.1.ppi.outA m.written.1.ppi.outB
        (m.cpu.cycles + BitVec.ofNat 64 m.execOne.1) := by
  have hboard : m.written.1 = m.cpuRun.2 := m.run_recordHandler.2
  rw [hboard, ← m.cost_execOne.2]
  exact ⟨rfl, rfl⟩

theorem timeline_of_latches {m : Machine} (h : m.execOne.2.latches = m.latches) :
    m.timeline = List.replicate m.execOne.1 m.latches := by
  have hconst (t : ℕ) : m.latchesAt t = m.latches := by
    rw [latchesAt, h, ite_self]
  rw [timeline, funext hconst, List.map_const', List.length_range]

/-- **Every T state of an instruction** is integrated once, with the latches in force, and no
other. -/
theorem ticks_execOne {m : Machine} (hclock : m.display.integratedTo = m.cpu.cycles)
    (hwrap : m.cpu.cycles.toNat + m.execOne.1 < 2 ^ 64) :
    m.intervals.flatMap Interval.ticks = m.timeline ∧
      m.execOne.2.display.integratedTo = m.execOne.2.cpu.cycles := by
  obtain ⟨⟨hfour, hle⟩, hcycles⟩ := m.cost_execOne
  obtain ⟨hlatches, hdisp⟩ := m.execOne_written
  have hticks {c : ℕ} (hc : c ≤ 18) : (BitVec.ofNat 32 c).toNat = c := by
    rw [BitVec.toNat_ofNat]
    omega
  rw [hcycles, hdisp, m.intervals_eq]
  rcases m.written_cases with ⟨hrecord, hsame, ha, hb⟩ | ⟨hcost, hrecord, hadvance⟩
  · rw [hsame]
    refine ⟨?_, Display.integratedTo_add hclock (by omega) hle hwrap _ _⟩
    have hkept : m.execOne.2.latches = m.latches := by rw [hlatches, ha, hb, latches]
    rw [hrecord, List.nil_append, Display.intervalsTo_add hclock (by omega) hle hwrap,
      List.flatMap_singleton, Interval.ticks, hticks hle, timeline_of_latches hkept, ha, hb,
      latches]
  · -- 7 T states with the old latches, and 3 with the new ones
    have hwrite : (OUT_WRITE_OFFSET : U64) = BitVec.ofNat 64 7 := rfl
    have hsplit : m.cpu.cycles + BitVec.ofNat 64 10 =
        m.cpu.cycles + BitVec.ofNat 64 7 + BitVec.ofNat 64 3 := by
      rw [BitVec.add_assoc]
      rfl
    have hseven : (m.cpu.cycles + BitVec.ofNat 64 7).toNat = m.cpu.cycles.toNat + 7 := by
      rw [BitVec.toNat_add, BitVec.toNat_ofNat]
      omega
    rw [hcost] at hwrap ⊢
    rw [hwrite] at hrecord hadvance
    have hfirst := Display.integratedTo_add hclock (c := 7) (by decide) (by decide) (by omega)
      m.ppi.outA m.ppi.outB
    rw [← hadvance] at hfirst
    rw [hsplit]
    refine ⟨?_, Display.integratedTo_add hfirst (by decide) (by decide) (by omega) _ _⟩
    have htimeline :
        m.timeline = List.replicate 7 m.latches ++ List.replicate 3 m.execOne.2.latches := by
      rw [timeline, hcost]
      rfl
    rw [hrecord, Display.intervalsTo_add hclock (by decide) (by decide) (by omega),
      Display.intervalsTo_add hfirst (by decide) (by decide) (by omega), htimeline, hlatches,
      latches, List.singleton_append, List.flatMap_cons, List.flatMap_singleton]
    rfl

/-! ## Runs -/

/-- The T states that instructions take. -/
def states : List Machine → ℕ
  | [] => 0
  | m :: ms => m.execOne.1 + states ms

/-- The counter of T states does not come round in a run. -/
def Unwrapped (fuel : ℕ) (m : Machine) (cs : List Call) : Prop :=
  ∀ m₁ ∈ m.executionsAll fuel cs, m₁.cpu.cycles.toNat + m₁.execOne.1 < 2 ^ 64

/-- What holds of the display between calls. -/
structure OnTime (m : Machine) : Prop where
  remainder : m.display.decayAcc.toNat < max 1 (m.display.tauCycles.toNat / 64)
  upToDate : m.display.integratedTo = m.cpu.cycles

/-- What instructions feed the display on the way from `m` to `m'`. -/
structure Integrated (m : Machine) (ms : List Machine) (m' : Machine) : Prop where
  display : m'.display = (m.display.replay (ms.flatMap intervals)).withIntegratedTo m'.cpu.cycles
  elapsed : m'.cpu.cycles.toNat = m.cpu.cycles.toNat + states ms
  /-- Every T state once, with the latches in force. -/
  ticks : (ms.flatMap intervals).flatMap Interval.ticks = ms.flatMap timeline
  short : ∀ iv ∈ ms.flatMap intervals, iv.dt.toNat ≤ 18

/-- What a run does to the display, `p` being the decay period. -/
structure Exact (m : Machine) (ms : List Machine) (m' : Machine) (p : ℕ) : Prop
    extends Integrated m ms m' where
  steps : m.display.stepsApplied (ms.flatMap intervals) =
    (m.display.decayAcc.toNat + states ms) / p
  remainder : m'.display.decayAcc.toNat = (m.display.decayAcc.toNat + states ms) % p
  noBlackout : ∀ before iv after, ms.flatMap intervals = before ++ iv :: after →
    (m.display.replay before).decaySteps iv < DECAY_MAX_STEPS

theorem states_append (ms ms' : List Machine) : states (ms ++ ms') = states ms + states ms' := by
  induction ms with
  | nil => exact (Nat.zero_add _).symm
  | cons m ms ih => rw [List.cons_append, states, states, ih, Nat.add_assoc]

theorem length_timelines (ms : List Machine) : (ms.flatMap timeline).length = states ms := by
  induction ms with
  | nil => rfl
  | cons m ms ih =>
    rw [List.flatMap_cons, List.length_append, ih, timeline, List.length_map, List.length_range,
      states]

variable {m m' : Machine} {ms : List Machine}

theorem OnTime.settled (h : m.OnTime) : m.display.Settled := by
  rw [Display.Settled, BitVec.lt_def, m.display.toNat_stepSize]
  exact h.remainder

theorem onTime_of_settled (h : m.display.Settled) (hclock : m.display.integratedTo = m.cpu.cycles) :
    m.OnTime := by
  rw [Display.Settled, BitVec.lt_def, m.display.toNat_stepSize] at h
  exact ⟨h, hclock⟩

theorem Integrated.execOne (h : Integrated m ms m')
    (hwrap : m'.cpu.cycles.toNat + m'.execOne.1 < 2 ^ 64) :
    Integrated m (ms ++ [m']) m'.execOne.2 := by
  have hclock : m'.display.integratedTo = m'.cpu.cycles := by
    rw [h.display]
    rfl
  obtain ⟨hticks, hend⟩ := ticks_execOne hclock hwrap
  obtain ⟨-, hshort, t, hdisp⟩ := display_execOne (m := m') (BitVec.le_of_eq hclock.symm)
  have ht : t = m'.execOne.2.cpu.cycles := by
    rw [← hend, hdisp]
    rfl
  have hivs : (ms ++ [m']).flatMap intervals = ms.flatMap intervals ++ m'.intervals := by
    rw [List.flatMap_append, List.flatMap_singleton]
  refine ⟨?_, ?_, ?_, ?_⟩
  · rw [hdisp, ht, hivs, Display.replay_append, h.display, Display.replay_withIntegratedTo]
    rfl
  · rw [m'.cost_execOne.2, BitVec.toNat_add, BitVec.toNat_ofNat, states_append, states, states,
      Nat.add_zero, ← Nat.add_assoc, ← h.elapsed]
    omega
  · rw [hivs, List.flatMap_append, List.flatMap_append, List.flatMap_singleton, h.ticks, hticks]
  · rw [hivs]
    intro iv hiv
    rcases List.mem_append.mp hiv with hiv | hiv
    · exact h.short iv hiv
    · exact (hshort iv hiv).2

theorem integrated_nil (hclock : m.display.integratedTo = m.cpu.cycles) : Integrated m [] m := by
  refine ⟨?_, rfl, rfl, fun _ h => absurd h List.not_mem_nil⟩
  rw [← hclock]
  rfl

theorem Integrated.of_sameTime {m₁ : Machine} (h : Integrated m ms m') (hsame : SameTime m' m₁) :
    Integrated m ms m₁ := by
  refine ⟨?_, ?_, h.ticks, h.short⟩
  · rw [hsame.display, hsame.cycles]
    exact h.display
  · rw [hsame.cycles]
    exact h.elapsed

theorem integrated_through (h : Through m ms m') (hclock : m.display.integratedTo = m.cpu.cycles)
    (hwrap : ∀ m₁ ∈ ms, m₁.cpu.cycles.toNat + m₁.execOne.1 < 2 ^ 64) : Integrated m ms m' :=
  h.inv (P := fun l m' => Integrated m l m') (l := []) (fun hsame h => h.of_sameTime hsame)
    (fun _ m₁ hm₁ h => h.execOne (hwrap m₁ hm₁)) (integrated_nil hclock)

theorem Integrated.exact (h : Integrated m ms m') (hm : m.OnTime) :
    Exact m ms m' (max 1 (m.display.tauCycles.toNat / 64)) := by
  obtain ⟨hsteps, hfew⟩ := Display.stepsApplied_spec hm.settled h.short
  have hleft :
      (m.display.replay (ms.flatMap intervals)).decayAcc.toNat < m.display.stepSize.toNat := by
    have hsettled := Display.settled_replay hm.settled (ms.flatMap intervals)
    rw [Display.Settled, (m.display.replay_setup _).stepSize] at hsettled
    exact hsettled
  have hacc : m'.display.decayAcc = (m.display.replay (ms.flatMap intervals)).decayAcc := by
    rw [h.display]
    rfl
  rw [h.ticks, length_timelines] at hsteps
  rw [← m.display.toNat_stepSize]
  rw [Nat.add_comm, Nat.mul_comm] at hsteps
  obtain ⟨hdiv, hmod⟩ := (Nat.div_mod_unique m.display.stepSize_pos).mpr ⟨hsteps, hleft⟩
  refine ⟨h, hdiv.symm, ?_, hfew⟩
  rw [hacc]
  exact hmod.symm

theorem Integrated.onTime (h : Integrated m ms m') (hm : m.OnTime) : m'.OnTime := by
  refine onTime_of_settled ?_ ?_
  · rw [h.display]
    exact Display.settled_replay hm.settled (ms.flatMap intervals)
  · rw [h.display]
    rfl

theorem OnTime.call {fuel : ℕ} {c : Call} (h : m.OnTime) (hcall : m.call fuel c = some m')
    (hwrap : ∀ m₁ ∈ m.executions fuel c, m₁.cpu.cycles.toNat + m₁.execOne.1 < 2 ^ 64) :
    m'.OnTime := by
  rcases call_display hcall with ⟨-, hthrough⟩ | ⟨d, -, hdisp⟩ | ⟨tau, -, rfl⟩
  · exact (integrated_through hthrough h.upToDate hwrap).onTime h
  · refine onTime_of_settled (Display.settled_of_zero ?_) ?_
    · rw [hdisp]
      rfl
    · rw [hdisp]
      rfl
  · exact onTime_of_settled (Display.settled_of_zero rfl) h.upToDate

theorem onTime_calls {fuel : ℕ} {cs : List Call} (h : m.OnTime) (hrun : m.calls fuel cs = some m')
    (hwrap : m.Unwrapped fuel cs) : m'.OnTime := by
  induction cs generalizing m with
  | nil =>
    cases hrun
    exact h
  | cons c cs ih =>
    obtain ⟨m₁, hcall, hrest⟩ := Option.bind_eq_some_iff.mp hrun
    rw [Unwrapped, executionsAll_cons hcall] at hwrap
    exact ih (h.call hcall fun m₂ h₂ => hwrap m₂ (List.mem_append_left _ h₂)) hrest
      fun m₂ h₂ => hwrap m₂ (List.mem_append_right _ h₂)

/-- **The time base of the display is exact.** Between the calls of every run the remainder is
less than a decay period and the display is up to date. From there on every run that leaves the
accumulators and the persistence alone takes exactly the decay steps that are due and integrates
every T state once, with the latches in force. -/
theorem display_clock (rev : Rev) (fuel : ℕ) (cs : List Call) (m : Machine)
    (hm : (init rev).calls fuel cs = some m) (hcount : (init rev).Unwrapped fuel cs) :
    m.OnTime ∧ ∀ (fuel' : ℕ) (run : List Call) (m' : Machine),
      (∀ c ∈ run, c.keepsDisplay = true) → m.calls fuel' run = some m' → m.Unwrapped fuel' run →
        m.Exact (m.executionsAll fuel' run) m' (max 1 (m.display.tauCycles.toNat / 64)) := by
  have hinit : (init rev).OnTime := ⟨(by decide : 0 < max 1 (40000 / 64)), rfl⟩
  have hontime := onTime_calls hinit hm hcount
  refine ⟨hontime, fun fuel' run m' hrun hm' hcount' => ?_⟩
  exact (integrated_through (through_calls hrun hm') hontime.upToDate hcount').exact hontime

/-- `MVI A,89H; OUT 0FBH; OUT 0F8H; HLT`, and an idle cycle. -/
def outAndHalt : List Call :=
  [.loadRom 0 [0x3E, 0x89, 0xD3, 0xFB, 0xD3, 0xF8, 0x76], .stepInstruction, .stepInstruction,
    .stepInstruction, .runCycles 8]

theorem display_clock_outAndHalt : ∃ m', (init .rev1).calls 9 outAndHalt = some m' ∧
    (init .rev1).Exact ((init .rev1).executionsAll 9 outAndHalt) m'
      (max 1 ((init .rev1).display.tauCycles.toNat / 64)) := by
  have hrun : ((init .rev1).calls 9 outAndHalt).isSome = true := by decide +kernel
  have hcount : ∀ m₁ ∈ (init .rev1).executionsAll 9 outAndHalt,
      m₁.cpu.cycles.toNat + m₁.execOne.1 < 2 ^ 64 := by
    decide +kernel
  obtain ⟨m', hm'⟩ := Option.isSome_iff_exists.mp hrun
  exact ⟨m', hm', (display_clock .rev1 9 [] (init .rev1) rfl
    fun _ h => absurd h List.not_mem_nil).2 9 outAndHalt m' (by decide) hm' hcount⟩

end Machine

end Umk80
