import Umk80.DisplayIntegrator
import Umk80.Executions
import Umk80.I8080Cost

/-!
# What the display has integrated

A run of the machine feeds its display a list of intervals: one up to each OUT to a display port,
at the T state where the port changes, and one up to the end of each instruction. They are
recorded here next to the run, from the last time the accumulators were cleared. The display is
then a function of the record, and the record has no interval longer than an instruction.

## Main definitions

* `Machine.intervals` — what one instruction feeds the display
* `Machine.recordAll` — a run together with what it has fed the display since the last clear

## Main results

* `Machine.display_execOne` — the display after an instruction
* `Machine.recorded_recordAll` — the display of a run is that of its record
-/

namespace Umk80

open Interaction WhileLoop

/-! ## The clock of the display -/

namespace Display

/-- The display with another time base. -/
def withIntegratedTo (t : U64) (d : Display) : Display := { d with integratedTo := t }

theorem deposit_withIntegratedTo (t : U64) (d : Display) (dt : U32) (sel seg : U8) :
    (d.withIntegratedTo t).deposit dt sel seg = (d.deposit dt sel seg).withIntegratedTo t := by
  have hfold : ∀ (bits : List (Fin 6)) (d : Display),
      bits.foldl (depositBit sel seg dt) (d.withIntegratedTo t) =
        (bits.foldl (depositBit sel seg dt) d).withIntegratedTo t := by
    intro bits
    induction bits with
    | nil => exact fun d => rfl
    | cons b bits ih =>
      intro d
      have hbit : depositBit sel seg dt (d.withIntegratedTo t) b =
          (depositBit sel seg dt d b).withIntegratedTo t := by
        unfold depositBit
        split
        · rfl
        · rfl
      rw [List.foldl_cons, hbit, ih, List.foldl_cons]
  have h := hfold (List.finRange 6) d
  exact congrArg (fun d' : Display => { d' with total := d'.total + dt * ENERGY_SCALE }) h

theorem decayLoop_withIntegratedTo (t : U64) (size : U32) (n : ℕ) : ∀ (steps : ℕ) (d : Display),
    decayLoop size n steps (d.withIntegratedTo t) =
      ((decayLoop size n steps d).1, (decayLoop size n steps d).2.withIntegratedTo t) := by
  induction n with
  | zero => exact fun _ _ => rfl
  | succ n ih =>
    intro steps d
    rw [decayLoop, decayLoop]
    by_cases h : size ≤ d.decayAcc
    · rw [if_pos h]
      rw [if_pos (show size ≤ (d.withIntegratedTo t).decayAcc from h)]
      exact ih (steps + 1) ({ d with decayAcc := d.decayAcc - size } : Display).step
    · rw [if_neg h]
      exact if_neg (show ¬ size ≤ (d.withIntegratedTo t).decayAcc from h)

/-- What `decay` makes of the result of its loop. -/
def afterLoop (r : ℕ × Display) : Display :=
  if DECAY_MAX_STEPS ≤ r.1 then r.2.blackout else r.2

theorem afterLoop_withIntegratedTo (t : U64) (r : ℕ × Display) :
    afterLoop (r.1, r.2.withIntegratedTo t) = (afterLoop r).withIntegratedTo t := by
  unfold afterLoop
  split
  · rfl
  · rfl

theorem decay_withIntegratedTo (t : U64) (d : Display) (dt : U32) :
    (d.withIntegratedTo t).decay dt = (d.decay dt).withIntegratedTo t := by
  have hloop := decayLoop_withIntegratedTo t d.stepSize DECAY_MAX_STEPS 0
    { d with decayAcc := d.decayAcc + dt }
  have hdecay : (d.withIntegratedTo t).decay dt = afterLoop (decayLoop d.stepSize DECAY_MAX_STEPS 0
      (({ d with decayAcc := d.decayAcc + dt } : Display).withIntegratedTo t)) := rfl
  rw [hdecay, hloop, afterLoop_withIntegratedTo]
  rfl

/-- An interval does not look at the time base. -/
theorem integrate_withIntegratedTo (t : U64) (d : Display) (dt : U32) (sel seg : U8) :
    (d.withIntegratedTo t).integrate dt sel seg = (d.integrate dt sel seg).withIntegratedTo t := by
  rw [integrate, deposit_withIntegratedTo, decay_withIntegratedTo, integrate]

theorem replay_withIntegratedTo (t : U64) (d : Display) (ivs : List Interval) :
    (d.withIntegratedTo t).replay ivs = (d.replay ivs).withIntegratedTo t := by
  induction ivs generalizing d with
  | nil => rfl
  | cons iv ivs ih =>
    rw [replay, List.foldl_cons, integrate_withIntegratedTo]
    exact ih _

theorem replay_append (d : Display) (ivs ivs' : List Interval) :
    d.replay (ivs ++ ivs') = (d.replay ivs).replay ivs' :=
  List.foldl_append

/-- What `advance` integrates: nothing, or one interval. -/
def intervalsTo (d : Display) (outA outB : U8) (toCycle : U64) : List Interval :=
  if toCycle ≤ d.integratedTo then []
  else [⟨interval (toCycle - d.integratedTo), outA &&& 0x3F, outB⟩]

/-- **`display_advance`** replays its interval and moves the time base. -/
theorem advance_eq (d : Display) (outA outB : U8) (toCycle : U64) :
    ∃ t, d.advance outA outB toCycle =
      (d.replay (d.intervalsTo outA outB toCycle)).withIntegratedTo t := by
  unfold advance intervalsTo
  split
  · exact ⟨d.integratedTo, rfl⟩
  · exact ⟨toCycle, integrate_withIntegratedTo toCycle d _ _ _⟩

/-- Afterwards the time base has reached the T state asked for. -/
theorem integratedTo_advance (d : Display) (outA outB : U8) (toCycle : U64) :
    (d.advance outA outB toCycle).integratedTo =
      if toCycle ≤ d.integratedTo then d.integratedTo else toCycle := by
  unfold advance
  split
  · rfl
  · exact (integrate_setup _ _ _ _).1

/-- An advance by at most 18 T states from before the time base gives intervals of 1 to 18. -/
theorem dt_intervalsTo {d : Display} {outA outB : U8} {start : U64} {c : ℕ} (hc : c ≤ 18)
    (hstart : start ≤ d.integratedTo) :
    ∀ iv ∈ d.intervalsTo outA outB (start + BitVec.ofNat 64 c),
      0 < iv.dt.toNat ∧ iv.dt.toNat ≤ 18 := by
  intro iv hiv
  unfold intervalsTo at hiv
  split at hiv
  · exact absurd hiv List.not_mem_nil
  · rw [List.mem_singleton.mp hiv]
    have hdelta : 0 < (start + BitVec.ofNat 64 c - d.integratedTo).toNat ∧
        (start + BitVec.ofNat 64 c - d.integratedTo).toNat ≤ 18 := by
      bv_omega
    generalize start + BitVec.ofNat 64 c - d.integratedTo = delta at hdelta
    have hshort : ¬ (0x00100000 : U64) < delta := by bv_omega
    rw [interval, if_neg hshort, BitVec.toNat_setWidth]
    omega

end Display

/-! ## The intervals of an instruction -/

/-- What a callback feeds the display: an OUT to a display port integrates up to its write. -/
def busIntervals : BusOp → Board → List Interval
  | .output port _, b =>
    if port = PORT_A ∨ port = PORT_B ∨ port = PORT_CTRL then
      b.display.intervalsTo b.ppi.outA b.ppi.outB (b.stepStartCycles + OUT_WRITE_OFFSET)
    else []
  | _, _ => []

/-- The bus, recording what its callbacks feed the display. -/
def recordHandler : Handler BusOp BusOp.Ans (Board × List Interval) := fun o x =>
  ((busHandler o x.1).1, (busHandler o x.1).2, x.2 ++ busIntervals o x.1)

/-- An OUT integrates its intervals and then changes a port. -/
theorem Chips.display_busOut (b : Chips) (port val : U8) :
    (b.busOut port val).display =
      if port = PORT_A ∨ port = PORT_B ∨ port = PORT_CTRL then
        b.display.advance b.ppi.outA b.ppi.outB (b.stepStartCycles + OUT_WRITE_OFFSET)
      else b.display := by
  unfold busOut
  by_cases ha : port = PORT_A
  · rw [if_pos ha, if_pos (Or.inl ha)]
    dsimp only
    split
    · rfl
    · rfl
  by_cases hb : port = PORT_B
  · rw [if_neg ha, if_pos hb, if_pos (Or.inr (Or.inl hb))]
    dsimp only
    split
    · rfl
    · rfl
  by_cases hctrl : port = PORT_CTRL
  · have hc : port ≠ PORT_C := by
      rw [hctrl]
      decide
    rw [if_neg ha, if_neg hb, if_neg hc, if_pos hctrl, if_pos (Or.inr (Or.inr hctrl))]
    rfl
  · have hnone : ¬ (port = PORT_A ∨ port = PORT_B ∨ port = PORT_CTRL) := by
      rintro (h | h | h)
      · exact ha h
      · exact hb h
      · exact hctrl h
    rw [if_neg ha, if_neg hb, if_neg hctrl, if_neg hnone]
    split
    · rfl
    · split
      · rfl
      · rfl

/-- What holds in the middle of an instruction that started with the display `d` at T state
`start`, with the record so far. -/
structure Feeding (d : Display) (start : U64) (x : Board × List Interval) : Prop where
  started : x.1.stepStartCycles = start
  clock : start ≤ x.1.display.integratedTo
  short : ∀ iv ∈ x.2, 0 < iv.dt.toNat ∧ iv.dt.toNat ≤ 18
  replays : ∃ t, x.1.display = (d.replay x.2).withIntegratedTo t

/-- Integrating up to at most 18 T states after the start. -/
theorem Feeding.advance {d : Display} {start : U64} {x : Board × List Interval}
    (h : Feeding d start x) {c : ℕ} (hc : c ≤ 18) (outA outB : U8) :
    start ≤ (x.1.display.advance outA outB (start + BitVec.ofNat 64 c)).integratedTo ∧
      (∀ iv ∈ x.2 ++ x.1.display.intervalsTo outA outB (start + BitVec.ofNat 64 c),
        0 < iv.dt.toNat ∧ iv.dt.toNat ≤ 18) ∧
      ∃ t, x.1.display.advance outA outB (start + BitVec.ofNat 64 c) =
        (d.replay
          (x.2 ++ x.1.display.intervalsTo outA outB
            (start + BitVec.ofNat 64 c))).withIntegratedTo t := by
  refine ⟨?_, ?_, ?_⟩
  · rw [Display.integratedTo_advance]
    have := h.clock
    split
    · exact this
    · bv_omega
  · intro iv hiv
    rcases List.mem_append.mp hiv with hiv | hiv
    · exact h.short iv hiv
    · exact Display.dt_intervalsTo hc h.clock iv hiv
  · obtain ⟨t, ht⟩ := h.replays
    obtain ⟨t', ht'⟩ := x.1.display.advance_eq outA outB (start + BitVec.ofNat 64 c)
    refine ⟨t', ?_⟩
    rw [ht', Display.replay_append, ht, Display.replay_withIntegratedTo]
    rfl

theorem Feeding.of_same {d : Display} {start : U64} {x : Board × List Interval} {b : Board}
    (h : Feeding d start x) (hstart : b.stepStartCycles = x.1.stepStartCycles)
    (hdisp : b.display = x.1.display) : Feeding d start (b, x.2 ++ []) := by
  rw [List.append_nil]
  refine ⟨by rw [hstart, h.started], ?_, h.short, ?_⟩
  · rw [hdisp]
    exact h.clock
  · rw [hdisp]
    exact h.replays

/-- **Every callback** records what it feeds the display. -/
theorem Feeding.recordHandler {d : Display} {start : U64} (o : BusOp)
    (x : Board × List Interval) (h : Feeding d start x) :
    Feeding d start (recordHandler o x).2 := by
  cases o with
  | read addr st => exact h.of_same rfl rfl
  | write addr val st =>
    have hchips := x.1.toChips_poke addr val
    refine h.of_same ?_ ?_
    · simp [busHandler, hchips]
    · simp [busHandler, hchips]
  | input port => exact h.of_same rfl rfl
  | output port val =>
    obtain ⟨_, _, _, _, hout⟩ := x.1.toChips.busOut_eq port val
    have hstart : (x.1.toChips.busOut port val).stepStartCycles = x.1.stepStartCycles := by
      rw [hout]
    have hdisp := x.1.toChips.display_busOut port val
    by_cases hport : port = PORT_A ∨ port = PORT_B ∨ port = PORT_CTRL
    · rw [if_pos hport] at hdisp
      have hwrite : x.1.stepStartCycles + OUT_WRITE_OFFSET = start + BitVec.ofNat 64 7 := by
        rw [h.started]
        rfl
      obtain ⟨hclock, hshort, hreplays⟩ := h.advance (c := 7) (by decide) x.1.ppi.outA x.1.ppi.outB
      rw [hwrite] at hdisp
      rw [← hdisp] at hclock hreplays
      simp only [Umk80.recordHandler, busIntervals, if_pos hport, hwrite]
      exact ⟨hstart.trans h.started, hclock, hshort, hreplays⟩
    · rw [if_neg hport] at hdisp
      simp only [Umk80.recordHandler, busIntervals, if_neg hport]
      exact h.of_same hstart hdisp

namespace Machine

/-- What one instruction feeds the display. -/
def intervals (m : Machine) : List Interval :=
  let r := (I8080.step.run m.cpu).run recordHandler (m.started, [])
  r.2.2 ++ r.2.1.display.intervalsTo r.2.1.ppi.outA r.2.1.ppi.outB r.1.2.cycles

/-- Recording does not disturb the run. -/
theorem run_recordHandler (m : Machine) :
    ((I8080.step.run m.cpu).run recordHandler (m.started, [])).1 = m.cpuRun.1 ∧
      ((I8080.step.run m.cpu).run recordHandler (m.started, [])).2.1 = m.cpuRun.2 := by
  refine Prog.run_sim (R := fun (x : Board × List Interval) (b : Board) => x.1 = b) ?_
    (I8080.step.run m.cpu) rfl
  rintro o x b rfl
  exact ⟨rfl, rfl⟩

/-- **The display after an instruction** is the display before it, fed what the instruction
recorded: intervals of 1 to 18 T states. The time base stays at or after the processor's. -/
theorem display_execOne {m : Machine} (hclock : m.cpu.cycles ≤ m.display.integratedTo) :
    m.execOne.2.cpu.cycles ≤ m.execOne.2.display.integratedTo ∧
      (∀ iv ∈ m.intervals, 0 < iv.dt.toNat ∧ iv.dt.toNat ≤ 18) ∧
      ∃ t, m.execOne.2.display = (m.display.replay m.intervals).withIntegratedTo t := by
  obtain ⟨hr, hb⟩ := m.run_recordHandler
  have hstart : Feeding m.display m.cpu.cycles (m.started, []) :=
    ⟨rfl, hclock, fun _ h => absurd h List.not_mem_nil, m.display.integratedTo, rfl⟩
  have hfed := Prog.run_inv recordHandler (P := Feeding m.display m.cpu.cycles)
    Feeding.recordHandler (I8080.step.run m.cpu) hstart
  obtain ⟨⟨-, hcost⟩, hcycles⟩ := Prog.wp_run busHandler (I8080.step_cost m.cpu) m.started
  change m.cpuRun.1.1 ≤ 18 at hcost
  change m.cpuRun.1.2.cycles = m.cpu.cycles + BitVec.ofNat 64 m.cpuRun.1.1 at hcycles
  have hend := hfed.advance hcost m.cpuRun.2.ppi.outA m.cpuRun.2.ppi.outB
  rw [hb, ← hcycles] at hend
  have hdisp : m.execOne.2.display = m.cpuRun.2.display.advance m.cpuRun.2.ppi.outA
      m.cpuRun.2.ppi.outB m.cpuRun.1.2.cycles := rfl
  have hivs : m.intervals = ((I8080.step.run m.cpu).run recordHandler (m.started, [])).2.2 ++
      m.cpuRun.2.display.intervalsTo m.cpuRun.2.ppi.outA m.cpuRun.2.ppi.outB
        m.cpuRun.1.2.cycles := by
    rw [intervals, hr, hb]
  refine ⟨?_, ?_, ?_⟩
  · change m.cpuRun.1.2.cycles ≤ _
    rw [hdisp, Display.integratedTo_advance]
    split
    · exact ‹_›
    · exact BitVec.le_refl _
  · rw [hivs]
    exact hend.2.1
  · rw [hdisp, hivs]
    exact hend.2.2

/-! ## Runs -/

/-- What the instructions of `runCycles` feed the display. -/
def runIntervals (start cycles : U64) : ℕ → Machine → List Interval
  | 0, _ => []
  | n + 1, m =>
    if m.cpu.cycles - start < cycles then m.intervals ++ runIntervals start cycles n m.execOne.2
    else []

/-- The record after a call: what it feeds the display is added, and a clear empties it. What a
dry run feeds the display is undone with the rest. -/
def record (fuel : ℕ) (m : Machine) (ivs : List Interval) : Call → List Interval
  | .stepInstruction => ivs ++ m.intervals
  | .stepMachineCycle => if m.stepMachineCycle.1 then ivs ++ m.probed.intervals else ivs
  | .pressStep =>
    if !m.step.latchStep then ivs
    else if m.step.latchCycle then
      if m.stepMachineCycle.1 then ivs ++ m.probed.intervals else ivs
    else ivs ++ m.intervals
  | .runCycles cycles =>
    if m.step.latchStep then ivs else ivs ++ m.runIntervals m.cpu.cycles cycles fuel
  | .reset => []
  | .displayClearAccumulator => []
  | .displaySetDigitOrder _ => []
  | _ => ivs

theorem record_pressStep (fuel : ℕ) (m : Machine) (ivs : List Interval) :
    m.record fuel ivs .pressStep =
      if !m.step.latchStep then ivs
      else if m.step.latchCycle then
        if m.stepMachineCycle.1 then ivs ++ m.probed.intervals else ivs
      else ivs ++ m.intervals := rfl

theorem record_runCycles (fuel : ℕ) (m : Machine) (ivs : List Interval) (cycles : U64) :
    m.record fuel ivs (.runCycles cycles) =
      if m.step.latchStep then ivs
      else ivs ++ m.runIntervals m.cpu.cycles cycles fuel := rfl

/-- A run, with what it has fed the display since the accumulators were last cleared. -/
def recordAll (fuel : ℕ) : Machine → List Interval → List Call → Option (Machine × List Interval)
  | m, ivs, [] => some (m, ivs)
  | m, ivs, c :: cs => (m.call fuel c).bind fun m' => m'.recordAll fuel (m.record fuel ivs c) cs

theorem calls_of_recordAll {fuel : ℕ} {m m' : Machine} {ivs ivs' : List Interval} {cs : List Call}
    (h : m.recordAll fuel ivs cs = some (m', ivs')) : m.calls fuel cs = some m' := by
  induction cs generalizing m ivs with
  | nil =>
    cases h
    rfl
  | cons c cs ih =>
    obtain ⟨m₁, hcall, hrest⟩ := Option.bind_eq_some_iff.mp h
    rw [calls, hcall]
    exact ih hrest

/-- `MVI A,89H; OUT 0FBH; OUT 0F8H; OUT 0F9H` in ROM: the mode word also selects digits and
lights segments. With the instruction behind it, the run lights three segments of two digits. -/
def litRun : List Call :=
  .loadRom 0 [0x3E, 0x89, 0xD3, 0xFB, 0xD3, 0xF8, 0xD3, 0xF9] ::
    List.replicate 5 .stepInstruction

end Machine

/-- The calls that leave the persistence constant alone. -/
def Call.keepsPersistence : Call → Bool
  | .displaySetPersistence _ => false
  | _ => true

namespace Machine

/-- The display is what its record makes of cleared accumulators. -/
structure Recorded (m : Machine) (tau : U32) (ivs : List Interval) : Prop where
  tau : m.display.tauCycles = tau
  clock : m.cpu.cycles ≤ m.display.integratedTo
  short : ∀ iv ∈ ivs, 0 < iv.dt.toNat ∧ iv.dt.toNat ≤ 18
  replays : ∃ t, m.display = (m.display.blackout.replay ivs).withIntegratedTo t

variable {tau : U32} {ivs : List Interval} {m m' : Machine}

theorem Recorded.of_same (h : m.Recorded tau ivs) (hcycles : m'.cpu.cycles = m.cpu.cycles)
    (hdisp : m'.display = m.display) : m'.Recorded tau ivs := by
  refine ⟨?_, ?_, h.short, ?_⟩
  · rw [hdisp]
    exact h.tau
  · rw [hcycles, hdisp]
    exact h.clock
  · rw [hdisp]
    exact h.replays

/-- Just after a clear nothing has been recorded. -/
theorem recorded_clear (d : Display) (htau : d.tauCycles = tau)
    (hdisp : m.display = d.clearAccumulator m.cpu.cycles) : m.Recorded tau [] := by
  refine ⟨?_, ?_, fun _ h => absurd h List.not_mem_nil, ⟨m.display.integratedTo, ?_⟩⟩
  · rw [hdisp]
    exact htau
  · rw [hdisp]
    exact BitVec.le_refl _
  · rw [hdisp]
    rfl

theorem Recorded.execOne (h : m.Recorded tau ivs) :
    m.execOne.2.Recorded tau (ivs ++ m.intervals) := by
  obtain ⟨hclock, hshort, t', hdisp⟩ := display_execOne h.clock
  obtain ⟨t, hold⟩ := h.replays
  obtain ⟨-, htau, hleft⟩ := m.display.replay_setup m.intervals
  have htau' : m.execOne.2.display.tauCycles = m.display.tauCycles := by rw [hdisp]; exact htau
  have hleft' : m.execOne.2.display.bit0IsLeft = m.display.bit0IsLeft := by rw [hdisp]; exact hleft
  have hblack : m.execOne.2.display.blackout =
      m.display.blackout.withIntegratedTo m.execOne.2.display.integratedTo := by
    rw [Display.blackout, htau', hleft']
    rfl
  refine ⟨by rw [htau', h.tau], hclock, ?_, ⟨t', ?_⟩⟩
  · intro iv hiv
    rcases List.mem_append.mp hiv with hiv | hiv
    · exact h.short iv hiv
    · exact hshort iv hiv
  · rw [hblack, Display.replay_withIntegratedTo, Display.replay_append, hdisp]
    conv_lhs => rw [hold, Display.replay_withIntegratedTo]
    rfl

/-- The instructions of a run add to the record what they feed the display. -/
theorem Recorded.through {ms : List Machine} (h : m.Recorded tau ivs) (hms : Through m ms m') :
    m'.Recorded tau (ivs ++ ms.flatMap intervals) := by
  refine hms.inv (P := fun l m => m.Recorded tau (ivs ++ l.flatMap intervals)) (l := []) ?_ ?_ ?_
  · exact fun hsame h => h.of_same hsame.cycles hsame.display
  · intro l m₁ _ h
    rw [List.flatMap_append, List.flatMap_singleton, ← List.append_assoc]
    exact h.execOne
  · rw [List.flatMap_nil, List.append_nil]
    exact h

theorem runIntervals_eq (start cycles : U64) (n : ℕ) (m : Machine) :
    m.runIntervals start cycles n = (m.loopExecutions start cycles n).flatMap intervals := by
  induction n generalizing m with
  | zero => rfl
  | succ n ih =>
    rw [runIntervals, loopExecutions]
    split
    · rw [List.flatMap_cons, ih]
    · rfl

theorem flatMap_cycleExecutions (m : Machine) (ivs : List Interval) :
    (if m.stepMachineCycle.1 then ivs ++ m.probed.intervals else ivs) =
      ivs ++ m.cycleExecutions.flatMap intervals := by
  rw [cycleExecutions]
  split
  · rw [List.flatMap_singleton]
  · exact (List.append_nil ivs).symm

/-- The record of a call that does not clear it is what its instructions feed the display. -/
theorem record_eq {c : Call} (hc : c.keepsDisplay = true) (fuel : ℕ) (m : Machine)
    (ivs : List Interval) :
    m.record fuel ivs c = ivs ++ (m.executions fuel c).flatMap intervals := by
  have hnone : ivs = ivs ++ ([] : List Machine).flatMap intervals := (List.append_nil ivs).symm
  have hone : ivs ++ m.intervals = ivs ++ [m].flatMap intervals := by
    rw [List.flatMap_singleton]
  cases c with
  | reset => exact absurd hc Bool.false_ne_true
  | displayClearAccumulator => exact absurd hc Bool.false_ne_true
  | displaySetDigitOrder order => exact absurd hc Bool.false_ne_true
  | displaySetPersistence tau => exact absurd hc Bool.false_ne_true
  | stepInstruction => exact hone
  | stepMachineCycle => exact m.flatMap_cycleExecutions ivs
  | pressStep =>
    rw [record_pressStep, executions_pressStep]
    split
    · exact hnone
    · split
      · exact m.flatMap_cycleExecutions ivs
      · exact hone
  | runCycles cycles =>
    rw [record_runCycles, executions_runCycles]
    split
    · exact hnone
    · rw [runIntervals_eq]
  | loadRom offset data => exact hnone
  | loadRam addr data => exact hnone
  | poke addr val => exact hnone
  | interrupt => exact hnone
  | setSwitch sw latched => exact hnone
  | setKey col row down => exact hnone
  | releaseAllKeys => exact hnone
  | setPowerFault p5 m5 p12 => exact hnone

/-- **One call** keeps the record. -/
theorem Recorded.call {fuel : ℕ} {c : Call} (h : m.Recorded tau ivs)
    (hc : c.keepsPersistence = true) (hcall : m.call fuel c = some m') :
    m'.Recorded tau (m.record fuel ivs c) := by
  have hkeeps (hc : c.keepsDisplay = true) : m'.Recorded tau (m.record fuel ivs c) := by
    rw [record_eq hc]
    exact h.through (through_call hc hcall)
  cases c with
  | displaySetPersistence tau => exact absurd hc Bool.false_ne_true
  | reset => cases hcall; exact recorded_clear m.display h.tau rfl
  | displayClearAccumulator => cases hcall; exact recorded_clear m.display h.tau rfl
  | displaySetDigitOrder order =>
    cases hcall
    exact recorded_clear { m.display with bit0IsLeft := order == .bit0Left } h.tau rfl
  | _ => exact hkeeps rfl

/-- **The display of a run is that of its record**, in every state the run reaches. -/
theorem recorded_recordAll {fuel : ℕ} {cs : List Call} {ivs' : List Interval}
    (h : m.Recorded tau ivs) (hcs : ∀ c ∈ cs, c.keepsPersistence = true)
    (hrun : m.recordAll fuel ivs cs = some (m', ivs')) : m'.Recorded tau ivs' := by
  induction cs generalizing m ivs with
  | nil =>
    cases hrun
    exact h
  | cons c cs ih =>
    obtain ⟨m₁, hcall, hrest⟩ := Option.bind_eq_some_iff.mp hrun
    exact ih (h.call (hcs c List.mem_cons_self) hcall)
      (fun d hd => hcs d (List.mem_cons_of_mem _ hd)) hrest

end Machine

end Umk80
