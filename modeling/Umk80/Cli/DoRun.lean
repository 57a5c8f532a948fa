import Umk80.Disasm
import Umk80.RunCycles

/-!
# The debugger's run

`do_run` of `cli/umkcli.c` executes instruction by instruction, refreshes the panel after each, and
looks at the breakpoints and at HLT in between. `umk_run_cycles` does nothing of all that. Still,
where `do_run` stops, it leaves the machine that `umk_run_cycles` leaves if it is given the T states
that were consumed; only that the last cycle shown of a half-stepped instruction is forgotten.

Both compare the T states since the start, as 64-bit numbers, with the budget. So a budget above
2^64 - 18 may be stepped over, and then the loop goes on: a processor that idles takes 4 T states
at a time, and never consumes 2^64 - 1.

## Main definitions

* `doRun` — the loop, and what it prints
* `FirstStop` — the first instruction that a run has to stop after
* `RunAgrees` — the run stops there, and the machine is that of `umk_run_cycles`

## Main results

* `runAgrees_of_firstStop` — it does, if it gets there before 2^64 T states have passed
-/

namespace Umk80

open CString WhileLoop Machine

/-! ## Printing -/

/-- `flags_text`. -/
def flagsText (f : U8) : List Char :=
  [if f &&& F_S != 0 then 'S' else '.', if f &&& F_Z != 0 then 'Z' else '.',
    if f &&& F_AC != 0 then 'A' else '.', if f &&& F_P != 0 then 'P' else '.',
    if f &&& F_C != 0 then 'C' else '.']

/-- `show_regs`. -/
def showRegs (m : Machine) : List Char :=
  let mem (i : ℕ) : U8 := m.peek (m.cpu.pc + BitVec.ofNat 16 i)
  let txt := (umkDisasm mem 0 3).1
  let bit (b : Bool) : List Char := decimal (if b then 1 else 0)
  "A=".toList ++ hex 2 m.cpu.a.toNat ++ " F=".toList ++ hex 2 m.cpu.f.toNat ++ "[".toList ++
    flagsText m.cpu.f ++ "] B=".toList ++ hex 2 m.cpu.b.toNat ++ " C=".toList ++
    hex 2 m.cpu.c.toNat ++ " D=".toList ++ hex 2 m.cpu.d.toNat ++ " E=".toList ++
    hex 2 m.cpu.e.toNat ++ " H=".toList ++ hex 2 m.cpu.h.toNat ++ " L=".toList ++
    hex 2 m.cpu.l.toNat ++ "\n".toList ++
  "PC=".toList ++ hex 4 m.cpu.pc.toNat ++ " SP=".toList ++ hex 4 m.cpu.sp.toNat ++
    "  INTE=".toList ++ bit m.cpu.inte ++ " HLTA=".toList ++ bit m.cpu.halted ++
    "  cycles=".toList ++ decimal m.cpu.cycles.toNat ++ "\n".toList ++
  "PC:  ".toList ++ hex 4 m.cpu.pc.toNat ++ "  ".toList ++ txt ++ "\n".toList

/-! ## The loop -/

/-- `bp_hit`. -/
def bpHit (breakpoints : List U16) (pc : U16) : Bool := breakpoints.any (· == pc)

/-- Why the loop returns from within. -/
inductive Stop
  | breakpoint
  | halt
deriving DecidableEq

/-- The machine and the variables of `do_run`. -/
structure DoRun where
  machine : Machine
  steps : ℕ
  stop : Option Stop

/-- Whether the loop returns after an instruction that ends in this state. -/
def stopReason (breakpoints : List U16) (cpu : I8080) : Option Stop :=
  if bpHit breakpoints cpu.pc then some .breakpoint
  else if cpu.halted && !cpu.intPending then some .halt
  else none

/-- One round of the loop. -/
def DoRun.round (breakpoints : List U16) (s : DoRun) : DoRun :=
  let m := s.machine.stepInstruction.2
  ⟨m, s.steps + 1, stopReason breakpoints m.cpu⟩

/-- What is printed at the end. -/
def DoRun.text (start : U64) (s : DoRun) : List Char :=
  match s.stop with
  | some .breakpoint =>
    "breakpoint at ".toList ++ hex 4 s.machine.cpu.pc.toNat ++ " after ".toList ++
      decimal s.steps ++ " instructions\n".toList ++ showRegs s.machine
  | some .halt =>
    "HLT at ".toList ++ hex 4 s.machine.cpu.pc.toNat ++ " after ".toList ++
      decimal s.steps ++ " instructions\n".toList
  | none =>
    decimal (s.machine.cpu.cycles - start).toNat ++ " cycles consumed (".toList ++
      decimal s.steps ++ " instructions)\n".toList

/-- `do_run`, for at most `fuel` instructions: the machine, how many instructions it has executed,
and what it prints. -/
def doRun (fuel : ℕ) (breakpoints : List U16) (m : Machine) (budget : U64) :
    Option (Machine × ℕ × List Char) :=
  (whileLoop (fun s => s.stop.isNone && s.machine.cpu.cycles - m.cpu.cycles < budget)
    (DoRun.round breakpoints) fuel ⟨m, 0, none⟩).map fun s =>
      (s.machine, s.steps, s.text m.cpu.cycles)

/-! ## What it has to do -/

/-- A run has to stop after `k` instructions. -/
def StopsAt (breakpoints : List U16) (budget : ℕ) (m : Machine) (k : ℕ) : Prop :=
  (m.after k).cpu.pc ∈ breakpoints ∨
    ((m.after k).cpu.halted = true ∧ (m.after k).cpu.intPending = false) ∨ budget ≤ m.spent k

/-- The first instruction, at least one, that a run has to stop after. -/
structure FirstStop (breakpoints : List U16) (budget : ℕ) (m : Machine) (k : ℕ) : Prop where
  pos : 0 < k
  stops : StopsAt breakpoints budget m k
  first : ∀ j, 0 < j → j < k → ¬ StopsAt breakpoints budget m j

/-- The run stops at the first instruction that it has to stop after, and at no later one; and
`umk_run_cycles`, given the T states until then, leaves the same machine, except for `mc_index`. -/
def RunAgrees (breakpoints : List U16) (budget : U64) (m : Machine) : Prop :=
  ∃ k, FirstStop breakpoints budget.toNat m k ∧ ∃ N m₁ m₂ text, ∀ fuel ≥ N,
    doRun fuel breakpoints m budget = some (m₁, k, text) ∧
      m.runCycles fuel (BitVec.ofNat 64 (m.spent k)) = some (BitVec.ofNat 64 (m.spent k), m₂) ∧
      m₁ = { m₂ with step := { m₂.step with mcIndex := 0 } }

/-! ## The two loops -/

namespace Machine

/-- Another state of the single-step mode. -/
def withStep (m : Machine) (s : StepState) : Machine := { m with step := s }

theorem execOne_withStep (m : Machine) (s : StepState) :
    (m.withStep s).execOne = (m.execOne.1, m.execOne.2.withStep s) := rfl

theorem panelUpdate_withStep (m : Machine) (s : StepState) :
    (m.withStep s).panelUpdate = m.panelUpdate.withStep s := by
  unfold panelUpdate panelShowMc
  by_cases hpos : 0 < m.cpu.mcCount
  · have hpos' : 0 < (m.withStep s).cpu.mcCount := hpos
    rw [if_pos hpos, if_pos hpos']
    by_cases hlast : m.cpu.mcCount.toNat - 1 < m.cpu.mcCount.toNat
    · rw [if_pos hlast]
      exact if_pos hlast
    · rw [if_neg hlast]
      exact if_neg hlast
  · rw [if_neg hpos]
    exact if_neg hpos

theorem stepInstruction_eq (m : Machine) : m.stepInstruction.2 =
    m.execOne.2.panelUpdate.withStep { m.step with mcIndex := 0 } :=
  panelUpdate_withStep m.execOne.2 { m.step with mcIndex := 0 }

/-- An instruction of the debugger, from where its last one has ended. -/
theorem stepInstruction_panelUpdate (m : Machine) {s : StepState} (hs : s.mcIndex = 0) :
    (m.panelUpdate.withStep s).stepInstruction.2 = m.execOne.2.panelUpdate.withStep s := by
  have hrefresh : m.panelUpdate.execOne.2.panelUpdate = m.execOne.2.panelUpdate :=
    panelUpdate_after_panelUpdate 1 m
  have hself : { s with mcIndex := 0 } = s := by
    rw [← hs]
  rw [stepInstruction_eq, execOne_withStep, panelUpdate_withStep, hrefresh]
  exact congrArg _ hself

end Machine

/-- **The debugger's loop** after some rounds: the instructions are those of the core, and the
panel shows the last of them. -/
theorem DoRun.iterate_round (breakpoints : List U16) (m : Machine) (k : ℕ) :
    (DoRun.round breakpoints)^[k + 1] ⟨m, 0, none⟩ =
      ⟨(m.after (k + 1)).panelUpdate.withStep { m.step with mcIndex := 0 }, k + 1,
        stopReason breakpoints (m.after (k + 1)).cpu⟩ := by
  induction k with
  | zero =>
    have hmachine : m.stepInstruction.2 =
        (m.after 1).panelUpdate.withStep { m.step with mcIndex := 0 } := m.stepInstruction_eq
    have hcpu : m.stepInstruction.2.cpu = (m.after 1).cpu := by
      rw [hmachine]
      exact (m.after 1).cpu_panelUpdate
    rw [Nat.zero_add, Function.iterate_one, DoRun.round, hcpu, hmachine]
  | succ k ih =>
    have hmachine := stepInstruction_panelUpdate (m.after (k + 1))
      (s := { m.step with mcIndex := 0 }) rfl
    have hcpu : ((m.after (k + 1)).panelUpdate.withStep
        { m.step with mcIndex := 0 }).stepInstruction.2.cpu = (m.after (k + 2)).cpu := by
      rw [hmachine, ← after_succ]
      exact (m.after (k + 2)).cpu_panelUpdate
    rw [Function.iterate_succ_apply', ih, DoRun.round, hcpu, hmachine, ← after_succ]

theorem stopReason_eq_none_iff {breakpoints : List U16} {cpu : I8080} :
    stopReason breakpoints cpu = none ↔
      cpu.pc ∉ breakpoints ∧ ¬ (cpu.halted = true ∧ cpu.intPending = false) := by
  have hhit : bpHit breakpoints cpu.pc = true ↔ cpu.pc ∈ breakpoints := by
    simp [bpHit]
  rw [stopReason]
  split
  · rename_i h
    exact iff_of_false (Option.some_ne_none _) fun hno => hno.1 (hhit.mp h)
  · rename_i h
    have hhalt : (cpu.halted && !cpu.intPending) = true ↔
        cpu.halted = true ∧ cpu.intPending = false := by
      rw [Bool.and_eq_true, Bool.not_eq_true']
    split
    · rename_i h'
      exact iff_of_false (Option.some_ne_none _) fun hno => hno.2 (hhalt.mp h')
    · rename_i h'
      exact iff_of_true rfl ⟨mt hhit.mpr h, mt hhalt.mpr h'⟩

/-- Whether the loop goes on after some rounds. -/
theorem DoRun.continues_iff {breakpoints : List U16} {m : Machine} {budget : U64} {k : ℕ}
    (hspent : m.spent k < 2 ^ 64) (hk : 0 < k) :
    (((DoRun.round breakpoints)^[k] ⟨m, 0, none⟩).stop.isNone &&
        decide (((DoRun.round breakpoints)^[k] ⟨m, 0, none⟩).machine.cpu.cycles - m.cpu.cycles <
          budget)) = true ↔ ¬ StopsAt breakpoints budget.toNat m k := by
  obtain ⟨j, rfl⟩ := Nat.exists_eq_succ_of_ne_zero hk.ne'
  have hcycles : ((m.after (j + 1)).panelUpdate.withStep
      { m.step with mcIndex := 0 }).cpu.cycles - m.cpu.cycles < budget ↔
        ¬ budget.toNat ≤ m.spent (j + 1) := by
    have hcpu : ((m.after (j + 1)).panelUpdate.withStep { m.step with mcIndex := 0 }).cpu =
        (m.after (j + 1)).cpu := (m.after (j + 1)).cpu_panelUpdate
    rw [hcpu, cycles_after_sub, BitVec.lt_def, BitVec.toNat_ofNat, Nat.mod_eq_of_lt hspent,
      Nat.not_le]
  rw [DoRun.iterate_round, Bool.and_eq_true, decide_eq_true_iff, Option.isNone_iff_eq_none,
    stopReason_eq_none_iff, hcycles, StopsAt]
  tauto

/-- The runs have to stop somewhere. -/
theorem exists_firstStop (breakpoints : List U16) {budget : ℕ} (hpos : 0 < budget) (m : Machine) :
    ∃ k, FirstStop breakpoints budget m k := by
  obtain ⟨n, hn⟩ : ∃ n, m.Meets budget n := Budget.exists_meets execOne_pos budget m
  have hreach : ∃ k, 0 < k ∧ StopsAt breakpoints budget m k := by
    refine ⟨n, Nat.pos_of_ne_zero ?_, Or.inr (Or.inr hn.reached)⟩
    rintro rfl
    exact absurd hn.reached (Nat.not_le.mpr hpos)
  classical
  obtain ⟨hfind, hstops⟩ := Nat.find_spec hreach
  exact ⟨Nat.find hreach, hfind, hstops, fun j hj hlt hstop => Nat.find_min hreach hlt ⟨hj, hstop⟩⟩

/-- A budget is overrun by at most 17 T states. -/
theorem FirstStop.spent_le {breakpoints : List U16} {budget k : ℕ} {m : Machine}
    (h : FirstStop breakpoints budget m k) (hpos : 0 < budget) : m.spent k ≤ budget + 17 := by
  obtain ⟨j, rfl⟩ := Nat.exists_eq_succ_of_ne_zero h.pos.ne'
  have hbefore : m.spent j < budget := by
    rcases Nat.eq_zero_or_pos j with rfl | hj
    · exact hpos
    · exact Nat.lt_of_not_le fun hle => h.first j hj j.lt_succ_self (Or.inr (Or.inr hle))
  have hcost := (m.after j).cost_execOne.1.2
  rw [spent_succ]
  omega

/-- **The debugger's run agrees with the core's run** where it does not take 2^64 T states to get to
the instruction that it has to stop after; which it never does with a budget up to 2^64 - 18. -/
theorem runAgrees_of_firstStop (breakpoints : List U16) (budget : U64) (m : Machine)
    (hl : m.step.latchStep = false) (hpos : 0 < budget)
    (h : budget.toNat ≤ 2 ^ 64 - 18 ∨
      ∃ k, FirstStop breakpoints budget.toNat m k ∧ m.spent k < 2 ^ 64) :
    RunAgrees breakpoints budget m := by
  have hpos' : 0 < budget.toNat := hpos
  obtain ⟨k, hk, hspent⟩ :
      ∃ k, FirstStop breakpoints budget.toNat m k ∧ m.spent k < 2 ^ 64 := by
    rcases h with hbudget | hreach
    · obtain ⟨k, hk⟩ := exists_firstStop breakpoints hpos' m
      have hle := hk.spent_le hpos'
      exact ⟨k, hk, by omega⟩
    · exact hreach
  have hmono (j : ℕ) (hj : j < k) : m.spent j < 2 ^ 64 :=
    (Budget.spent_lt_of_lt execOne_pos hj m).trans hspent
  obtain ⟨j, rfl⟩ := Nat.exists_eq_succ_of_ne_zero hk.pos.ne'
  refine ⟨j + 1, hk, j + 1, (m.after (j + 1)).panelUpdate.withStep { m.step with mcIndex := 0 },
    (m.after (j + 1)).panelUpdate, ((DoRun.round breakpoints)^[j + 1] ⟨m, 0, none⟩).text
      m.cpu.cycles, fun fuel hfuel => ⟨?_, ?_, ?_⟩⟩
  · have hloop : whileLoop (fun s : DoRun => s.stop.isNone &&
        decide (s.machine.cpu.cycles - m.cpu.cycles < budget)) (DoRun.round breakpoints) fuel
          ⟨m, 0, none⟩ = some ((DoRun.round breakpoints)^[j + 1] ⟨m, 0, none⟩) := by
      refine whileLoop_eq_some_iff.mpr ⟨j + 1, hfuel, rfl, ?_, fun i hi => ?_⟩
      · exact Bool.eq_false_iff.mpr fun hgo => (DoRun.continues_iff hspent hk.pos).mp hgo hk.stops
      · rcases Nat.eq_zero_or_pos i with rfl | hi'
        · have hstart : m.cpu.cycles - m.cpu.cycles < budget := by
            rw [BitVec.sub_self]
            exact hpos
          exact decide_eq_true hstart
        · exact (DoRun.continues_iff (hmono i hi) hi').mpr (hk.first i hi' hi)
    rw [doRun, hloop, Option.map_some, DoRun.iterate_round]
  · exact runCycles_of_meets hl hspent hspent (Budget.meets_spent execOne_pos (j + 1) m) hfuel
  · rw [step_panelUpdate, step_after]
    rfl

/-- From power-on, where the ROM is full of NOPs, with a breakpoint at 0002h. -/
theorem runAgrees_of_firstStop_nop : RunAgrees [2] 2000000 (init .rev1) :=
  runAgrees_of_firstStop [2] 2000000 (init .rev1) rfl (by decide) (Or.inl (by decide))

/-! ## A budget that is stepped over -/

/-- An idle processor with a request that it does not accept. -/
structure Idles (m : Machine) : Prop where
  halted : m.cpu.halted = true
  pending : m.cpu.intPending = true
  disabled : m.cpu.inte = false

/-- It goes on idling, 4 T states at a time. -/
theorem Idles.execOne {m : Machine} (h : Idles m) : m.execOne.1 = 4 ∧ Idles m.execOne.2 := by
  have hack : m.cpu.acknowledges = false := by
    rw [I8080.acknowledges, h.disabled, Bool.and_false, Bool.false_and]
  have hresult :
      (I8080.step.run m.cpu).run busHandler m.started = ((4, m.cpu.idled), m.started) := by
    rw [I8080.step_run_of_halted hack h.halted]
    rfl
  have hcost : m.execOne.1 = ((I8080.step.run m.cpu).run busHandler m.started).1.1 := rfl
  have hcpu : m.execOne.2.cpu = ((I8080.step.run m.cpu).run busHandler m.started).1.2 := rfl
  rw [hresult] at hcost hcpu
  refine ⟨hcost, ?_, ?_, ?_⟩
  · rw [hcpu]
    exact h.halted
  · rw [hcpu]
    exact h.pending
  · rw [hcpu]
    exact h.disabled

theorem Idles.after {m : Machine} (h : Idles m) (k : ℕ) :
    m.spent k = 4 * k ∧ Idles (m.after k) := by
  induction k with
  | zero => exact ⟨rfl, h⟩
  | succ k ih =>
    obtain ⟨hcost, hnext⟩ := ih.2.execOne
    rw [after_succ, spent_succ, ih.1, hcost]
    exact ⟨rfl, hnext⟩

/-- Without breakpoints and with the largest budget the loop never ends. -/
theorem Idles.doRun_eq_none {m : Machine} (h : Idles m) (fuel : ℕ) :
    doRun fuel [] m (BitVec.ofNat 64 (2 ^ 64 - 1)) = none := by
  rw [doRun, Option.map_eq_none_iff, Option.eq_none_iff_forall_ne_some]
  intro s hs
  obtain ⟨k, -, -, hstop, -⟩ := whileLoop_eq_some_iff.mp hs
  cases k with
  | zero =>
    have hstart : ¬ m.cpu.cycles - m.cpu.cycles < BitVec.ofNat 64 (2 ^ 64 - 1) :=
      of_decide_eq_false hstop
    rw [BitVec.sub_self] at hstart
    exact hstart (by decide)
  | succ k =>
    obtain ⟨hspent, hidles⟩ := h.after (k + 1)
    have hreason : stopReason [] (m.after (k + 1)).cpu = none := by
      refine stopReason_eq_none_iff.mpr ⟨List.not_mem_nil, fun hhalt => ?_⟩
      rw [hidles.pending] at hhalt
      exact absurd hhalt.2 Bool.true_eq_false.mp
    have hcpu : ((m.after (k + 1)).panelUpdate.withStep { m.step with mcIndex := 0 }).cpu =
        (m.after (k + 1)).cpu := (m.after (k + 1)).cpu_panelUpdate
    rw [DoRun.iterate_round, hreason, hcpu, cycles_after_sub, hspent] at hstop
    have hover : ¬ BitVec.ofNat 64 (4 * (k + 1)) < BitVec.ofNat 64 (2 ^ 64 - 1) :=
      of_decide_eq_false hstop
    rw [BitVec.lt_def, BitVec.toNat_ofNat, BitVec.toNat_ofNat] at hover
    omega

/-- `HLT`, and then a request, which is not enabled. -/
def haltedMachine : Machine := ((init .rev1).loadRom 0 [0x76]).2.stepInstruction.2.interrupt

/-- After 2^62 idle cycles the budget of 2^64 - 1 is reached, and `do_run` goes on. -/
theorem not_runAgrees_idle : ¬ RunAgrees [] (BitVec.ofNat 64 (2 ^ 64 - 1)) haltedMachine := by
  rintro ⟨k, -, N, m₁, m₂, text, hrun⟩
  have hidles : Idles haltedMachine := ⟨by decide +kernel, by decide +kernel, by decide +kernel⟩
  have hnone := hidles.doRun_eq_none N
  rw [(hrun N (Nat.le_refl N)).1] at hnone
  exact absurd hnone (Option.some_ne_none _)

end Umk80
