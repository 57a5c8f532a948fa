import Umk80.IndexSafety
import Umk80.RunCycles

/-!
# Running on from a half-stepped instruction

With КМ/ЦК latched an instruction is shown cycle by cycle, and `mc_index` counts what has been
shown. Whatever executes the instruction has to set it back, or the next machine cycle goes on
with the stored cycles of an instruction that is over.

`umk_step_instruction` sets it back, and so does the last cycle. `umk_run_cycles` does not. It does
nothing while РБ/ШГ is latched, and unlatching РБ/ШГ sets `mc_index` back, so that the panel alone
cannot get there; but `umk_step_machine_cycle` can be called with the switch released, as the
debugger's `cycle` does.

A run here may load states too. Only between a call that executes an instruction and the machine
cycle that is to start afresh there is no `umk_state_load`: it would bring the counter of another
machine.

## Main definitions

* `Machine.executes` — a call that executes at least one whole instruction
* `Machine.StartsFresh` — the next machine cycle starts with a dry run
* `Machine.Cancels`, `Machine.NeverRunsHalfStepped` — the property and the condition, for a run

## Main results

* `Machine.cancels_iff` — after what executes instructions the next machine cycle starts afresh,
  exactly if nothing runs on from a half-stepped instruction
-/

namespace Umk80

open WhileLoop

/-- The calls that show machine cycles. -/
def Call.showsCycle : Call → Bool
  | .stepMachineCycle => true
  | .pressStep => true
  | _ => false

namespace Machine

/-- The call executes at least one whole instruction. -/
def executes (m : Machine) : Call → Bool
  | .runCycles cycles => !m.step.latchStep && cycles != 0
  | .stepInstruction => true
  | .pressStep => m.step.latchStep && m.pressCompletes
  | _ => false

/-- The next machine cycle starts with a dry run, whatever is called in between. No other state is
loaded there. -/
def StartsFresh (fuel : ℕ) (m : Machine) : Prop :=
  ∀ cs m', (∀ c ∈ cs, c.showsCycle = false) → m.calls fuel cs = some m' →
    m'.step.mcIndex = 0 ∧ m'.probed = m'.stepProbe

/-- A sequence of calls of the whole API. -/
def apiCalls (size fuel : ℕ) : Machine → List Api → Option Machine
  | m, [] => some m
  | m, a :: as => (m.apiCall size fuel a).bind fun m' => m'.apiCalls size fuel as

/-- After every call of a run that executes an instruction, the next machine cycle starts afresh. -/
def Cancels (size fuel : ℕ) (rev : Rev) (as : List Api) : Prop :=
  ∀ pre c post m m', as = pre ++ .call c :: post → (init rev).apiCalls size fuel pre = some m →
    m.call fuel c = some m' → m.executes c = true → m'.StartsFresh fuel

/-- No call of the run runs on from a half-stepped instruction. -/
def NeverRunsHalfStepped (size fuel : ℕ) (rev : Rev) (as : List Api) : Prop :=
  ∀ pre cycles post m, as = pre ++ .call (.runCycles cycles) :: post →
    (init rev).apiCalls size fuel pre = some m → (m.runCycles fuel cycles).isSome →
      m.step.latchStep = false → cycles ≠ 0 → m.step.mcIndex = 0

/-! ## What sets the counter back -/

theorem executes_runCycles (m : Machine) (cycles : U64) : m.executes (.runCycles cycles) = true ↔
    m.step.latchStep = false ∧ cycles ≠ 0 := by
  have hdef : m.executes (.runCycles cycles) = (!m.step.latchStep && cycles != 0) := rfl
  rw [hdef, Bool.and_eq_true, Bool.not_eq_true', bne_iff_ne]

/-- A run executes some instructions, and at least one exactly if it is released and has a
budget. -/
theorem exists_after_of_runCycles {fuel : ℕ} {m m' : Machine} {cycles r : U64}
    (h : m.runCycles fuel cycles = some (r, m')) :
    ∃ k, (0 < k ↔ m.executes (.runCycles cycles) = true) ∧ m'.step = (m.after k).step := by
  rcases runCycles_cases h with ⟨hl, -, rfl⟩ | ⟨hl, m₁, hloop, -, rfl⟩
  · refine ⟨0, iff_of_false (Nat.lt_irrefl 0) ?_, rfl⟩
    rw [executes_runCycles, hl]
    exact fun hboth => absurd hboth.1 Bool.true_eq_false.mp
  · obtain ⟨k, -, rfl, hstop, hbefore⟩ := whileLoop_eq_some_iff.mp hloop
    refine ⟨k, ?_, (m.after k).step_panelUpdate⟩
    have hzero : m.cpu.cycles - m.cpu.cycles < cycles ↔ cycles ≠ 0 := by
      rw [BitVec.sub_self, BitVec.lt_def, ne_eq, ← BitVec.toNat_inj]
      exact Nat.pos_iff_ne_zero
    rw [executes_runCycles]
    constructor
    · intro hk
      exact ⟨hl, hzero.mp (of_decide_eq_true (hbefore 0 hk))⟩
    · rintro ⟨-, hne⟩
      refine Nat.pos_of_ne_zero ?_
      rintro rfl
      exact of_decide_eq_false hstop (hzero.mpr hne)

theorem step_of_runCycles {fuel : ℕ} {m m' : Machine} {cycles r : U64}
    (h : m.runCycles fuel cycles = some (r, m')) : m'.step = m.step := by
  obtain ⟨k, -, hstep⟩ := exists_after_of_runCycles h
  rw [hstep, step_after]

theorem mcIndex_stepInstruction (m : Machine) : m.stepInstruction.2.step.mcIndex = 0 := by
  rw [stepInstruction, step_panelUpdate]

/-- The last cycle of an instruction sets the counter back. -/
theorem mcIndex_stepMachineCycle {m : Machine} (h : m.stepMachineCycle.1 = true) :
    m.stepMachineCycle.2.step.mcIndex = 0 := by
  by_cases hlast : m.probed.step.mcTotal.toNat ≤ m.probed.step.mcIndex.toNat + 1
  · rw [stepMachineCycle_of_last hlast]
  · rw [stepMachineCycle_of_more hlast] at h
    exact absurd h Bool.false_ne_true

theorem mcIndex_pressStep {m : Machine} (h : m.executes .pressStep = true) :
    m.pressStep.step.mcIndex = 0 := by
  obtain ⟨hl, hcompletes⟩ := Bool.and_eq_true_iff.mp h
  cases hc : m.step.latchCycle with
  | true =>
    rw [pressStep_of_cycle hl hc]
    rw [pressCompletes, hc] at hcompletes
    exact mcIndex_stepMachineCycle hcompletes
  | false =>
    rw [pressStep_of_instruction hl hc]
    exact m.mcIndex_stepInstruction

/-- Nothing else makes it start counting. -/
theorem mcIndex_call {fuel : ℕ} {m m' : Machine} {c : Call} (hc : c.showsCycle = false)
    (h : m.call fuel c = some m') (hi : m.step.mcIndex = 0) : m'.step.mcIndex = 0 := by
  cases c with
  | loadRom offset data =>
    cases h
    rw [loadRom]
    split
    · exact hi
    · exact hi
  | loadRam addr data =>
    cases h
    rw [(m.loadRam_frame addr data).2]
    exact hi
  | runCycles cycles =>
    obtain ⟨⟨r, m''⟩, hrun, rfl⟩ := Option.map_eq_some_iff.mp h
    rw [step_of_runCycles hrun]
    exact hi
  | stepInstruction =>
    cases h
    exact m.mcIndex_stepInstruction
  | setSwitch sw latched =>
    cases h
    cases sw with
    | step =>
      cases latched with
      | true => exact hi
      | false => rfl
    | cycle => rfl
  | setKey col row down =>
    cases h
    rw [setKey]
    split
    · exact hi
    · exact hi
  | reset =>
    cases h
    rfl
  | stepMachineCycle => exact absurd hc Bool.true_eq_false.mp
  | pressStep => exact absurd hc Bool.true_eq_false.mp
  | _ =>
    cases h
    exact hi

theorem startsFresh_iff {fuel : ℕ} {m : Machine} : m.StartsFresh fuel ↔ m.step.mcIndex = 0 := by
  constructor
  · intro h
    exact (h [] m (fun _ hc => absurd hc List.not_mem_nil) rfl).1
  · intro hi cs m' hcs hm'
    have hi' : m'.step.mcIndex = 0 := by
      induction cs generalizing m with
      | nil =>
        cases hm'
        exact hi
      | cons c cs ih =>
        obtain ⟨m₁, hm₁, hrest⟩ := Option.bind_eq_some_iff.mp hm'
        exact ih (mcIndex_call (hcs c List.mem_cons_self) hm₁ hi)
          (fun d hd => hcs d (List.mem_cons_of_mem _ hd)) hrest
    exact ⟨hi', if_pos hi'⟩

/-! ## Runs -/

/-- **Running cancels a half-stepped instruction** exactly if it never has to. -/
theorem cancels_iff (size fuel : ℕ) (rev : Rev) (as : List Api) :
    Cancels size fuel rev as ↔ NeverRunsHalfStepped size fuel rev as := by
  constructor
  · intro h pre cycles post m has hm hreturns hl hne
    obtain ⟨⟨r, m'⟩, hrun⟩ := Option.isSome_iff_exists.mp hreturns
    have hcall : m.call fuel (.runCycles cycles) = some m' := by rw [call, hrun, Option.map_some]
    have hexecutes := (m.executes_runCycles cycles).mpr ⟨hl, hne⟩
    have hi := startsFresh_iff.mp (h pre _ post m m' has hm hcall hexecutes)
    rwa [step_of_runCycles hrun] at hi
  · intro h pre c post m m' has hm hcall hexecutes
    refine startsFresh_iff.mpr ?_
    cases c with
    | runCycles cycles =>
      obtain ⟨⟨r, m''⟩, hrun, rfl⟩ := Option.map_eq_some_iff.mp hcall
      obtain ⟨hl, hne⟩ := (m.executes_runCycles cycles).mp hexecutes
      have hi := h pre cycles post m has hm (by rw [hrun]; rfl) hl hne
      rw [step_of_runCycles hrun]
      exact hi
    | stepInstruction =>
      cases hcall
      exact m.mcIndex_stepInstruction
    | pressStep =>
      cases hcall
      exact mcIndex_pressStep hexecutes
    | _ => exact absurd hexecutes Bool.false_ne_true

/-- `LXI B,1234H` in ROM, of which one machine cycle is shown with the switches released. -/
def lxiShown : List Api := [.call (.loadRom 0 [0x01, 0x34, 0x12]), .call .stepMachineCycle]

/-- After it is run, the next machine cycle is the second of the instruction that is over. -/
theorem not_cancels_lxiRunOn : ¬ Cancels 0 1 .rev1 (lxiShown ++ [.call (.runCycles 1)]) := by
  intro h
  have hrun : ((init .rev1).apiCalls 0 1 lxiShown).map
      (fun m => (m.step.latchStep, (m.call 1 (.runCycles 1)).map fun m' =>
        (m'.cpu.pc, m'.step.mcIndex))) = some (false, some (3, 1)) := by
    decide +kernel
  obtain ⟨m, hm, heq⟩ := Option.map_eq_some_iff.mp hrun
  obtain ⟨hl, hnext⟩ := Prod.mk.inj heq
  obtain ⟨m', hm', heq'⟩ := Option.map_eq_some_iff.mp hnext
  have hi := startsFresh_iff.mp (h lxiShown (.runCycles 1) [] m m' rfl hm hm'
    ((m.executes_runCycles 1).mpr ⟨hl, by decide⟩))
  rw [hi] at heq'
  exact absurd (Prod.mk.inj heq').2 (by decide)

end Machine

end Umk80
