import Mathlib.Logic.Function.Iterate
import Umk80.DryRun

/-!
# Stepping by machine cycles is transparent

With РБ/ШГ latched the machine advances only when ШГ is pressed. A press with КМ/ЦК released is
one instruction. With КМ/ЦК latched the presses count through the machine cycles of the
instruction, and nothing a program can see changes until the last of them.

`cycle_stepping` says so for every sequence of presses, КМ/ЦК switchings, key changes and
attempts to run: the visible state is always that of whole instructions executed one after the
other, each with the keys that were down when its last press came.

## Main definitions

* `Machine.pressCompletes` — whether a press of ШГ completes an instruction
* `Machine.completions` — the keys in force at each completing press of a sequence of calls
* `Machine.CycleByCycle` — what the presses of one instruction show and do

## Main results

* `Machine.arch_pressStep` — a press is one instruction, or changes nothing visible
* `Machine.cycleByCycle` — the presses of one instruction, from a fresh start
* `Machine.cycle_stepping` — all of it, over every sequence of calls
-/

namespace Umk80

open Interaction

/-! ## Traces by index -/

theorem McTrace.getElem?_entries {t : McTrace} {i : ℕ} (h : t.mcCount.toNat ≤ 6)
    (hi : i < t.mcCount.toNat) :
    t.entries[i]? = some (readAt t.mcStatus i, readAt t.mcAddr i, readAt t.mcData i) := by
  have h6 : i < 6 := hi.trans_le h
  rw [entries, List.getElem?_take_of_lt hi, List.getElem?_eq_getElem (by simpa using h6),
    List.getElem_ofFn]
  simp [readAt, h6, cycle]

/-- The stored machine cycle `i`. -/
def StepState.cycle (s : StepState) (i : ℕ) : Cycle :=
  (readAt s.mcStatus i, readAt s.mcAddr i, readAt s.mcData i)

/-- What the LED panel shows. -/
def Panel.cycle (p : Panel) : Cycle := (p.status, p.address, p.data)

theorem cycle_storeTrace (s : StepState) {t : McTrace} {i : ℕ} (h : t.mcCount.toNat ≤ 6)
    (hi : i < t.mcCount.toNat) : t.entries[i]? = some ((Machine.storeTrace s t).cycle i) := by
  have h6 : i < 6 := hi.trans_le h
  rw [McTrace.getElem?_entries h hi]
  simp [StepState.cycle, Machine.storeTrace, readAt, h6, hi]

namespace Machine

/-! ## What the panel functions leave alone -/

theorem panelUpdate_eq (m : Machine) : ∃ panel, m.panelUpdate = { m with panel := panel } := by
  unfold panelUpdate panelShowMc
  split
  · split
    · exact ⟨_, rfl⟩
    · exact ⟨m.panel, rfl⟩
  · exact ⟨m.panel, rfl⟩

@[simp] theorem arch_panelUpdate (m : Machine) : m.panelUpdate.arch = m.arch := by
  obtain ⟨panel, h⟩ := m.panelUpdate_eq
  rw [h]
  rfl

@[simp] theorem kbd_panelUpdate (m : Machine) : m.panelUpdate.kbd = m.kbd := by
  obtain ⟨panel, h⟩ := m.panelUpdate_eq
  rw [h]

@[simp] theorem step_panelUpdate (m : Machine) : m.panelUpdate.step = m.step := by
  obtain ⟨panel, h⟩ := m.panelUpdate_eq
  rw [h]

@[simp] theorem cpu_panelUpdate (m : Machine) : m.panelUpdate.cpu = m.cpu := by
  obtain ⟨panel, h⟩ := m.panelUpdate_eq
  rw [h]

/-- **A run that ends.** With РБ/ШГ latched nothing happens; otherwise the loop ends, and the panel
is refreshed. -/
theorem runCycles_cases {fuel : ℕ} {m m' : Machine} {cycles r : U64}
    (h : m.runCycles fuel cycles = some (r, m')) : (m.step.latchStep = true ∧ r = 0 ∧ m' = m) ∨
      m.step.latchStep = false ∧ ∃ m₁,
        WhileLoop.whileLoop (fun m' : Machine => m'.cpu.cycles - m.cpu.cycles < cycles)
          (·.execOne.2) fuel m = some m₁ ∧
        r = m₁.cpu.cycles - m.cpu.cycles ∧ m' = m₁.panelUpdate := by
  rw [runCycles] at h
  cases hl : m.step.latchStep with
  | true =>
    rw [hl, if_pos rfl, Option.some.injEq, Prod.mk.injEq] at h
    exact Or.inl ⟨rfl, h.1.symm, h.2.symm⟩
  | false =>
    rw [hl, if_neg Bool.false_ne_true] at h
    obtain ⟨m₁, hloop, hret⟩ := Option.bind_eq_some_iff.mp h
    obtain ⟨rfl, rfl⟩ := Prod.mk.inj (Option.some.inj hret)
    exact Or.inr ⟨rfl, m₁, hloop, congrArg (·.cycles - _) m₁.cpu_panelUpdate, rfl⟩

theorem runCycles_of_call {fuel : ℕ} {m m' : Machine} {cycles : U64}
    (h : m.call fuel (.runCycles cycles) = some m') :
    ∃ r, m.runCycles fuel cycles = some (r, m') := by
  obtain ⟨⟨r, m₁⟩, hrun, rfl⟩ := Option.map_eq_some_iff.mp h
  exact ⟨r, hrun⟩

theorem loadRam_frame (m : Machine) (addr : U16) (data : List U8) :
    (m.loadRam addr data).cpu = m.cpu ∧ (m.loadRam addr data).step = m.step := by
  induction data generalizing m addr with
  | nil => exact ⟨rfl, rfl⟩
  | cons v data ih => exact ih (m.poke addr v) (addr + 1)

/-- After an instruction the panel shows its last machine cycle. -/
theorem cycle_panelUpdate {m : Machine} (hpos : 1 ≤ m.cpu.mcCount.toNat)
    (hle : m.cpu.mcCount.toNat ≤ 6) :
    m.cpu.entries[m.cpu.mcCount.toNat - 1]? = some m.panelUpdate.panel.cycle := by
  have h0 : (0 : U8) < m.cpu.mcCount := hpos
  have hlast : m.cpu.mcCount.toNat - 1 < m.cpu.mcCount.toNat := by omega
  rw [McTrace.getElem?_entries hle hlast, panelUpdate, if_pos h0, panelShowMc, if_pos hlast]
  rfl

/-! ## One press -/

/-- The machine after the dry run of a first press. -/
def probed (m : Machine) : Machine := if m.step.mcIndex = 0 then m.stepProbe else m

theorem arch_probed (m : Machine) : m.probed.arch = m.arch := by
  unfold probed
  split
  · exact m.arch_stepProbe
  · rfl

theorem kbd_probed (m : Machine) : m.probed.kbd = m.kbd := by
  unfold probed
  split
  · exact m.kbd_stepProbe
  · rfl

theorem arch_execOne_probed (m : Machine) : m.probed.execOne.2.arch = m.execOne.2.arch :=
  (arch_execOne_congr m.arch_probed m.kbd_probed).2

theorem stepMachineCycle_of_last {m : Machine}
    (h : m.probed.step.mcTotal.toNat ≤ m.probed.step.mcIndex.toNat + 1) :
    m.stepMachineCycle = (true, { m.probed.execOne.2.panelUpdate with
      step := { m.probed.execOne.2.panelUpdate.step with mcIndex := 0 } }) :=
  if_pos h

theorem stepMachineCycle_of_more {m : Machine}
    (h : ¬ m.probed.step.mcTotal.toNat ≤ m.probed.step.mcIndex.toNat + 1) :
    m.stepMachineCycle = (false, { m.probed.panelShowStored m.probed.step.mcIndex.toNat with
      step := { m.probed.step with mcIndex := m.probed.step.mcIndex + 1 } }) :=
  if_neg h

/-- Whether a press of ШГ completes an instruction. -/
def pressCompletes (m : Machine) : Bool := !m.step.latchCycle || m.stepMachineCycle.1

theorem pressStep_of_cycle {m : Machine} (hl : m.step.latchStep = true)
    (hc : m.step.latchCycle = true) : m.pressStep = m.stepMachineCycle.2 := by
  simp [pressStep, hl, hc]

theorem pressStep_of_instruction {m : Machine} (hl : m.step.latchStep = true)
    (hc : m.step.latchCycle = false) : m.pressStep = m.stepInstruction.2 := by
  simp [pressStep, hl, hc]

theorem arch_stepInstruction (m : Machine) : m.stepInstruction.2.arch = m.execOne.2.arch := by
  rw [stepInstruction, arch_panelUpdate]
  rfl

theorem arch_stepMachineCycle (m : Machine) :
    m.stepMachineCycle.2.arch = if m.stepMachineCycle.1 then m.execOne.2.arch else m.arch := by
  by_cases h : m.probed.step.mcTotal.toNat ≤ m.probed.step.mcIndex.toNat + 1
  · have hall : m.probed.execOne.2.panelUpdate.arch = m.execOne.2.arch := by
      rw [arch_panelUpdate, arch_execOne_probed]
    rw [stepMachineCycle_of_last h]
    exact hall
  · rw [stepMachineCycle_of_more h]
    exact m.arch_probed

/-- **A press of ШГ** is one instruction if it completes one, and otherwise changes nothing a
program can see. -/
theorem arch_pressStep {m : Machine} (hl : m.step.latchStep = true) :
    m.pressStep.arch = if m.pressCompletes then m.execOne.2.arch else m.arch := by
  cases hc : m.step.latchCycle with
  | false =>
    rw [pressStep_of_instruction hl hc, arch_stepInstruction, pressCompletes, hc]
    rfl
  | true =>
    rw [pressStep_of_cycle hl hc, arch_stepMachineCycle, pressCompletes, hc]
    rfl

/-- The switches stay as they are when ШГ is pressed, and so do the keys. -/
theorem latches_stepMachineCycle (m : Machine) :
    m.stepMachineCycle.2.step.latchStep = m.step.latchStep ∧
      m.stepMachineCycle.2.step.latchCycle = m.step.latchCycle ∧
      m.stepMachineCycle.2.kbd = m.kbd := by
  have hs : m.probed.step.latchStep = m.step.latchStep ∧
      m.probed.step.latchCycle = m.step.latchCycle := by
    unfold probed
    split
    · rw [step_stepProbe]
      exact ⟨rfl, rfl⟩
    · exact ⟨rfl, rfl⟩
  by_cases h : m.probed.step.mcTotal.toNat ≤ m.probed.step.mcIndex.toNat + 1
  · rw [stepMachineCycle_of_last h]
    simp [hs, execOne_frame, kbd_probed]
  · rw [stepMachineCycle_of_more h]
    exact ⟨hs.1, hs.2, m.kbd_probed⟩

/-! ## The presses of one instruction -/

/-- What the presses of ШГ do, with КМ/ЦК latched and no instruction in progress: with `n` the
number of machine cycles of the instruction, the first `n - 1` presses change nothing visible,
the `n`-th executes it, and press `i` shows cycle `i` on the panel. -/
structure CycleByCycle (m : Machine) : Prop where
  unchanged : ∀ i < m.execOne.2.cpu.mcCount.toNat, (pressStep^[i] m).arch = m.arch
  incomplete : ∀ i, i + 1 < m.execOne.2.cpu.mcCount.toNat →
    (pressStep^[i] m).pressCompletes = false
  completes : ∀ i, i + 1 = m.execOne.2.cpu.mcCount.toNat →
    (pressStep^[i] m).pressCompletes = true
  executed : (pressStep^[m.execOne.2.cpu.mcCount.toNat] m).arch = m.execOne.2.arch
  shown : ∀ i < m.execOne.2.cpu.mcCount.toNat,
    m.execOne.2.cpu.entries[i]? = some (pressStep^[i + 1] m).panel.cycle

/-- After `i` presses, with the instruction of `m` in progress. -/
structure Midway (m : Machine) (i : ℕ) (p : Machine) : Prop where
  arch : p.arch = m.arch
  kbd : p.kbd = m.kbd
  latchStep : p.step.latchStep = true
  latchCycle : p.step.latchCycle = true
  index : p.probed.step.mcIndex.toNat = i
  total : p.probed.step.mcTotal = m.execOne.2.cpu.mcCount
  stored : ∀ j < m.execOne.2.cpu.mcCount.toNat,
    m.execOne.2.cpu.entries[j]? = some (p.probed.step.cycle j)

theorem midway_zero {m : Machine} (hl : m.step.latchStep = true) (hc : m.step.latchCycle = true)
    (hi : m.step.mcIndex = 0) : Midway m 0 m := by
  have hp : m.probed.step = storeTrace m.step m.execOne.2.cpu.toMcTrace := by
    rw [probed, if_pos hi, step_stepProbe]
  have hle : m.execOne.2.cpu.mcCount.toNat ≤ 6 := m.traceOf_execOne.le_five.trans (by decide)
  refine ⟨rfl, rfl, hl, hc, ?_, ?_, ?_⟩
  · rw [hp]
    exact congrArg BitVec.toNat hi
  · rw [hp]
    rfl
  · intro j hj
    rw [hp]
    exact cycle_storeTrace m.step hle hj

theorem Midway.pressCompletes_eq {m p : Machine} {i : ℕ} (h : Midway m i p) :
    p.pressCompletes = decide (m.execOne.2.cpu.mcCount.toNat ≤ i + 1) := by
  rw [pressCompletes, h.latchCycle, Bool.not_true, Bool.false_or]
  by_cases hlast : p.probed.step.mcTotal.toNat ≤ p.probed.step.mcIndex.toNat + 1
  · rw [stepMachineCycle_of_last hlast]
    rw [h.total, h.index] at hlast
    simp [hlast]
  · rw [stepMachineCycle_of_more hlast]
    rw [h.total, h.index] at hlast
    simp [hlast]

/-- **An intermediate press** shows the stored cycle and moves on. -/
theorem Midway.press {m p : Machine} {i : ℕ} (h : Midway m i p)
    (hi : i + 1 < m.execOne.2.cpu.mcCount.toNat) : Midway m (i + 1) p.pressStep ∧
      m.execOne.2.cpu.entries[i]? = some p.pressStep.panel.cycle := by
  have hfive := m.traceOf_execOne.le_five
  have hmore : ¬ p.probed.step.mcTotal.toNat ≤ p.probed.step.mcIndex.toNat + 1 := by
    rw [h.total, h.index]
    omega
  have hpress := pressStep_of_cycle h.latchStep h.latchCycle
  rw [stepMachineCycle_of_more hmore] at hpress
  have hindex : (p.probed.step.mcIndex + 1).toNat = i + 1 := by
    have hlt := h.index
    rw [toNat_succ (by omega), h.index]
  have hstep : p.pressStep.probed.step =
      { p.probed.step with mcIndex := p.probed.step.mcIndex + 1 } := by
    have hne : p.probed.step.mcIndex + 1 ≠ 0 := by
      intro h0
      rw [h0] at hindex
      exact Nat.succ_ne_zero i hindex.symm
    rw [probed, hpress]
    exact congrArg Machine.step (if_neg hne)
  obtain ⟨hls, hlc, hkbd⟩ := p.latches_stepMachineCycle
  rw [← pressStep_of_cycle h.latchStep h.latchCycle] at hls hlc hkbd
  refine ⟨⟨?_, by rw [hkbd, h.kbd], by rw [hls, h.latchStep], by rw [hlc, h.latchCycle],
    ?_, ?_, ?_⟩, ?_⟩
  · rw [arch_pressStep h.latchStep, h.pressCompletes_eq, h.arch]
    simp [Nat.not_le.mpr hi]
  · rw [hstep]
    exact hindex
  · rw [hstep]
    exact h.total
  · intro j hj
    rw [hstep]
    exact h.stored j hj
  · rw [h.stored i (by omega), hpress, ← h.index]
    rfl

/-- **The last press** executes the instruction and shows its last cycle. -/
theorem Midway.lastPress {m p : Machine} {i : ℕ} (h : Midway m i p)
    (hi : i + 1 = m.execOne.2.cpu.mcCount.toNat) : p.pressStep.arch = m.execOne.2.arch ∧
      m.execOne.2.cpu.entries[i]? = some p.pressStep.panel.cycle := by
  have hlast : p.probed.step.mcTotal.toNat ≤ p.probed.step.mcIndex.toNat + 1 := by
    rw [h.total, h.index]
    omega
  have harch := (arch_execOne_congr h.arch h.kbd).2
  constructor
  · rw [arch_pressStep h.latchStep, h.pressCompletes_eq, harch]
    simp [hi.ge]
  · rw [← p.arch_execOne_probed] at harch
    have hcpu : p.probed.execOne.2.cpu = m.execOne.2.cpu := congrArg Arch.cpu harch
    have hfive := m.traceOf_execOne.le_five
    rw [← hcpu] at hfive hi ⊢
    have hcycle := cycle_panelUpdate (m := p.probed.execOne.2) (by omega) (by omega)
    rw [← hi, Nat.add_sub_cancel] at hcycle
    rw [hcycle, pressStep_of_cycle h.latchStep h.latchCycle, stepMachineCycle_of_last hlast]

theorem midway_iterate {m : Machine} (h0 : Midway m 0 m) {i : ℕ}
    (hi : i < m.execOne.2.cpu.mcCount.toNat) : Midway m i (pressStep^[i] m) := by
  induction i with
  | zero => exact h0
  | succ i ih =>
    rw [Function.iterate_succ_apply']
    exact ((ih (by omega)).press hi).1

/-- **The presses of one instruction.** -/
theorem cycleByCycle {m : Machine} (hl : m.step.latchStep = true)
    (hc : m.step.latchCycle = true) (hi : m.step.mcIndex = 0) : CycleByCycle m := by
  have h0 := midway_zero hl hc hi
  have hpos := m.traceOf_execOne.pos
  have hlast (i : ℕ) (hi : i + 1 = m.execOne.2.cpu.mcCount.toNat) :=
    (midway_iterate h0 (show i < _ by omega)).lastPress hi
  refine ⟨fun i hi => (midway_iterate h0 hi).arch, ?_, ?_, ?_, ?_⟩
  · intro i hi
    rw [(midway_iterate h0 (by omega)).pressCompletes_eq]
    simp [Nat.not_le.mpr hi]
  · intro i hi
    rw [(midway_iterate h0 (by omega)).pressCompletes_eq]
    simp [hi.ge]
  · obtain ⟨k, hk⟩ := Nat.exists_eq_add_of_le' hpos
    rw [hk, Function.iterate_succ_apply']
    exact (hlast k hk.symm).1
  · intro i hi
    rw [Function.iterate_succ_apply']
    rcases Nat.lt_or_eq_of_le (Nat.succ_le_of_lt hi) with hmore | heq
    · exact ((midway_iterate h0 hi).press hmore).2
    · exact (hlast i heq).2

/-! ## Sequences of calls -/

end Machine

/-- The calls considered here: ШГ, КМ/ЦК, the keys, and attempts to run. -/
def Call.isStepping : Call → Bool
  | .pressStep => true
  | .setSwitch .cycle _ => true
  | .setKey _ _ _ => true
  | .runCycles _ => true
  | _ => false

namespace Machine

/-- `execOne` applied once for each keyboard of the list, with those keys pressed. -/
def execWith (m : Machine) (kbds : List Keyboard) : Machine :=
  kbds.foldl (fun m kbd => (m.withKeys kbd).execOne.2) m

/-- The keys in force at each press of ШГ that completed an instruction. -/
def completions (fuel : ℕ) : Machine → List Call → List Keyboard
  | _, [] => []
  | m, c :: cs =>
    (if c = .pressStep ∧ m.pressCompletes then [m.kbd] else []) ++
      match m.call fuel c with
      | some m' => m'.completions fuel cs
      | none => []

theorem arch_execWith_congr {m m' : Machine} (ha : m.arch = m'.arch) (kbds : List Keyboard) :
    (m.execWith kbds).arch = (m'.execWith kbds).arch := by
  induction kbds generalizing m m' with
  | nil => exact ha
  | cons kbd kbds ih =>
    have hkeys : (m.withKeys kbd).arch = (m'.withKeys kbd).arch := ha
    exact ih (arch_execOne_congr hkeys rfl).2

/-- One call of the kind considered returns, keeps РБ/ШГ latched, and is an instruction only if
it is a completing press. -/
theorem call_stepping {m : Machine} (hl : m.step.latchStep = true) {c : Call}
    (hc : c.isStepping = true) (fuel : ℕ) : ∃ m', m.call fuel c = some m' ∧
      m'.step.latchStep = true ∧
      m'.arch = if c = .pressStep ∧ m.pressCompletes then m.execOne.2.arch else m.arch := by
  cases c with
  | pressStep =>
    refine ⟨m.pressStep, rfl, ?_, ?_⟩
    · cases hlc : m.step.latchCycle with
      | false => simp [pressStep_of_instruction hl hlc, stepInstruction, hl]
      | true => rw [pressStep_of_cycle hl hlc, m.latches_stepMachineCycle.1, hl]
    · simp [arch_pressStep hl]
  | setSwitch sw latched =>
    cases sw with
    | step => exact absurd hc Bool.false_ne_true
    | cycle => exact ⟨_, rfl, hl, rfl⟩
  | setKey col row down =>
    refine ⟨_, rfl, ?_⟩
    unfold setKey
    split
    · exact ⟨hl, rfl⟩
    · exact ⟨hl, rfl⟩
  | runCycles cycles =>
    refine ⟨m, ?_, hl, rfl⟩
    simp [call, runCycles, hl]
  | _ => exact absurd hc Bool.false_ne_true

/-- **Stepping is transparent.** Start from any machine with РБ/ШГ latched and make any calls of
the kind considered. All of them return. What a program can see is then what whole instructions
give, one for each completing press, with the keys of that press. The next press of ШГ completes
an instruction if КМ/ЦК is released, and if it is latched with no instruction in progress the
next presses go through its machine cycles. -/
theorem cycle_stepping (m : Machine) (hl : m.step.latchStep = true) (fuel : ℕ) (cs : List Call)
    (hcs : ∀ c ∈ cs, c.isStepping = true) : ∃ m', m.calls fuel cs = some m' ∧
      m'.arch = (m.execWith (m.completions fuel cs)).arch ∧
      (m'.step.latchCycle = false →
        m'.pressCompletes = true ∧ m'.pressStep.arch = m'.execOne.2.arch) ∧
      (m'.step.latchCycle = true → m'.step.mcIndex = 0 → CycleByCycle m') := by
  induction cs generalizing m with
  | nil =>
    refine ⟨m, rfl, rfl, ?_, fun hc hi => cycleByCycle hl hc hi⟩
    intro hc
    rw [pressStep_of_instruction hl hc, arch_stepInstruction, pressCompletes, hc]
    exact ⟨rfl, rfl⟩
  | cons c cs ih =>
    obtain ⟨m₁, hcall, hl₁, harch₁⟩ := call_stepping hl (hcs c List.mem_cons_self) fuel
    obtain ⟨m', hcalls, harch, hrest⟩ := ih m₁ hl₁ fun c hc => hcs c (List.mem_cons_of_mem _ hc)
    refine ⟨m', ?_, ?_, hrest⟩
    · rw [calls, hcall]
      exact hcalls
    · rw [harch, completions, hcall]
      by_cases hp : c = .pressStep ∧ m.pressCompletes
      · rw [if_pos hp] at harch₁ ⊢
        exact arch_execWith_congr harch₁ _
      · rw [if_neg hp] at harch₁ ⊢
        exact arch_execWith_congr harch₁ _

/-- `LXI B,1234H; PUSH B` in ROM, with РБ/ШГ latched. -/
def lxiPush : Machine :=
  ((init .rev2).loadRom 0 [0x01, 0x34, 0x12, 0xC5]).2.setSwitch .step true

/-- The three machine cycles of `LXI`, with a key going down in between. -/
def threePresses : List Call :=
  [.setSwitch .cycle true, .pressStep, .pressStep, .setKey 0 1 true, .pressStep]

/-- Two presses into `PUSH` only `LXI` has been executed, and where `PUSH` starts its presses go
through its cycles. -/
theorem cycle_stepping_lxiPush :
    (∃ m', lxiPush.calls 0 (threePresses ++ [.pressStep, .pressStep]) = some m' ∧
      m'.arch = (lxiPush.execWith [(lxiPush.setKey 0 1 true).kbd]).arch) ∧
    ∃ m', lxiPush.calls 0 threePresses = some m' ∧ CycleByCycle m' := by
  have hone : lxiPush.completions 0 (threePresses ++ [.pressStep, .pressStep]) =
      [(lxiPush.setKey 0 1 true).kbd] := rfl
  have hstep : (lxiPush.calls 0 threePresses).map
      (fun m => (m.step.latchCycle, m.step.mcIndex)) = some (true, 0) := rfl
  constructor
  · obtain ⟨m', hcalls, harch, -⟩ := cycle_stepping lxiPush rfl 0
      (threePresses ++ [.pressStep, .pressStep]) (by decide)
    rw [hone] at harch
    exact ⟨m', hcalls, harch⟩
  · obtain ⟨m', hcalls, -, -, hcycles⟩ := cycle_stepping lxiPush rfl 0 threePresses (by decide)
    rw [hcalls, Option.map_some, Option.some.injEq, Prod.mk.injEq] at hstep
    exact ⟨m', hcalls, hcycles hstep.1 hstep.2⟩

end Machine

end Umk80
