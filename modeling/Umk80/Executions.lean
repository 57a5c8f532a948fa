import Umk80.MachineCycle

/-!
# The instructions that calls execute

`umk_step_instruction`, a press of ШГ and the loop of `umk_run_cycles` all come down to
`exec_one`. Here the instructions of a run of calls are listed, each with the machine it starts
from; a dry run, which undoes its instruction, lists nothing.

Between two instructions of the list the counter of T states stands still and the displays are
left alone, except by the four calls made for it. So what holds of the counter and the displays,
and is kept by `exec_one`, holds all the way.

## Main definitions

* `Machine.executions`, `Machine.executionsAll` — the instructions of a call, and of a run
* `Machine.Via`, `Machine.Through` — from one machine to another through a list of instructions

## Main results

* `Machine.call_display` — what a call does to the displays
* `Machine.through_calls` — a run leads through the instructions it executes
* `Machine.Through.inv` — the induction over these instructions
-/

namespace Umk80

open WhileLoop

/-- The calls that neither clear the displays nor change their persistence. -/
def Call.keepsDisplay : Call → Bool
  | .reset => false
  | .displayClearAccumulator => false
  | .displaySetDigitOrder _ => false
  | .displaySetPersistence _ => false
  | _ => true

namespace Machine

/-! ## Lists of instructions -/

/-- The machines from which the loop of `umk_run_cycles` executes an instruction. -/
def loopExecutions (start cycles : U64) : ℕ → Machine → List Machine
  | 0, _ => []
  | n + 1, m =>
    if m.cpu.cycles - start < cycles then m :: loopExecutions start cycles n m.execOne.2 else []

/-- The machine from which the last machine cycle of an instruction executes it. -/
def cycleExecutions (m : Machine) : List Machine :=
  if m.stepMachineCycle.1 then [m.probed] else []

/-- The machines from which a call executes an instruction. -/
def executions (fuel : ℕ) (m : Machine) : Call → List Machine
  | .stepInstruction => [m]
  | .stepMachineCycle => m.cycleExecutions
  | .pressStep =>
    if !m.step.latchStep then [] else if m.step.latchCycle then m.cycleExecutions else [m]
  | .runCycles cycles =>
    if m.step.latchStep then [] else m.loopExecutions m.cpu.cycles cycles fuel
  | _ => []

/-- The machines from which a run executes an instruction. -/
def executionsAll (fuel : ℕ) : Machine → List Call → List Machine
  | _, [] => []
  | m, c :: cs =>
    m.executions fuel c ++ ((m.call fuel c).map fun m' => m'.executionsAll fuel cs).getD []

/-- The counter of T states and the displays are the same. -/
structure SameTime (m m' : Machine) : Prop where
  cycles : m'.cpu.cycles = m.cpu.cycles
  display : m'.display = m.display

/-- From a machine to another through instructions, each executed from its machine of the list. -/
inductive Through : Machine → List Machine → Machine → Prop
  | nil {m m' : Machine} (h : SameTime m m') : Through m [] m'
  | cons {m m₁ m' : Machine} {ms : List Machine} (h : SameTime m m₁)
      (hrest : Through m₁.execOne.2 ms m') : Through m (m₁ :: ms) m'

/-- The same, with any relation `R` from one instruction to the next. -/
inductive Via (R : Machine → Machine → Prop) : Machine → List Machine → Machine → Prop
  | nil {m m' : Machine} (h : R m m') : Via R m [] m'
  | cons {m m₁ m' : Machine} {ms : List Machine} (h : R m m₁)
      (hrest : Via R m₁.execOne.2 ms m') : Via R m (m₁ :: ms) m'

/-- What a program can see is the same. -/
def SameArch (m m' : Machine) : Prop := m'.arch = m.arch

variable {m m₁ m' : Machine} {ms ms' : List Machine} {R R' : Machine → Machine → Prop}

/-! ## Between instructions -/

theorem SameTime.rfl : SameTime m m := ⟨Eq.refl _, Eq.refl _⟩

theorem SameTime.trans (h : SameTime m m₁) (h' : SameTime m₁ m') : SameTime m m' :=
  ⟨by rw [h'.cycles, h.cycles], by rw [h'.display, h.display]⟩

theorem sameTime_of_arch (h : m'.arch = m.arch) : SameTime m m' :=
  ⟨congrArg (fun a : Arch => a.cpu.cycles) h, congrArg Arch.display h⟩

theorem Via.mono (h : Via R m ms m') (hR : ∀ {m m'}, R m m' → R' m m') : Via R' m ms m' := by
  induction h with
  | nil h₀ => exact .nil (hR h₀)
  | cons h₀ _ ih => exact .cons (hR h₀) ih

theorem Via.append (htrans : ∀ {a b c}, R a b → R b c → R a c) (h : Via R m ms m₁)
    (h' : Via R m₁ ms' m') : Via R m (ms ++ ms') m' := by
  induction h with
  | nil h₀ =>
    cases h' with
    | nil h₁ => exact .nil (htrans h₀ h₁)
    | cons h₁ hrest => exact .cons (htrans h₀ h₁) hrest
  | cons h₀ _ ih => exact .cons h₀ (ih h')

theorem through_iff : Through m ms m' ↔ Via SameTime m ms m' := by
  constructor
  · intro h
    induction h with
    | nil h₀ => exact .nil h₀
    | cons h₀ _ ih => exact .cons h₀ ih
  · intro h
    induction h with
    | nil h₀ => exact .nil h₀
    | cons h₀ _ ih => exact .cons h₀ ih

theorem Via.through (h : Via SameArch m ms m') : Through m ms m' :=
  through_iff.mpr (h.mono sameTime_of_arch)

theorem Through.append (h : Through m ms m₁) (h' : Through m₁ ms' m') :
    Through m (ms ++ ms') m' :=
  through_iff.mpr ((through_iff.mp h).append SameTime.trans (through_iff.mp h'))

/-- **Induction over the instructions of a run.** What `exec_one` keeps, and what depends on the
counter and the displays only, holds all the way. -/
theorem Through.inv {P : List Machine → Machine → Prop} (h : Through m ms m')
    (hsame : ∀ {l m m'}, SameTime m m' → P l m → P l m')
    (hexec : ∀ l, ∀ m₁ ∈ ms, P l m₁ → P (l ++ [m₁]) m₁.execOne.2)
    {l : List Machine} (hstart : P l m) : P (l ++ ms) m' := by
  induction h generalizing l with
  | nil h₀ =>
    rw [List.append_nil]
    exact hsame h₀ hstart
  | @cons m m₁ m' ms h₀ hrest ih =>
    have hfirst := hexec l m₁ List.mem_cons_self (hsame h₀ hstart)
    have hall := ih (fun l m₂ h₂ => hexec l m₂ (List.mem_cons_of_mem _ h₂)) hfirst
    rwa [List.append_assoc] at hall

/-! ## Calls -/

theorem via_cycle (m : Machine) : Via SameArch m m.cycleExecutions m.stepMachineCycle.2 := by
  by_cases hlast : m.probed.step.mcTotal.toNat ≤ m.probed.step.mcIndex.toNat + 1
  · rw [cycleExecutions, stepMachineCycle_of_last hlast, if_pos rfl]
    exact .cons m.arch_probed (.nil (arch_panelUpdate _))
  · rw [cycleExecutions, stepMachineCycle_of_more hlast, if_neg Bool.false_ne_true]
    exact .nil m.arch_probed

theorem via_stepInstruction (m : Machine) : Via SameArch m [m] m.stepInstruction.2 :=
  .cons (Eq.refl _) (.nil m.arch_stepInstruction)

theorem executions_pressStep (fuel : ℕ) (m : Machine) : m.executions fuel .pressStep =
    if !m.step.latchStep then [] else if m.step.latchCycle then m.cycleExecutions else [m] := rfl

theorem executions_runCycles (fuel : ℕ) (m : Machine) (cycles : U64) :
    m.executions fuel (.runCycles cycles) =
      if m.step.latchStep then [] else m.loopExecutions m.cpu.cycles cycles fuel := rfl

theorem via_pressStep (fuel : ℕ) (m : Machine) :
    Via SameArch m (m.executions fuel .pressStep) m.pressStep := by
  cases hl : m.step.latchStep with
  | false =>
    rw [pressStep, executions_pressStep, hl, Bool.not_false, if_pos rfl, if_pos rfl]
    exact .nil (Eq.refl _)
  | true =>
    cases hc : m.step.latchCycle with
    | false =>
      rw [pressStep_of_instruction hl hc, executions_pressStep, hl, hc, Bool.not_true,
        if_neg Bool.false_ne_true, if_neg Bool.false_ne_true]
      exact m.via_stepInstruction
    | true =>
      rw [pressStep_of_cycle hl hc, executions_pressStep, hl, hc, Bool.not_true,
        if_neg Bool.false_ne_true, if_pos rfl]
      exact m.via_cycle

theorem via_whileLoop {start cycles : U64} {fuel : ℕ}
    (h : whileLoop (fun m' => m'.cpu.cycles - start < cycles) (·.execOne.2) fuel m = some m') :
    Via SameArch m (m.loopExecutions start cycles fuel) m' := by
  induction fuel generalizing m with
  | zero =>
    rw [whileLoop] at h
    split at h
    · cases h
    · cases h
      exact .nil (Eq.refl _)
  | succ n ih =>
    rw [whileLoop] at h
    by_cases hcond : m.cpu.cycles - start < cycles
    · rw [if_pos (by simpa using hcond)] at h
      rw [loopExecutions, if_pos hcond]
      exact .cons (Eq.refl _) (ih h)
    · rw [if_neg (by simpa using hcond)] at h
      cases h
      rw [loopExecutions, if_neg hcond]
      exact .nil (Eq.refl _)

theorem forall_loopExecutions {P : Machine → Prop} {start cycles : U64} {n : ℕ}
    (hexec : ∀ {m}, P m → P m.execOne.2) (h : P m) :
    ∀ m₁ ∈ m.loopExecutions start cycles n, P m₁ := by
  induction n generalizing m with
  | zero => exact fun _ h₁ => absurd h₁ List.not_mem_nil
  | succ n ih =>
    rw [loopExecutions]
    split
    · exact List.forall_mem_cons.mpr ⟨h, ih (hexec h)⟩
    · exact fun _ h₁ => absurd h₁ List.not_mem_nil

/-- The loop executes an instruction only while the budget has not been spent. -/
theorem lt_of_mem_loopExecutions {start cycles : U64} {n : ℕ} :
    ∀ m₁ ∈ m.loopExecutions start cycles n, m₁.cpu.cycles - start < cycles := by
  induction n generalizing m with
  | zero => exact fun _ h₁ => absurd h₁ List.not_mem_nil
  | succ n ih =>
    rw [loopExecutions]
    split
    · exact List.forall_mem_cons.mpr ⟨‹_›, ih⟩
    · exact fun _ h₁ => absurd h₁ List.not_mem_nil

theorem via_runCycles {fuel : ℕ} {cycles : U64} (h : m.call fuel (.runCycles cycles) = some m') :
    Via SameArch m (m.executions fuel (.runCycles cycles)) m' := by
  obtain ⟨r, hrun⟩ := runCycles_of_call h
  rw [executions_runCycles]
  rcases runCycles_cases hrun with ⟨hl, -, rfl⟩ | ⟨hl, m₁, hloop, -, rfl⟩
  · rw [hl, if_pos rfl]
    exact .nil (Eq.refl _)
  · rw [hl, if_neg Bool.false_ne_true]
    have hend := (via_whileLoop hloop).append (R := SameArch) (fun h h' => Eq.trans h' h)
      (.nil (arch_panelUpdate m₁))
    rwa [List.append_nil] at hend

theorem through_runCycles {fuel : ℕ} {cycles : U64}
    (h : m.call fuel (.runCycles cycles) = some m') :
    Through m (m.executions fuel (.runCycles cycles)) m' := (via_runCycles h).through

theorem loadRam_display (m : Machine) (addr : U16) (data : List U8) :
    (m.loadRam addr data).display = m.display ∧ (m.loadRam addr data).cpu = m.cpu := by
  induction data generalizing m addr with
  | nil => exact ⟨rfl, rfl⟩
  | cons v data ih =>
    obtain ⟨hdisp, hcpu⟩ := ih (m.poke addr v) (addr + 1)
    refine ⟨?_, hcpu⟩
    rw [loadRam, hdisp]
    simp [poke, Board.toChips_poke]

/-- **One call** leads through the instructions it executes. -/
theorem through_call {fuel : ℕ} {c : Call} (hc : c.keepsDisplay = true)
    (h : m.call fuel c = some m') : Through m (m.executions fuel c) m' := by
  cases c with
  | runCycles cycles => exact through_runCycles h
  | stepInstruction => cases h; exact m.via_stepInstruction.through
  | stepMachineCycle => cases h; exact m.via_cycle.through
  | pressStep => cases h; exact (m.via_pressStep fuel).through
  | reset => exact absurd hc Bool.false_ne_true
  | displayClearAccumulator => exact absurd hc Bool.false_ne_true
  | displaySetDigitOrder order => exact absurd hc Bool.false_ne_true
  | displaySetPersistence tau => exact absurd hc Bool.false_ne_true
  | loadRom offset data =>
    cases h
    refine .nil ⟨?_, ?_⟩
    · unfold loadRom
      split
      · rfl
      · rfl
    · unfold loadRom
      split
      · rfl
      · rfl
  | loadRam addr data =>
    cases h
    obtain ⟨hdisp, hcpu⟩ := m.loadRam_display addr data
    exact .nil ⟨congrArg I8080.cycles hcpu, hdisp⟩
  | poke addr val =>
    cases h
    exact .nil ⟨rfl, by simp [poke, Board.toChips_poke]⟩
  | interrupt => cases h; exact .nil ⟨rfl, rfl⟩
  | setSwitch sw latched =>
    cases h
    cases sw with
    | step => exact .nil ⟨rfl, rfl⟩
    | cycle => exact .nil ⟨rfl, rfl⟩
  | setKey col row down =>
    cases h
    unfold setKey
    split
    · exact .nil ⟨rfl, rfl⟩
    · exact .nil .rfl
  | releaseAllKeys => cases h; exact .nil ⟨rfl, rfl⟩
  | setPowerFault p5 m5 p12 => cases h; exact .nil ⟨rfl, rfl⟩

/-- **What a call does to the displays**: it leads through the instructions it executes, or clears
them, or changes the persistence. -/
theorem call_display {fuel : ℕ} {c : Call} (h : m.call fuel c = some m') :
    (c.keepsDisplay = true ∧ Through m (m.executions fuel c) m') ∨
    (∃ d : Display, d.tauCycles = m.display.tauCycles ∧
      m'.display = d.clearAccumulator m'.cpu.cycles) ∨
    ∃ tau, c = .displaySetPersistence tau ∧ m' = m.displaySetPersistence tau := by
  have hkeeps (hc : c.keepsDisplay = true) :
      c.keepsDisplay = true ∧ Through m (m.executions fuel c) m' := ⟨hc, through_call hc h⟩
  cases c with
  | reset => cases h; exact Or.inr (Or.inl ⟨m.display, rfl, rfl⟩)
  | displayClearAccumulator => cases h; exact Or.inr (Or.inl ⟨m.display, rfl, rfl⟩)
  | displaySetDigitOrder order =>
    cases h
    exact Or.inr (Or.inl ⟨{ m.display with bit0IsLeft := order == .bit0Left }, rfl, rfl⟩)
  | displaySetPersistence tau => cases h; exact Or.inr (Or.inr ⟨tau, rfl, rfl⟩)
  | _ => exact Or.inl (hkeeps rfl)

/-- What `exec_one` keeps, and what depends on the counter and the displays only, holds of every
machine from which a call executes an instruction, whether or not the call ends. -/
theorem executions_inv {P : Machine → Prop} (hsame : ∀ {m m'}, SameTime m m' → P m → P m')
    (hexec : ∀ {m}, P m → P m.execOne.2) (h : P m) (fuel : ℕ) (c : Call) :
    ∀ m₁ ∈ m.executions fuel c, P m₁ := by
  have hone : ∀ m₁ ∈ [m], P m₁ := fun m₁ h₁ => List.mem_singleton.mp h₁ ▸ h
  have hnone : ∀ m₁ ∈ ([] : List Machine), P m₁ := fun _ h₁ => absurd h₁ List.not_mem_nil
  have hcycle : ∀ m₁ ∈ m.cycleExecutions, P m₁ := by
    rw [cycleExecutions]
    split
    · exact fun m₁ h₁ => List.mem_singleton.mp h₁ ▸ hsame (sameTime_of_arch m.arch_probed) h
    · exact hnone
  cases c with
  | stepInstruction => exact hone
  | stepMachineCycle => exact hcycle
  | pressStep =>
    rw [executions_pressStep]
    split
    · exact hnone
    · split
      · exact hcycle
      · exact hone
  | runCycles cycles =>
    rw [executions_runCycles]
    split
    · exact hnone
    · exact forall_loopExecutions hexec h
  | _ => exact hnone

theorem executionsAll_cons {fuel : ℕ} {c : Call} (h : m.call fuel c = some m') (cs : List Call) :
    m.executionsAll fuel (c :: cs) = m.executions fuel c ++ m'.executionsAll fuel cs := by
  rw [executionsAll, h]
  rfl

/-- **A run** leads through the instructions it executes. -/
theorem through_calls {fuel : ℕ} {cs : List Call} (hcs : ∀ c ∈ cs, c.keepsDisplay = true)
    (h : m.calls fuel cs = some m') : Through m (m.executionsAll fuel cs) m' := by
  induction cs generalizing m with
  | nil =>
    cases h
    exact .nil .rfl
  | cons c cs ih =>
    obtain ⟨m₁, hcall, hrest⟩ := Option.bind_eq_some_iff.mp h
    rw [executionsAll_cons hcall]
    exact (through_call (hcs c List.mem_cons_self) hcall).append
      (ih (fun d hd => hcs d (List.mem_cons_of_mem _ hd)) hrest)

end Machine

end Umk80
