import Umk80.CycleShape

/-!
# The instruction that completes is the instruction that was shown

With КМ/ЦК latched the panel shows machine cycles of an instruction that has not run yet, taken
from a dry run at the first press. Whatever happens on the panel before the last press, the
instruction that then runs should be the one shown. Switches and СБ keep this by dropping the
stored cycles, running is refused while РБ/ШГ is latched, and keys do not matter for the shape
of an instruction. ПР does not drop them: a request raised in the middle of an instruction, with
interrupts enabled and none pending before, makes the last press execute the acknowledge.

A run is observed with the list of what the intermediate presses of the instruction in progress
have shown; `Tracked` ties that list to the stored cycles and to the next instruction.

## Main definitions

* `Machine.observeAll` — a run together with what its intermediate presses have shown
* `Machine.ShownIsExecuted` — what is executed begins with what was shown, and is one cycle longer
* `Machine.LateInterrupt` — the state in which ПР changes the instruction in progress

## Main results

* `Machine.tracked_observeAll` — the invariant, over every run without a late request
* `Machine.shownIsExecuted` — in such a run the instruction that completes is the one shown
-/

namespace Umk80

open Interaction WhileLoop I8080

/-- Loading images, before a run. -/
def Call.isLoad : Call → Bool
  | .loadRom _ _ => true
  | .loadRam _ _ => true
  | _ => false

/-- The operations of the front panel. -/
def Call.isPanel : Call → Bool
  | .setSwitch _ _ => true
  | .pressStep => true
  | .setKey _ _ _ => true
  | .interrupt => true
  | .reset => true
  | .runCycles _ => true
  | _ => false

namespace Machine

/-! ## Observed runs -/

/-- What has been shown after a call that led to `m'`: nothing if no instruction is in progress,
and one more cycle after an intermediate press. -/
def shownAfter (c : Call) (m' : Machine) (shown : Shape) : Shape :=
  if m'.step.mcIndex = 0 then []
  else if c = .pressStep then shown ++ [m'.panel.cycle.shape]
  else shown

/-- A run, with what the intermediate presses of the instruction in progress have shown. -/
def observeAll (fuel : ℕ) : Machine → Shape → List Call → Option (Machine × Shape)
  | m, shown, [] => some (m, shown)
  | m, shown, c :: cs =>
    (m.call fuel c).bind fun m' => m'.observeAll fuel (shownAfter c m' shown) cs

/-- Whenever in the run a press of ШГ with КМ/ЦК latched completes an instruction after
intermediate presses, the machine cycles executed are those shown and one more. -/
def ShownIsExecuted (fuel : ℕ) (m : Machine) (cs : List Call) : Prop :=
  ∀ pre post, cs = pre ++ .pressStep :: post →
    ∀ m' shown, m.observeAll fuel [] pre = some (m', shown) → shown ≠ [] →
      m'.step.latchStep = true → m'.step.latchCycle = true → m'.pressCompletes = true →
        ∃ last, m'.pressStep.cpu.entries.map Cycle.shape = shown ++ [last]

/-- The state in which ПР changes what the press in progress will execute. -/
def LateInterrupt (m : Machine) : Prop :=
  m.step.mcIndex ≠ 0 ∧ m.cpu.inte = true ∧ m.cpu.intDelay = 0 ∧ m.cpu.intPending = false

/-- No ПР of the run comes in such a state. -/
def NoLateInterrupt (fuel : ℕ) (m : Machine) (cs : List Call) : Prop :=
  ∀ pre post, cs = pre ++ .interrupt :: post →
    ∀ m', m.calls fuel pre = some m' → ¬ m'.LateInterrupt

theorem NoLateInterrupt.tail {fuel : ℕ} {m m' : Machine} {c : Call} {cs : List Call}
    (h : NoLateInterrupt fuel m (c :: cs)) (hcall : m.call fuel c = some m') :
    NoLateInterrupt fuel m' cs := by
  intro pre post hcs m'' hcalls
  refine h (c :: pre) post (by rw [hcs, List.cons_append]) m'' ?_
  rw [calls, hcall]
  exact hcalls

/-! ## The invariant -/

/-- An instruction is in progress: the stored cycles are those of the next instruction, and the
first ones have been shown. -/
structure InProgress (m : Machine) (shown : Shape) : Prop where
  latchStep : m.step.latchStep = true
  latchCycle : m.step.latchCycle = true
  index_lt : m.step.mcIndex.toNat < m.step.mcTotal.toNat
  total : m.shape.length = m.step.mcTotal.toNat
  stored : ∀ j < m.step.mcTotal.toNat, m.shape[j]? = some (m.step.cycle j).shape
  shown : shown = m.shape.take m.step.mcIndex.toNat

/-- What holds of an observed run: requests are for RST 7, and what was shown belongs to the
instruction in progress, if there is one. -/
structure Tracked (m : Machine) (shown : Shape) : Prop where
  vector : m.cpu.intPending = true → m.cpu.intVector = 0xFF
  fresh : m.step.mcIndex = 0 → shown = []
  inProgress : m.step.mcIndex ≠ 0 → m.InProgress shown

/-- Without an instruction in progress only the request matters. -/
theorem tracked_fresh {m : Machine} (hv : m.cpu.intPending = true → m.cpu.intVector = 0xFF)
    (hi : m.step.mcIndex = 0) : Tracked m [] :=
  ⟨hv, fun _ => rfl, fun h => absurd hi h⟩

/-- A call that does not touch the stored cycles, the switches or what the next instruction
depends on. -/
theorem InProgress.of_shape {m m' : Machine} {shown : Shape} (h : m.InProgress shown)
    (hshape : m'.shape = m.shape) (hls : m'.step.latchStep = m.step.latchStep)
    (hlc : m'.step.latchCycle = m.step.latchCycle) (hi : m'.step.mcIndex = m.step.mcIndex)
    (ht : m'.step.mcTotal = m.step.mcTotal) (hc : m'.step.cycle = m.step.cycle) :
    m'.InProgress shown := by
  refine ⟨by rw [hls, h.latchStep], by rw [hlc, h.latchCycle], ?_, ?_, ?_, ?_⟩
  · rw [hi, ht]
    exact h.index_lt
  · rw [hshape, ht]
    exact h.total
  · rw [hshape, ht, hc]
    exact h.stored
  · rw [hshape, hi]
    exact h.shown

/-! ## Instructions and requests -/

theorem request_intStateAfter (op : U8) (i : IntState) :
    (intStateAfter op i).intPending = i.intPending ∧
      (intStateAfter op i).intVector = i.intVector := by
  unfold intStateAfter
  repeat' split
  all_goals exact ⟨rfl, rfl⟩

theorem request_consumeGrace (i : IntState) (d : U8) :
    (i.consumeGrace d).intPending = i.intPending ∧ (i.consumeGrace d).intVector = i.intVector := by
  unfold IntState.consumeGrace
  split
  all_goals exact ⟨rfl, rfl⟩

/-- An instruction raises no request and changes no vector. -/
theorem request_execOne (m : Machine) :
    (m.execOne.2.cpu.intPending = true → m.cpu.intPending = true) ∧
      m.execOne.2.cpu.intVector = m.cpu.intVector := by
  change ((act busHandler (m.cpu, m.started) .step).1.intPending = true → _) ∧
    (act busHandler (m.cpu, m.started) .step).1.intVector = _
  cases hack : m.cpu.acknowledges with
  | true =>
    rw [intState_step_of_acknowledges busHandler (x := (m.cpu, m.started)) hack]
    obtain ⟨hp, hv⟩ := request_intStateAfter m.cpu.intVector m.cpu.acknowledged.toIntState
    rw [hp, hv]
    exact ⟨fun h => absurd h Bool.false_ne_true, rfl⟩
  | false =>
    cases hh : m.cpu.halted with
    | true =>
      rw [intState_step_of_halted busHandler (x := (m.cpu, m.started)) hack hh]
      exact ⟨id, rfl⟩
    | false =>
      rw [intState_step_of_fetches busHandler (x := (m.cpu, m.started)) ⟨hack, hh⟩]
      obtain ⟨hp, hv⟩ := request_consumeGrace
        (intStateAfter (opcodeAt busHandler (m.cpu, m.started)) m.cpu.toIntState) m.cpu.intDelay
      obtain ⟨hp', hv'⟩ := request_intStateAfter (opcodeAt busHandler (m.cpu, m.started))
        m.cpu.toIntState
      rw [hp, hv, hp', hv']
      exact ⟨id, rfl⟩

theorem vector_execOne {m : Machine} (h : m.cpu.intPending = true → m.cpu.intVector = 0xFF) :
    m.execOne.2.cpu.intPending = true → m.execOne.2.cpu.intVector = 0xFF := by
  obtain ⟨hp, hv⟩ := m.request_execOne
  intro hpend
  rw [hv]
  exact h (hp hpend)

/-- **ПР keeps the shape of the next instruction**, unless it comes late. -/
theorem shape_interrupt_of_tracked {m : Machine} {shown : Shape} (h : Tracked m shown)
    (hi : m.step.mcIndex ≠ 0) (hlate : ¬ m.LateInterrupt) : m.interrupt.shape = m.shape := by
  by_cases hp : m.cpu.intPending = true
  · have hcpu : m.interrupt.cpu = m.cpu := by
      rw [Machine.interrupt, I8080.interrupt, ← h.vector hp, ← hp]
    exact shape_congr hcpu rfl
  · have hready : ¬ (m.cpu.inte = true ∧ m.cpu.intDelay = 0) :=
      fun hr => hlate ⟨hi, hr.1, hr.2, Bool.not_eq_true _ ▸ hp⟩
    refine shape_interrupt ?_ ?_
    · simp [acknowledges, hp]
    · simpa [acknowledges, Machine.interrupt, I8080.interrupt] using hready

/-! ## Presses -/

/-- After the dry run of a first press, or later, the stored cycles are the shape of the next
instruction. -/
theorem stored_probed {m : Machine} {shown : Shape} (h : Tracked m shown) :
    m.shape.length = m.probed.step.mcTotal.toNat ∧
      (∀ j < m.probed.step.mcTotal.toNat,
        m.shape[j]? = some (m.probed.step.cycle j).shape) ∧
      shown = m.shape.take m.probed.step.mcIndex.toNat := by
  by_cases hi : m.step.mcIndex = 0
  · have hp : m.probed.step = storeTrace m.step m.execOne.2.cpu.toMcTrace := by
      rw [probed, if_pos hi, step_stepProbe]
    have hle : m.execOne.2.cpu.mcCount.toNat ≤ 6 := m.traceOf_execOne.le_five.trans (by decide)
    rw [hp, h.fresh hi]
    refine ⟨m.length_shape, ?_, ?_⟩
    · intro j hj
      rw [shape, List.getElem?_map, cycle_storeTrace m.step hle hj, Option.map_some]
    · change [] = m.shape.take m.step.mcIndex.toNat
      rw [hi]
      rfl
  · have hp : m.probed = m := by rw [probed, if_neg hi]
    have hprog := h.inProgress hi
    rw [hp]
    exact ⟨hprog.total, hprog.stored, hprog.shown⟩

/-- **An intermediate press** shows one more cycle of the instruction in progress. -/
theorem tracked_press_of_more {m : Machine} {shown : Shape} (h : Tracked m shown)
    (hl : m.step.latchStep = true) (hc : m.step.latchCycle = true)
    (hmore : ¬ m.probed.step.mcTotal.toNat ≤ m.probed.step.mcIndex.toNat + 1) :
    Tracked m.pressStep (shownAfter .pressStep m.pressStep shown) := by
  obtain ⟨htotal, hstored, hshown⟩ := stored_probed h
  have hpress := pressStep_of_cycle hl hc
  rw [stepMachineCycle_of_more hmore] at hpress
  have harch : m.pressStep.arch = m.arch := by
    rw [hpress, ← m.arch_probed]
    rfl
  have hcpu : m.pressStep.cpu = m.cpu := congrArg Arch.cpu harch
  have hshape := shape_congr_arch harch
  obtain ⟨hls, hlc, -⟩ := m.latches_stepMachineCycle
  rw [← pressStep_of_cycle hl hc] at hls hlc
  have hfive := m.traceOf_execOne.le_five
  rw [length_shape] at htotal
  have hindex : m.pressStep.step.mcIndex.toNat = m.probed.step.mcIndex.toNat + 1 := by
    rw [hpress]
    exact toNat_succ (by omega)
  have hne : m.pressStep.step.mcIndex ≠ 0 := by
    intro h0
    rw [h0] at hindex
    cases hindex
  refine ⟨hcpu ▸ h.vector, fun h0 => absurd h0 hne, fun _ => ?_⟩
  have hmc : m.pressStep.step.mcTotal = m.probed.step.mcTotal := by rw [hpress]
  have hcyc : m.pressStep.step.cycle = m.probed.step.cycle := by
    rw [hpress]
    rfl
  refine ⟨by rw [hls, hl], by rw [hlc, hc], ?_, ?_, ?_, ?_⟩
  · rw [hindex, hmc]
    omega
  · rw [hshape, hmc, length_shape, htotal]
  · rw [hshape, hmc, hcyc]
    exact hstored
  · have hpanel : m.shape[m.probed.step.mcIndex.toNat]? = some m.pressStep.panel.cycle.shape := by
      rw [hstored _ (by omega), hpress]
      rfl
    rw [shownAfter, if_neg hne, if_pos rfl, hshape, hindex, List.take_add_one, hpanel, ← hshown]
    rfl

/-- **A completing press** executes the instruction shown. -/
theorem executed_of_last {m : Machine} {shown : Shape} (h : Tracked m shown)
    (hl : m.step.latchStep = true) (hc : m.step.latchCycle = true) (hne : shown ≠ [])
    (hcomp : m.pressCompletes = true) :
    ∃ last, m.pressStep.cpu.entries.map Cycle.shape = shown ++ [last] := by
  have hi : m.step.mcIndex ≠ 0 := fun hi => hne (h.fresh hi)
  have hp : m.probed = m := by rw [probed, if_neg hi]
  have hprog := h.inProgress hi
  have hlast : m.step.mcTotal.toNat ≤ m.step.mcIndex.toNat + 1 := by
    by_contra hmore
    rw [pressCompletes, hc, stepMachineCycle_of_more (by rwa [hp])] at hcomp
    exact Bool.false_ne_true hcomp
  have hlen : m.shape.length = m.step.mcIndex.toNat + 1 := by
    rw [hprog.total]
    have := hprog.index_lt
    omega
  have hcpu : m.pressStep.cpu = m.execOne.2.cpu := by
    have harch := arch_pressStep hl
    rw [hcomp, if_pos rfl] at harch
    exact congrArg Arch.cpu harch
  refine ⟨m.shape[m.step.mcIndex.toNat], ?_⟩
  rw [hcpu, hprog.shown, ← List.take_succ_eq_append_getElem, ← hlen, List.take_length]
  rfl

theorem tracked_press_of_completes {m : Machine} {shown : Shape} (h : Tracked m shown)
    (hl : m.step.latchStep = true) (hcomp : m.pressCompletes = true) :
    Tracked m.pressStep (shownAfter .pressStep m.pressStep shown) := by
  have harch := arch_pressStep hl
  rw [hcomp, if_pos rfl] at harch
  have hcpu : m.pressStep.cpu = m.execOne.2.cpu := congrArg Arch.cpu harch
  have hi : m.pressStep.step.mcIndex = 0 := by
    cases hc : m.step.latchCycle with
    | false => rw [pressStep_of_instruction hl hc, stepInstruction, step_panelUpdate]
    | true =>
      have hlast : m.probed.step.mcTotal.toNat ≤ m.probed.step.mcIndex.toNat + 1 := by
        by_contra hmore
        rw [pressCompletes, hc, stepMachineCycle_of_more hmore] at hcomp
        exact Bool.false_ne_true hcomp
      rw [pressStep_of_cycle hl hc, stepMachineCycle_of_last hlast]
  rw [shownAfter, if_pos hi]
  exact tracked_fresh (by rw [hcpu]; exact vector_execOne h.vector) hi

/-! ## Runs -/

/-- The invariant survives a call that leaves the processor, the stored cycles and the switches
alone. -/
theorem tracked_of_same {m m' : Machine} {shown : Shape} {c : Call} (h : Tracked m shown)
    (hcpu : m'.cpu = m.cpu) (hmem : m'.toMemory = m.toMemory)
    (hls : m'.step.latchStep = m.step.latchStep) (hlc : m'.step.latchCycle = m.step.latchCycle)
    (hi : m'.step.mcIndex = m.step.mcIndex) (ht : m'.step.mcTotal = m.step.mcTotal)
    (hcyc : m'.step.cycle = m.step.cycle) (hc : c ≠ .pressStep) :
    Tracked m' (shownAfter c m' shown) := by
  have hv : m'.cpu.intPending = true → m'.cpu.intVector = 0xFF := by
    rw [hcpu]
    exact h.vector
  by_cases h0 : m'.step.mcIndex = 0
  · rw [shownAfter, if_pos h0]
    exact tracked_fresh hv h0
  · rw [shownAfter, if_neg h0, if_neg hc]
    refine ⟨hv, fun h0' => absurd h0' h0, fun _ => ?_⟩
    have hprog := h.inProgress (by rwa [← hi])
    exact hprog.of_shape (shape_congr hcpu hmem) hls hlc hi ht hcyc

theorem tracked_of_mcIndex {m : Machine} {shown : Shape} {c : Call}
    (hv : m.cpu.intPending = true → m.cpu.intVector = 0xFF) (hi : m.step.mcIndex = 0) :
    Tracked m (shownAfter c m shown) := by
  rw [shownAfter, if_pos hi]
  exact tracked_fresh hv hi

/-- Running leaves no instruction in progress. -/
theorem fresh_runCycles {fuel : ℕ} {m m' : Machine} {cycles : U64}
    (hv : m.cpu.intPending = true → m.cpu.intVector = 0xFF) (hi : m.step.mcIndex = 0)
    (hl : m.step.latchStep = false) (h : m.call fuel (.runCycles cycles) = some m') :
    (m'.cpu.intPending = true → m'.cpu.intVector = 0xFF) ∧ m'.step.mcIndex = 0 := by
  obtain ⟨r, hrun⟩ := runCycles_of_call h
  rcases runCycles_cases hrun with ⟨hl', -, -⟩ | ⟨-, m₁, hloop, -, rfl⟩
  · exact absurd (by rw [← hl, hl']) Bool.false_ne_true
  · rw [cpu_panelUpdate, step_panelUpdate]
    refine whileLoop_inv (P := fun m : Machine =>
      (m.cpu.intPending = true → m.cpu.intVector = 0xFF) ∧ m.step.mcIndex = 0) ?_ hloop ⟨hv, hi⟩
    intro m₂ _ h₂
    exact ⟨vector_execOne h₂.1, h₂.2⟩

/-- **One operation of the panel**, ПР not coming late, keeps the invariant. -/
theorem tracked_call {fuel : ℕ} {m m' : Machine} {shown : Shape} {c : Call} (h : Tracked m shown)
    (hc : c.isPanel = true) (hcall : m.call fuel c = some m')
    (hlate : c = .interrupt → ¬ m.LateInterrupt) : Tracked m' (shownAfter c m' shown) := by
  cases c with
  | setSwitch sw latched =>
    cases hcall
    cases sw with
    | cycle => exact tracked_of_mcIndex h.vector rfl
    | step =>
      cases latched with
      | false => exact tracked_of_mcIndex h.vector rfl
      | true =>
        by_cases hi : m.step.mcIndex = 0
        · exact tracked_of_mcIndex h.vector hi
        · exact tracked_of_same h rfl rfl (h.inProgress hi).latchStep.symm rfl rfl rfl rfl
            (by simp)
  | pressStep =>
    cases hcall
    cases hl : m.step.latchStep with
    | false =>
      have hstay : m.pressStep = m := by simp [pressStep, hl]
      rw [hstay]
      by_cases hi : m.step.mcIndex = 0
      · exact tracked_of_mcIndex h.vector hi
      · rw [(h.inProgress hi).latchStep] at hl
        cases hl
    | true =>
      by_cases hcomp : m.pressCompletes = true
      · exact tracked_press_of_completes h hl hcomp
      · have hc : m.step.latchCycle = true := by
          by_contra hc
          exact hcomp (by simp [pressCompletes, hc])
        refine tracked_press_of_more h hl hc fun hlast => hcomp ?_
        rw [pressCompletes, stepMachineCycle_of_last hlast, Bool.or_true]
  | setKey col row down =>
    cases hcall
    unfold setKey
    split
    · exact tracked_of_same h rfl rfl rfl rfl rfl rfl rfl (by simp)
    · exact tracked_of_same h rfl rfl rfl rfl rfl rfl rfl (by simp)
  | interrupt =>
    cases hcall
    by_cases hi : m.step.mcIndex = 0
    · exact tracked_of_mcIndex (fun _ => rfl) hi
    · have hi' : m.interrupt.step.mcIndex ≠ 0 := hi
      rw [shownAfter, if_neg hi', if_neg (by simp)]
      refine ⟨fun _ => rfl, fun h0 => absurd h0 hi, fun _ => ?_⟩
      exact (h.inProgress hi).of_shape (shape_interrupt_of_tracked h hi (hlate rfl)) rfl rfl rfl
        rfl rfl
  | reset =>
    cases hcall
    exact tracked_of_mcIndex (fun h => absurd h Bool.false_ne_true) rfl
  | runCycles cycles =>
    cases hl : m.step.latchStep with
    | true =>
      have hstay : m' = m := by simpa [call, runCycles, hl] using hcall.symm
      rw [hstay]
      exact tracked_of_same h rfl rfl rfl rfl rfl rfl rfl (by simp)
    | false =>
      have hi : m.step.mcIndex = 0 := by
        by_contra hi
        rw [(h.inProgress hi).latchStep] at hl
        cases hl
      obtain ⟨hv', hi'⟩ := fresh_runCycles h.vector hi hl hcall
      exact tracked_of_mcIndex hv' hi'
  | _ => exact absurd hc Bool.false_ne_true

/-- **The invariant holds throughout a run** of panel operations without a late ПР. -/
theorem tracked_observeAll {fuel : ℕ} {m m' : Machine} {shown shown' : Shape} {cs : List Call}
    (h : Tracked m shown) (hcs : ∀ c ∈ cs, c.isPanel = true) (hlate : m.NoLateInterrupt fuel cs)
    (hrun : m.observeAll fuel shown cs = some (m', shown')) : Tracked m' shown' := by
  induction cs generalizing m shown with
  | nil =>
    cases hrun
    exact h
  | cons c cs ih =>
    obtain ⟨m₁, hcall, hrest⟩ := Option.bind_eq_some_iff.mp hrun
    have h₁ := tracked_call h (hcs c List.mem_cons_self) hcall
      fun hc => hlate [] cs (by rw [hc, List.nil_append]) m rfl
    exact ih h₁ (fun d hd => hcs d (List.mem_cons_of_mem _ hd)) (hlate.tail hcall) hrest

/-- Loading images before the run leaves the machine as fresh as it was. -/
theorem tracked_loads {fuel : ℕ} {m m' : Machine} {cs : List Call} (h : Tracked m [])
    (hi : m.step.mcIndex = 0) (hcs : ∀ c ∈ cs, c.isLoad = true)
    (hrun : m.calls fuel cs = some m') : Tracked m' [] := by
  induction cs generalizing m with
  | nil =>
    cases hrun
    exact h
  | cons c cs ih =>
    obtain ⟨m₁, hcall, hrest⟩ := Option.bind_eq_some_iff.mp hrun
    have hload : m₁.cpu = m.cpu ∧ m₁.step = m.step := by
      have hc := hcs c List.mem_cons_self
      cases c with
      | loadRom offset data =>
        cases hcall
        unfold loadRom
        split
        · exact ⟨rfl, rfl⟩
        · exact ⟨rfl, rfl⟩
      | loadRam addr data =>
        cases hcall
        exact m.loadRam_frame addr data
      | _ => exact absurd hc Bool.false_ne_true
    obtain ⟨hcpu, hstep⟩ := hload
    have hi₁ : m₁.step.mcIndex = 0 := by rw [hstep, hi]
    exact ih (tracked_fresh (hcpu ▸ h.vector) hi₁) hi₁
      (fun d hd => hcs d (List.mem_cons_of_mem _ hd)) hrest

/-- **The instruction that completes is the instruction that was shown.** In every run of panel
operations from a machine just initialised and loaded, in which no ПР comes in the middle of an
instruction with interrupts enabled and no request waiting, a completing press executes the
machine cycles that the intermediate presses have shown, and one more. -/
theorem shownIsExecuted (fuel : ℕ) (rev : Rev) (loads cs : List Call) (m : Machine)
    (hloads : ∀ c ∈ loads, c.isLoad = true) (hload : (init rev).calls fuel loads = some m)
    (hcs : ∀ c ∈ cs, c.isPanel = true) (hlate : m.NoLateInterrupt fuel cs) :
    m.ShownIsExecuted fuel cs := by
  intro pre post heq m' shown hrun hne hl hc hcomp
  have h0 : Tracked m [] :=
    tracked_loads (tracked_fresh (fun h => absurd h Bool.false_ne_true) rfl) rfl hloads hload
  have hpre : m.NoLateInterrupt fuel pre := by
    intro pre' post' hpre
    exact hlate pre' (post' ++ .pressStep :: post) (by rw [heq, hpre]; simp)
  have h := tracked_observeAll h0 (fun c hc => hcs c (by rw [heq]; simp [hc])) hpre hrun
  exact executed_of_last h hl hc hne hcomp

/-- `EI; NOP; MVI A,0AAH` in ROM. -/
def eiNopMvi : Machine := ((init .rev2).loadRom 0 [0xFB, 0x00, 0x3E, 0xAA]).2

/-- ПР before the program starts, then `EI; NOP` by machine cycles, and two cycles of the
acknowledge behind them. -/
def earlyRequest : List Call :=
  [.interrupt, .setSwitch .step true, .setSwitch .cycle true, .pressStep, .pressStep, .pressStep,
    .pressStep]

/-- The next press is the third of the acknowledge, and executes what the two before it showed. -/
theorem shownIsExecuted_earlyRequest :
    eiNopMvi.ShownIsExecuted 0 (earlyRequest ++ [.pressStep]) ∧
      (eiNopMvi.observeAll 0 [] earlyRequest).map (fun x => (x.2, x.1.pressCompletes,
        x.1.pressStep.cpu.entries.map Cycle.shape)) =
        some ([(CYC_INTA, 2), (CYC_STACKW, 0xFFFF)], true,
          [(CYC_INTA, 2), (CYC_STACKW, 0xFFFF), (CYC_STACKW, 0xFFFE)]) := by
  refine ⟨?_, rfl⟩
  refine shownIsExecuted 0 .rev2 [.loadRom 0 [0xFB, 0x00, 0x3E, 0xAA]] _ eiNopMvi (by decide) rfl
    (by decide) ?_
  intro pre post heq m' hpre hlate
  cases pre with
  | nil =>
    cases hpre
    exact hlate.1 rfl
  | cons c pre =>
    have hmem : Call.interrupt ∈ pre ++ .interrupt :: post := by simp
    have htail : _ = pre ++ .interrupt :: post := (List.cons.inj heq).2
    rw [← htail] at hmem
    exact absurd hmem (by decide)

/-- After `EI; NOP`, ПР between the two machine cycles of `MVI`. -/
def lateRequest : List Call :=
  [.setSwitch .step true, .pressStep, .pressStep, .setSwitch .cycle true, .pressStep, .interrupt]

/-- The first cycle of `MVI` has been shown, and the next press acknowledges the request. -/
theorem not_shownIsExecuted_lateRequest :
    ¬ eiNopMvi.ShownIsExecuted 0 (lateRequest ++ [.pressStep]) := by
  intro h
  have hrun : (eiNopMvi.observeAll 0 [] lateRequest).map (fun x => (x.2,
      x.1.step.latchStep && x.1.step.latchCycle && x.1.pressCompletes,
      x.1.pressStep.cpu.entries.map Cycle.shape)) =
      some ([(CYC_FETCH, 2)], true,
        [(CYC_INTA, 2), (CYC_STACKW, 0xFFFF), (CYC_STACKW, 0xFFFE)]) := by
    decide +kernel
  obtain ⟨⟨m', shown⟩, hobs, heq⟩ := Option.map_eq_some_iff.mp hrun
  simp only [Prod.mk.injEq, Bool.and_eq_true] at heq
  obtain ⟨hshown, ⟨⟨hl, hc⟩, hcomp⟩, hexec⟩ := heq
  obtain ⟨last, hlast⟩ := h lateRequest [] rfl m' shown hobs (by simp [hshown]) hl hc hcomp
  rw [hexec, hshown] at hlast
  exact absurd (congrArg List.length hlast) (by simp)

end Machine

end Umk80
