import Umk80.Board
import Umk80.Lib.WhileLoop

/-!
# The machine

`umk_machine_t` and its API, from `core/src/machine.c`: the board with its processor, the LED
panel and the single-step mode. Single-step mode is where the machine is more than an
interpreter: with КМ/ЦК latched, a first press runs the instruction dry to learn its machine
cycles, undoes everything through the journal, and the presses that follow show one cycle each
until the last one runs the instruction for real.

The single-step port lives in `Board`, where the bus callbacks reach it; the other fields of
`umk_step_t` are `StepState`.

## Main definitions

* `Machine` — the whole state
* `Machine.execOne` — one instruction against the board
* `Machine.stepProbe`, `Machine.stepMachineCycle` — the dry run, and a press with КМ/ЦК latched
* `Call`, `Machine.call`, `Machine.calls` — the calls of the API, and sequences of them
-/

namespace Umk80

open Interaction WhileLoop

/-- `umk_panel_t`. -/
structure Panel where
  address : U16
  data : U8
  status : U8
  faultP5 : Bool
  faultM5 : Bool
  faultP12 : Bool
deriving DecidableEq

/-- `umk_step_t`, without the single-step port. -/
structure StepState where
  latchStep : Bool
  latchCycle : Bool
  waiting : Bool
  mcIndex : U8
  mcTotal : U8
  mcStatus : Fin 6 → U8
  mcAddr : Fin 6 → U16
  mcData : Fin 6 → U8

/-- `umk_rev_t`. -/
inductive Rev
  | rev1
  | rev2
deriving DecidableEq

/-- `umk_switch_t`. -/
inductive Switch
  | step
  | cycle
deriving DecidableEq

/-- `umk_digit_order_t`. -/
inductive DigitOrder
  | bit0Left
  | bit0Right
deriving DecidableEq

/-- `umk_machine_t`. -/
structure Machine extends Board where
  rev : Rev
  clockHz : U32
  romPresent : Bool
  cpu : I8080
  panel : Panel
  step : StepState

namespace Machine

/-! ## Panel -/

/-- `panel_show_mc`. -/
def panelShowMc (m : Machine) (i : ℕ) : Machine :=
  if i < m.cpu.mcCount.toNat then
    { m with panel := { m.panel with
        address := readAt m.cpu.mcAddr i
        data := readAt m.cpu.mcData i
        status := readAt m.cpu.mcStatus i } }
  else m

/-- `panel_update`. -/
def panelUpdate (m : Machine) : Machine :=
  if 0 < m.cpu.mcCount then m.panelShowMc (m.cpu.mcCount.toNat - 1) else m

/-- `umk_set_power_fault`. -/
def setPowerFault (m : Machine) (p5 m5 p12 : Bool) : Machine :=
  { m with panel := { m.panel with faultP5 := p5, faultM5 := m5, faultP12 := p12 } }

/-! ## Lifecycle -/

/-- `umk_init`. -/
def init (rev : Rev) : Machine where
  romSize := ROM_MAX
  ramSize := if rev = .rev1 then 1024 else RAM_MAX
  rom := fun _ => 0
  ram := fun _ => 0
  ppi := Ppi.writeControl ⟨0, 0, 0, 0, false, false, false, false⟩ 0x9B
  display :=
    { energy := fun _ _ => 0
      energyDigit := fun _ => 0
      total := 0
      integratedTo := 0
      tauCycles := 2000000 / 50
      decayAcc := 0
      bit0IsLeft := true }
  kbd := ⟨fun _ _ => false⟩
  dbgPort := 0
  stepStartCycles := 0
  unmappedIoWrites := 0
  trial := false
  trialN := 0
  trialIdx := fun _ => 0
  trialOld := fun _ => 0
  rev := rev
  clockHz := 2000000
  romPresent := false
  cpu := I8080.reset
  panel := ⟨0, 0, 0, false, false, false⟩
  step := ⟨false, false, false, 0, 0, fun _ => 0, fun _ => 0, fun _ => 0⟩

/-- `umk_load_rom`: whether the image fitted, and the machine. -/
def loadRom (m : Machine) (offset : U16) (data : List U8) : Bool × Machine :=
  if m.romSize.toNat < offset.toNat + data.length then (false, m)
  else
    (true, { m with
      rom := fun i => if offset.toNat ≤ i then data.getD (i - offset.toNat) (m.rom i) else m.rom i
      romPresent := true })

/-- `umk_poke`. -/
def poke (m : Machine) (addr : U16) (val : U8) : Machine :=
  { m with toBoard := m.toBoard.poke addr val }

/-- `umk_load_ram`. -/
def loadRam (m : Machine) (addr : U16) : List U8 → Machine
  | [] => m
  | v :: data => (m.poke addr v).loadRam (addr + 1) data

/-- `umk_display_clear_accumulator`. -/
def displayClearAccumulator (m : Machine) : Machine :=
  { m with display := m.display.clearAccumulator m.cpu.cycles }

/-- `umk_display_set_digit_order`. -/
def displaySetDigitOrder (m : Machine) (order : DigitOrder) : Machine :=
  displayClearAccumulator
    { m with display := { m.display with bit0IsLeft := order == .bit0Left } }

/-- `umk_display_set_persistence`. -/
def displaySetPersistence (m : Machine) (tau : U32) : Machine :=
  { m with display := m.display.setPersistence tau }

/-- `umk_reset`: the СБ button. -/
def reset (m : Machine) : Machine :=
  let m := { m with
    cpu := I8080.reset
    ppi := m.ppi.writeControl 0x9B
    step := { m.step with waiting := m.step.latchStep, mcIndex := 0 }
    stepStartCycles := 0 }
  let m := m.displayClearAccumulator
  { m with panel := { m.panel with address := 0, data := 0, status := 0 } }

/-- `umk_interrupt`: the ПР button, RST 7. -/
def interrupt (m : Machine) : Machine := { m with cpu := m.cpu.interrupt 0xFF }

/-- `umk_set_key`. -/
def setKey (m : Machine) (col row : ℕ) (down : Bool) : Machine :=
  if h : col < 6 ∧ row < 4 then
    { m with kbd := ⟨Function.update m.kbd.pressed ⟨col, h.1⟩
        (Function.update (m.kbd.pressed ⟨col, h.1⟩) ⟨row, h.2⟩ down)⟩ }
  else m

/-- `umk_release_all_keys`. -/
def releaseAllKeys (m : Machine) : Machine := { m with kbd := ⟨fun _ _ => false⟩ }

/-! ## Execution -/

/-- Note when the instruction in progress starts. -/
def started (m : Machine) : Board := { m.toBoard with stepStartCycles := m.cpu.cycles }

/-- `exec_one`: one instruction, and the display up to its end. -/
def execOne (m : Machine) : ℕ × Machine :=
  let r := (I8080.step.run m.cpu).run busHandler m.started
  (r.1.1, { m with toBoard := { r.2 with toChips := r.2.displayAdvance r.1.2.cycles },
                   cpu := r.1.2 })

/-- `umk_step_instruction`. -/
def stepInstruction (m : Machine) : ℕ × Machine :=
  let r := m.execOne
  (r.1, { r.2 with step := { r.2.step with mcIndex := 0 } }.panelUpdate)

/-- Copy the machine-cycle trace of the processor. -/
def storeTrace (s : StepState) (t : McTrace) : StepState :=
  { s with
    mcTotal := t.mcCount
    mcStatus := fun i => if (i : ℕ) < t.mcCount.toNat then t.mcStatus i else s.mcStatus i
    mcAddr := fun i => if (i : ℕ) < t.mcCount.toNat then t.mcAddr i else s.mcAddr i
    mcData := fun i => if (i : ℕ) < t.mcCount.toNat then t.mcData i else s.mcData i }

/-- `step_probe`: run the instruction dry, keep its trace, undo everything. -/
def stepProbe (m : Machine) : Machine :=
  let p := (execOne { m with trial := true, trialN := 0 }).2
  let p := { p with step := storeTrace p.step p.cpu.toMcTrace }
  { p with
    ram := p.toJournal.undo p.trialN.toNat p.ram
    trial := false
    trialN := 0
    cpu := m.cpu
    ppi := m.ppi
    display := m.display
    panel := m.panel
    stepStartCycles := m.stepStartCycles
    unmappedIoWrites := m.unmappedIoWrites
    dbgPort := m.dbgPort }

/-- Show the stored machine cycle `i` on the panel. -/
def panelShowStored (m : Machine) (i : ℕ) : Machine :=
  { m with panel := { m.panel with
      address := readAt m.step.mcAddr i
      data := readAt m.step.mcData i
      status := readAt m.step.mcStatus i } }

/-- `umk_step_machine_cycle`: whether this cycle completed the instruction, and the machine. -/
def stepMachineCycle (m : Machine) : Bool × Machine :=
  let m := if m.step.mcIndex = 0 then m.stepProbe else m
  if m.step.mcTotal.toNat ≤ m.step.mcIndex.toNat + 1 then
    let m := m.execOne.2.panelUpdate
    (true, { m with step := { m.step with mcIndex := 0 } })
  else
    let m := m.panelShowStored m.step.mcIndex.toNat
    (false, { m with step := { m.step with mcIndex := m.step.mcIndex + 1 } })

/-- `umk_run_cycles`, for at most `fuel` instructions. -/
def runCycles (fuel : ℕ) (m : Machine) (cycles : U64) : Option (U64 × Machine) :=
  if m.step.latchStep then some (0, m)
  else do
    let m' ← whileLoop (fun m' => m'.cpu.cycles - m.cpu.cycles < cycles) (·.execOne.2) fuel m
    let m' := m'.panelUpdate
    return (m'.cpu.cycles - m.cpu.cycles, m')

/-! ## Controls -/

/-- `umk_set_switch`. -/
def setSwitch (m : Machine) (sw : Switch) (latched : Bool) : Machine :=
  match sw with
  | .step =>
    let s := { m.step with latchStep := latched, waiting := latched }
    { m with step := if latched then s else { s with mcIndex := 0 } }
  | .cycle => { m with step := { m.step with latchCycle := latched, mcIndex := 0 } }

/-- `umk_press_step`. -/
def pressStep (m : Machine) : Machine :=
  if !m.step.latchStep then m
  else if m.step.latchCycle then m.stepMachineCycle.2
  else m.stepInstruction.2

end Machine

/-! ## Sequences of calls -/

/-- The calls of the API that change the machine, but for `umk_state_load`, which replaces it. -/
inductive Call
  | loadRom (offset : U16) (data : List U8)
  | loadRam (addr : U16) (data : List U8)
  | poke (addr : U16) (val : U8)
  | reset
  | interrupt
  | runCycles (cycles : U64)
  | stepInstruction
  | stepMachineCycle
  | setSwitch (sw : Switch) (latched : Bool)
  | pressStep
  | setKey (col row : ℕ) (down : Bool)
  | releaseAllKeys
  | setPowerFault (p5 m5 p12 : Bool)
  | displayClearAccumulator
  | displaySetDigitOrder (order : DigitOrder)
  | displaySetPersistence (tau : U32)
deriving DecidableEq

namespace Machine

/-- One call, or `none` if it runs out of `fuel`. -/
def call (fuel : ℕ) (m : Machine) : Call → Option Machine
  | .loadRom offset data => some (m.loadRom offset data).2
  | .loadRam addr data => some (m.loadRam addr data)
  | .poke addr val => some (m.poke addr val)
  | .reset => some m.reset
  | .interrupt => some m.interrupt
  | .runCycles cycles => (m.runCycles fuel cycles).map Prod.snd
  | .stepInstruction => some m.stepInstruction.2
  | .stepMachineCycle => some m.stepMachineCycle.2
  | .setSwitch sw latched => some (m.setSwitch sw latched)
  | .pressStep => some m.pressStep
  | .setKey col row down => some (m.setKey col row down)
  | .releaseAllKeys => some m.releaseAllKeys
  | .setPowerFault p5 m5 p12 => some (m.setPowerFault p5 m5 p12)
  | .displayClearAccumulator => some m.displayClearAccumulator
  | .displaySetDigitOrder order => some (m.displaySetDigitOrder order)
  | .displaySetPersistence tau => some (m.displaySetPersistence tau)

/-- A sequence of calls. -/
def calls (fuel : ℕ) : Machine → List Call → Option Machine
  | m, [] => some m
  | m, c :: cs => (m.call fuel c).bind fun m' => m'.calls fuel cs

end Machine

end Umk80
