import Mathlib.Tactic.SplitIfs
import Umk80.I8080Trace
import Umk80.Machine

/-!
# A dry run leaves no trace

`stepProbe` runs the instruction for real and then puts everything back. Registers, ports, display
and counters are copies; RAM is rolled back through a journal of eight entries. An instruction
makes at most five bus calls, so the journal never fills, and undoing it from the last entry to
the first restores every byte, whatever was written twice.

The part of the machine that a program can see is `Machine.arch`. An instruction's effect on it
depends on nothing else but the keys, so the dry run also foretells what the real run will do.

## Main definitions

* `Arch`, `Machine.arch` — processor, memory, ports, display, single-step port and write counter
* `Undoable` — a board from which the journal leads back

## Main results

* `Machine.arch_execOne_congr` — one instruction depends on `arch` and the keys alone
* `Machine.arch_stepProbe` — the dry run is undone
* `Machine.step_stepProbe` — and it stored the trace the real run will leave
-/

namespace Umk80

open Interaction

/-! ## What the callbacks leave alone -/

/-- The RAM after a write through the address decoder. -/
def Memory.written (mem : Memory) (addr : U16) (val : U8) : Fin 2048 → U8 :=
  match mem.decode addr with
  | some (.ram i) => Function.update mem.ram i val
  | _ => mem.ram

theorem Board.toChips_poke (b : Board) (addr : U16) (val : U8) :
    (b.poke addr val).toChips = { b.toChips with ram := b.toMemory.written addr val } := by
  unfold poke Memory.written
  cases b.decode addr with
  | none => rfl
  | some c =>
    cases c with
    | rom i => rfl
    | ram i => rfl

/-- An OUT touches ports, display and counters only. -/
theorem Chips.busOut_eq (b : Chips) (port val : U8) : ∃ ppi display dbgPort unmapped,
    b.busOut port val =
      { b with ppi := ppi, display := display, dbgPort := dbgPort,
               unmappedIoWrites := unmapped } := by
  unfold busOut
  split
  · dsimp only
    split
    · exact ⟨_, _, _, _, rfl⟩
    · exact ⟨_, _, _, _, rfl⟩
  split
  · dsimp only
    split
    · exact ⟨_, _, _, _, rfl⟩
    · exact ⟨_, _, _, _, rfl⟩
  repeat' split
  all_goals exact ⟨_, _, _, _, rfl⟩

/-- The callbacks do not look at the journal. -/
theorem busHandler_chips (o : BusOp) (b b' : Board) (h : b.toChips = b'.toChips) :
    (busHandler o b).1 = (busHandler o b').1 ∧
      (busHandler o b).2.toChips = (busHandler o b').2.toChips := by
  cases o with
  | read addr st => exact ⟨congrArg (fun c : Chips => c.peek addr) h, h⟩
  | write addr val st =>
    refine ⟨rfl, ?_⟩
    simp only [busHandler, Board.toChips_poke, h]
  | input port => exact ⟨congrArg (fun c : Chips => c.busIn port) h, h⟩
  | output port val => exact ⟨rfl, congrArg (fun c : Chips => c.busOut port val) h⟩

/-- The callbacks leave the keys, the ROM and the sizes of the chips alone. -/
theorem busHandler_frame (o : BusOp) (b : Board) :
    (busHandler o b).2.kbd = b.kbd ∧ (busHandler o b).2.rom = b.rom ∧
      (busHandler o b).2.romSize = b.romSize ∧ (busHandler o b).2.ramSize = b.ramSize := by
  cases o with
  | read addr st => exact ⟨rfl, rfl, rfl, rfl⟩
  | write addr val st =>
    simp [busHandler, Board.toChips_poke]
  | input port => exact ⟨rfl, rfl, rfl, rfl⟩
  | output port val =>
    obtain ⟨ppi, display, dbgPort, unmapped, h⟩ := b.toChips.busOut_eq port val
    simp [busHandler, h]

/-! ## The journal -/

theorem readAt_writeAt_self {n w : ℕ} (xs : Fin n → BitVec w) {i : ℕ} (h : i < n) (v : BitVec w) :
    readAt (writeAt xs i v) i = v := by
  simp [readAt, writeAt, h]

theorem readAt_writeAt_of_ne {n w : ℕ} (xs : Fin n → BitVec w) {i k : ℕ} (h : k ≠ i)
    (v : BitVec w) : readAt (writeAt xs i v) k = readAt xs k := by
  unfold readAt writeAt
  split
  · split
    · rw [Function.update_of_ne (by simp [h])]
    · rfl
  · rfl

/-- Undoing `n` entries reads no entry from the `n`-th on. -/
theorem Journal.undo_congr {j j' : Journal} {n : ℕ}
    (hidx : ∀ k < n, readAt j.trialIdx k = readAt j'.trialIdx k)
    (hold : ∀ k < n, readAt j.trialOld k = readAt j'.trialOld k) (ram : Fin 2048 → U8) :
    j.undo n ram = j'.undo n ram := by
  induction n generalizing ram with
  | zero => rfl
  | succ n ih =>
    rw [undo, undo, hidx n n.lt_succ_self, hold n n.lt_succ_self]
    exact ih (fun k hk => hidx k (hk.trans n.lt_succ_self))
      (fun k hk => hold k (hk.trans n.lt_succ_self)) _

/-- Writing back the value that was overwritten. -/
theorem writeAt_back (ram : Fin 2048 → U8) (i : Fin 2048) (v : U8) :
    writeAt (Function.update ram i v) (BitVec.ofNat 16 i).toNat (ram i) = ram := by
  have hi : (BitVec.ofNat 16 (i : ℕ)).toNat = i := by
    rw [BitVec.toNat_ofNat]
    omega
  simp [writeAt, hi]

/-- **A noted write is undone** by one more entry. -/
theorem Journal.undo_note {j : Journal} (ht : j.trial = true) (hn : j.trialN.toNat < 8)
    (ram : Fin 2048 → U8) (i : Fin 2048) (v : U8) :
    (j.note i (ram i)).trialN.toNat = j.trialN.toNat + 1 ∧
      (j.note i (ram i)).undo (j.trialN.toNat + 1) (Function.update ram i v) =
        j.undo j.trialN.toNat ram := by
  have hnote : j.trial ∧ j.trialN < 8 := ⟨ht, hn⟩
  constructor
  · rw [note, if_pos hnote]
    exact toNat_succ (by omega)
  · rw [note, if_pos hnote, undo]
    dsimp only
    rw [readAt_writeAt_self _ hn, readAt_writeAt_self _ hn, writeAt_back]
    exact undo_congr (fun k hk => readAt_writeAt_of_ne _ hk.ne _)
      (fun k hk => readAt_writeAt_of_ne _ hk.ne _) ram

/-- After at most `n` bus calls of a dry run that started with the RAM `ram`: as long as the
journal has room for them all, undoing it gives `ram` back. -/
def Undoable (ram : Fin 2048 → U8) (n : ℕ) (b : Board) : Prop :=
  n ≤ 8 → b.trial = true ∧ b.trialN.toNat ≤ n ∧ b.toJournal.undo b.trialN.toNat b.ram = ram

theorem Undoable.busHandler {ram : Fin 2048 → U8} {n : ℕ} (o : BusOp) (b : Board)
    (h : Undoable ram n b) : Undoable ram (n + 1) (busHandler o b).2 := by
  intro hroom
  obtain ⟨ht, hn, hundo⟩ := h (by omega)
  cases o with
  | read addr st => exact ⟨ht, by exact hn.trans n.le_succ, hundo⟩
  | write addr val st =>
    simp only [Umk80.busHandler, Board.poke]
    cases b.decode addr with
    | none => exact ⟨ht, hn.trans n.le_succ, hundo⟩
    | some c =>
      cases c with
      | rom i => exact ⟨ht, hn.trans n.le_succ, hundo⟩
      | ram i =>
        obtain ⟨hcount, hback⟩ := Journal.undo_note ht (by omega) b.ram i val
        refine ⟨?_, by dsimp only; omega, ?_⟩
        · simp only [Journal.note]
          split
          · exact ht
          · exact ht
        · dsimp only
          rw [hcount, hback, hundo]
  | input port => exact ⟨ht, hn.trans n.le_succ, hundo⟩
  | output port val =>
    obtain ⟨ppi, display, dbgPort, unmapped, h⟩ := b.toChips.busOut_eq port val
    simp only [Umk80.busHandler, h]
    exact ⟨ht, hn.trans n.le_succ, hundo⟩

/-! ## One instruction -/

/-- What a program can see of the machine, and what it leaves behind. -/
structure Arch extends Memory where
  cpu : I8080
  ppi : Ppi
  display : Display
  dbgPort : U8
  unmappedIoWrites : U32

namespace Machine

def arch (m : Machine) : Arch where
  toMemory := m.toMemory
  cpu := m.cpu
  ppi := m.ppi
  display := m.display
  dbgPort := m.dbgPort
  unmappedIoWrites := m.unmappedIoWrites

/-- The machine with other keys pressed. -/
def withKeys (m : Machine) (kbd : Keyboard) : Machine := { m with kbd := kbd }

/-- The board an instruction starts with, from what a program can see and the keys. -/
theorem toChips_started (m : Machine) : m.started.toChips =
    { toMemory := m.arch.toMemory, ppi := m.arch.ppi, display := m.arch.display, kbd := m.kbd,
      dbgPort := m.arch.dbgPort, stepStartCycles := m.arch.cpu.cycles,
      unmappedIoWrites := m.arch.unmappedIoWrites } := rfl

/-- The run of the processor inside `execOne`. -/
def cpuRun (m : Machine) : (ℕ × I8080) × Board := (I8080.step.run m.cpu).run busHandler m.started

theorem arch_execOne (m : Machine) : m.execOne.2.arch =
    { toMemory := m.cpuRun.2.toMemory, cpu := m.cpuRun.1.2, ppi := m.cpuRun.2.ppi,
      display := (m.cpuRun.2.toChips.displayAdvance m.cpuRun.1.2.cycles).display,
      dbgPort := m.cpuRun.2.dbgPort, unmappedIoWrites := m.cpuRun.2.unmappedIoWrites } := rfl

/-- **One instruction depends on what a program can see and on the keys**, and on nothing else
of the machine. -/
theorem arch_execOne_congr {m m' : Machine} (ha : m.arch = m'.arch) (hk : m.kbd = m'.kbd) :
    m.execOne.1 = m'.execOne.1 ∧ m.execOne.2.arch = m'.execOne.2.arch := by
  have hcpu : m.cpu = m'.cpu := congrArg Arch.cpu ha
  have hchips : m.started.toChips = m'.started.toChips := by
    rw [toChips_started, toChips_started, ha, hk]
  obtain ⟨hr, hb⟩ : m.cpuRun.1 = m'.cpuRun.1 ∧ m.cpuRun.2.toChips = m'.cpuRun.2.toChips := by
    rw [cpuRun, cpuRun, ← hcpu]
    exact Prog.run_sim (R := fun b b' : Board => b.toChips = b'.toChips) busHandler_chips
      (I8080.step.run m.cpu) hchips
  constructor
  · change m.cpuRun.1.1 = m'.cpuRun.1.1
    rw [hr]
  · rw [arch_execOne, arch_execOne, hr, hb]

/-- Instructions leave keys, ROM and chip sizes alone. -/
theorem execOne_frame (m : Machine) : m.execOne.2.kbd = m.kbd ∧ m.execOne.2.rom = m.rom ∧
    m.execOne.2.romSize = m.romSize ∧ m.execOne.2.ramSize = m.ramSize := by
  refine Prog.run_inv busHandler (P := fun b => b.kbd = m.kbd ∧ b.rom = m.rom ∧
    b.romSize = m.romSize ∧ b.ramSize = m.ramSize) ?_ (I8080.step.run m.cpu) ⟨rfl, rfl, rfl, rfl⟩
  intro o b hb
  obtain ⟨hkbd, hrom, hromSize, hramSize⟩ := busHandler_frame o b
  rw [hkbd, hrom, hromSize, hramSize]
  exact hb

@[simp] theorem step_execOne (m : Machine) : m.execOne.2.step = m.step := rfl

@[simp] theorem panel_execOne (m : Machine) : m.execOne.2.panel = m.panel := rfl

/-- The trace of the instruction just executed is that of its bus calls. -/
theorem traceOf_execOne (m : Machine) :
    I8080.TraceOf m.cpu ((I8080.step.run m.cpu).runLog busHandler m.started) m.execOne.2.cpu :=
  Prog.wp_run busHandler (I8080.step_trace m.cpu) m.started

/-! ## The dry run -/

/-- The machine in which the dry run starts. -/
def onTrial (m : Machine) : Machine := { m with trial := true, trialN := 0 }

/-- **Undoing the journal of a dry run gives RAM back.** -/
theorem undo_onTrial (m : Machine) : m.onTrial.execOne.2.toJournal.undo
    m.onTrial.execOne.2.trialN.toNat m.onTrial.execOne.2.ram = m.ram := by
  have hcalls :
      ((I8080.step.run m.onTrial.cpu).runLog busHandler m.onTrial.started).length ≤ 8 := by
    have h := m.onTrial.traceOf_execOne
    have := h.mcCount
    have := h.le_five
    omega
  have hstart : Undoable m.ram 0 m.onTrial.started := fun _ => ⟨rfl, Nat.le_refl 0, rfl⟩
  exact (Prog.run_ranked busHandler (P := Undoable m.ram) (fun n o b => Undoable.busHandler o b)
    (I8080.step.run m.onTrial.cpu) hstart (by rwa [Nat.zero_add])).2.2

/-- **The dry run is undone.** -/
theorem arch_stepProbe (m : Machine) : m.stepProbe.arch = m.arch := by
  obtain ⟨-, hrom, hromSize, hramSize⟩ := m.onTrial.execOne_frame
  have hram := m.undo_onTrial
  have hmem : m.stepProbe.toMemory = m.toMemory := by
    change (⟨_, _, _, _⟩ : Memory) = ⟨_, _, _, _⟩
    rw [Memory.mk.injEq]
    exact ⟨hromSize, hramSize, hrom, hram⟩
  change (⟨m.stepProbe.toMemory, _, _, _, _, _⟩ : Arch) = _
  rw [hmem]
  rfl

@[simp] theorem kbd_stepProbe (m : Machine) : m.stepProbe.kbd = m.kbd :=
  m.onTrial.execOne_frame.1

@[simp] theorem panel_stepProbe (m : Machine) : m.stepProbe.panel = m.panel := rfl

/-- **The dry run stores the trace of the real one.** -/
theorem step_stepProbe (m : Machine) :
    m.stepProbe.step = storeTrace m.step m.execOne.2.cpu.toMcTrace := by
  have h := (arch_execOne_congr (show m.onTrial.arch = m.arch from rfl) rfl).2
  exact congrArg (fun a : Arch => storeTrace m.step a.cpu.toMcTrace) h

end Machine

end Umk80
