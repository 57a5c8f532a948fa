import Mathlib.Logic.Function.Basic
import Umk80.Lib.Interaction
import Umk80.Regs

/-!
# The 8080 core

The interpreter of `core/src/i8080.c`, function by function. The processor reaches the outside
world only through the four callbacks of `i8080_bus_t`; here these are the operations of an
interface, and an instruction is a program over it that threads the processor state. What sits
on the bus is a `Handler`, supplied where the processor is used.

`execute` keeps the shape of the C switch: one line for each opcode that has its own case, then
the regular blocks in the order in which the `default` branch tests for them.

## Main definitions

* `BusOp`, `BusOp.Ans` — the callbacks of the bus
* `I8080` — the processor state, with the machine-cycle trace of the last instruction
* `I8080.execute`, `I8080.step` — one opcode, and one instruction or acknowledge
-/

namespace Umk80

open Interaction

/-! ## The status words -/

def CYC_FETCH : U8 := 0xA2
def CYC_MEMR : U8 := 0x82
def CYC_MEMW : U8 := 0x00
def CYC_STACKR : U8 := 0x86
def CYC_STACKW : U8 := 0x04
def CYC_INPR : U8 := 0x42
def CYC_OUTW : U8 := 0x10
def CYC_INTA : U8 := 0x23
def CYC_HALTA : U8 := 0x8A
def CYC_INTA_HALT : U8 := 0x2B

/-! ## The bus -/

/-- The callbacks of `i8080_bus_t`. -/
inductive BusOp
  | read (addr : U16) (status : U8)
  | write (addr : U16) (val : U8) (status : U8)
  | input (port : U8)
  | output (port : U8) (val : U8)
deriving DecidableEq

/-- What each callback returns. -/
@[reducible] def BusOp.Ans : BusOp → Type
  | .read _ _ => U8
  | .write _ _ _ => Unit
  | .input _ => U8
  | .output _ _ => Unit

/-- A call made on the bus, with its answer. -/
abbrev BusEvent := Event BusOp BusOp.Ans

/-! ## The processor state -/

/-- The interrupt and halt state of `i8080_t`. -/
structure IntState where
  inte : Bool
  halted : Bool
  intPending : Bool
  intVector : U8
  intDelay : U8
deriving DecidableEq

def IntState.consumeGrace (i : IntState) (delayBefore : U8) : IntState :=
  if 0 < delayBefore ∧ i.intDelay = delayBefore then { i with intDelay := i.intDelay - 1 } else i

/-- The machine-cycle trace of the last instruction: `mcCount` entries of the three arrays. -/
structure McTrace where
  mcCount : U8
  mcStatus : Fin 6 → U8
  mcAddr : Fin 6 → U16
  mcData : Fin 6 → U8

/-- `i8080_t`. -/
structure I8080 extends Regs, IntState, McTrace where
  cycles : U64

/-- Append a machine cycle to the trace; a seventh cycle would be dropped. -/
def McTrace.log (t : McTrace) (status : U8) (addr : U16) (data : U8) : McTrace :=
  if h : t.mcCount.toNat < 6 then
    { mcCount := t.mcCount + 1
      mcStatus := Function.update t.mcStatus ⟨t.mcCount.toNat, h⟩ status
      mcAddr := Function.update t.mcAddr ⟨t.mcCount.toNat, h⟩ addr
      mcData := Function.update t.mcData ⟨t.mcCount.toNat, h⟩ data }
  else t

/-- Code that runs on the processor: it reads and writes the state and calls the bus. -/
abbrev CpuM := StateT I8080 (Prog BusOp BusOp.Ans)

namespace I8080

/-- `mc_log`. -/
def mcLog (cpu : I8080) (status : U8) (addr : U16) (data : U8) : I8080 :=
  { cpu with toMcTrace := cpu.toMcTrace.log status addr data }

def regs : CpuM Regs := do return (← get).toRegs

def modifyRegs (g : Regs → Regs) : CpuM Unit :=
  modify fun cpu => { cpu with toRegs := g cpu.toRegs }

/-- Call the bus. -/
def perform (o : BusOp) : CpuM o.Ans := StateT.lift (Prog.perform o)

/-! ## Bus access, recording the machine cycle -/

def busRd (a : U16) (st : U8) : CpuM U8 := do
  let v ← perform (.read a st)
  modify (·.mcLog st a v)
  return v

def busWr (a : U16) (v st : U8) : CpuM Unit := do
  perform (.write a v st)
  modify (·.mcLog st a v)

/-- The port number appears on both halves of the address bus. -/
def busIn (port : U8) : CpuM U8 := do
  let v ← perform (.input port)
  modify (·.mcLog CYC_INPR (word port port) v)
  return v

def busOut (port v : U8) : CpuM Unit := do
  perform (.output port v)
  modify (·.mcLog CYC_OUTW (word port port) v)

def fetch8 : CpuM U8 := do
  let pc := (← regs).pc
  modifyRegs fun r => { r with pc := r.pc + 1 }
  busRd pc CYC_MEMR

def fetch16 : CpuM U16 := do
  let lo ← fetch8
  let hi ← fetch8
  return word hi lo

def push16 (v : U16) : CpuM Unit := do
  busWr ((← regs).sp - 1) (hiByte v) CYC_STACKW
  busWr ((← regs).sp - 2) (loByte v) CYC_STACKW
  modifyRegs fun r => { r with sp := r.sp - 2 }

def pop16 : CpuM U16 := do
  let lo ← busRd (← regs).sp CYC_STACKR
  let hi ← busRd ((← regs).sp + 1) CYC_STACKR
  modifyRegs fun r => { r with sp := r.sp + 2 }
  return word hi lo

/-- Register by index: 0=B 1=C 2=D 3=E 4=H 5=L 6=M 7=A. -/
def regGet (i : U8) : CpuM U8 := do
  let r ← regs
  match i with
  | 0#8 => return r.b
  | 1#8 => return r.c
  | 2#8 => return r.d
  | 3#8 => return r.e
  | 4#8 => return r.h
  | 5#8 => return r.l
  | 6#8 => busRd r.getHl CYC_MEMR
  | _ => return r.a

def regSet (i v : U8) : CpuM Unit :=
  match i with
  | 0#8 => modifyRegs fun r => { r with b := v }
  | 1#8 => modifyRegs fun r => { r with c := v }
  | 2#8 => modifyRegs fun r => { r with d := v }
  | 3#8 => modifyRegs fun r => { r with e := v }
  | 4#8 => modifyRegs fun r => { r with h := v }
  | 5#8 => modifyRegs fun r => { r with l := v }
  | 6#8 => do busWr (← regs).getHl v CYC_MEMW
  | _ => modifyRegs fun r => { r with a := v }

def aluInr (i : U8) : CpuM Unit := do
  let v ← regGet i
  let res := v + 1
  modifyRegs fun r => (r.setFlag F_AC (res &&& 0x0F == 0x00)).setSzp res
  regSet i res

def aluDcr (i : U8) : CpuM Unit := do
  let v ← regGet i
  let res := v - 1
  modifyRegs fun r => (r.setFlag F_AC (res &&& 0x0F != 0x0F)).setSzp res
  regSet i res

/-! ## The T-state table -/

/-- `CYCLES`, the not-taken case of the conditional instructions. -/
def CYCLES : List ℕ := [
  4, 10,  7,  5,  5,  5,  7,  4,  4, 10,  7,  5,  5,  5,  7,  4,
  4, 10,  7,  5,  5,  5,  7,  4,  4, 10,  7,  5,  5,  5,  7,  4,
  4, 10, 16,  5,  5,  5,  7,  4,  4, 10, 16,  5,  5,  5,  7,  4,
  4, 10, 13,  5, 10, 10, 10,  4,  4, 10, 13,  5,  5,  5,  7,  4,
  5,  5,  5,  5,  5,  5,  7,  5,  5,  5,  5,  5,  5,  5,  7,  5,
  5,  5,  5,  5,  5,  5,  7,  5,  5,  5,  5,  5,  5,  5,  7,  5,
  5,  5,  5,  5,  5,  5,  7,  5,  5,  5,  5,  5,  5,  5,  7,  5,
  7,  7,  7,  7,  7,  7,  7,  7,  5,  5,  5,  5,  5,  5,  7,  5,
  4,  4,  4,  4,  4,  4,  7,  4,  4,  4,  4,  4,  4,  4,  7,  4,
  4,  4,  4,  4,  4,  4,  7,  4,  4,  4,  4,  4,  4,  4,  7,  4,
  4,  4,  4,  4,  4,  4,  7,  4,  4,  4,  4,  4,  4,  4,  7,  4,
  4,  4,  4,  4,  4,  4,  7,  4,  4,  4,  4,  4,  4,  4,  7,  4,
  5, 10, 10, 10, 11, 11,  7, 11,  5, 10, 10, 10, 11, 17,  7, 11,
  5, 10, 10, 10, 11, 11,  7, 11,  5, 10, 10, 10, 11, 17,  7, 11,
  5, 10, 10, 18, 11, 11,  7, 11,  5,  5, 10,  4, 11, 17,  7, 11,
  5, 10, 10,  4, 11, 11,  7, 11,  5,  5, 10,  4, 11, 17,  7, 11]

/-- `i8080_opcode_cycles`. -/
def opcodeCycles (opcode : U8) : ℕ := CYCLES.getD opcode.toNat 0

/-- `LENGTHS`. -/
def LENGTHS : List ℕ := [
  1,  3,  1,  1,  1,  1,  2,  1,  1,  1,  1,  1,  1,  1,  2,  1,
  1,  3,  1,  1,  1,  1,  2,  1,  1,  1,  1,  1,  1,  1,  2,  1,
  1,  3,  3,  1,  1,  1,  2,  1,  1,  1,  3,  1,  1,  1,  2,  1,
  1,  3,  3,  1,  1,  1,  2,  1,  1,  1,  3,  1,  1,  1,  2,  1,
  1,  1,  1,  1,  1,  1,  1,  1,  1,  1,  1,  1,  1,  1,  1,  1,
  1,  1,  1,  1,  1,  1,  1,  1,  1,  1,  1,  1,  1,  1,  1,  1,
  1,  1,  1,  1,  1,  1,  1,  1,  1,  1,  1,  1,  1,  1,  1,  1,
  1,  1,  1,  1,  1,  1,  1,  1,  1,  1,  1,  1,  1,  1,  1,  1,
  1,  1,  1,  1,  1,  1,  1,  1,  1,  1,  1,  1,  1,  1,  1,  1,
  1,  1,  1,  1,  1,  1,  1,  1,  1,  1,  1,  1,  1,  1,  1,  1,
  1,  1,  1,  1,  1,  1,  1,  1,  1,  1,  1,  1,  1,  1,  1,  1,
  1,  1,  1,  1,  1,  1,  1,  1,  1,  1,  1,  1,  1,  1,  1,  1,
  1,  1,  3,  3,  3,  1,  2,  1,  1,  1,  3,  3,  3,  3,  2,  1,
  1,  1,  3,  2,  3,  1,  2,  1,  1,  1,  3,  2,  3,  3,  2,  1,
  1,  1,  3,  1,  3,  1,  2,  1,  1,  1,  3,  1,  3,  3,  2,  1,
  1,  1,  3,  1,  3,  1,  2,  1,  1,  1,  3,  1,  3,  3,  2,  1]

/-- `i8080_opcode_length`. -/
def opcodeLength (opcode : U8) : ℕ := LENGTHS.getD opcode.toNat 0

/-- `i8080_opcode_undocumented`. -/
def opcodeUndocumented (opcode : U8) : Bool :=
  match opcode with
  | 0x08#8 | 0x10#8 | 0x18#8 | 0x20#8 | 0x28#8 | 0x30#8 | 0x38#8 => true
  | 0xCB#8 => true
  | 0xD9#8 => true
  | 0xDD#8 | 0xED#8 | 0xFD#8 => true
  | _ => false

/-! ## Reset and interrupt request -/

def reset : I8080 where
  a := 0
  f := F_ONE
  b := 0
  c := 0
  d := 0
  e := 0
  h := 0
  l := 0
  sp := 0
  pc := 0
  inte := false
  halted := false
  intPending := false
  intVector := 0
  intDelay := 0
  cycles := 0
  mcCount := 0
  mcStatus := fun _ => 0
  mcAddr := fun _ => 0
  mcData := fun _ => 0

def interrupt (cpu : I8080) (vector : U8) : I8080 :=
  { cpu with intPending := true, intVector := vector }

/-! ## Execution -/

/-- Bits 5..3 of an opcode. -/
def field3 (op : U8) : U8 := op >>> 3 &&& 7

/-- The `default` branch of `execute`: the regular blocks. -/
def executeBlock (op : U8) (cyc : ℕ) : CpuM ℕ := do
  if 0x40#8 ≤ op ∧ op ≤ 0x7F#8 then
    regSet (field3 op) (← regGet (op &&& 7))
    return cyc
  else if 0x80#8 ≤ op ∧ op ≤ 0xBF#8 then
    let v ← regGet (op &&& 7)
    modifyRegs (·.aluOp (field3 op) v)
    return cyc
  else if op &&& 0xC7#8 = 0x04#8 then
    aluInr (field3 op)
    return cyc
  else if op &&& 0xC7#8 = 0x05#8 then
    aluDcr (field3 op)
    return cyc
  else if op &&& 0xC7#8 = 0x06#8 then
    let imm ← fetch8
    regSet (field3 op) imm
    return cyc
  else if op &&& 0xC7#8 = 0xC6#8 then
    let v ← fetch8
    modifyRegs (·.aluOp (field3 op) v)
    return cyc
  else if op &&& 0xC7#8 = 0xC7#8 then
    push16 (← regs).pc
    modifyRegs fun r => { r with pc := (op &&& 0x38).setWidth 16 }
    return cyc
  else if op &&& 0xC7#8 = 0xC2#8 then
    let a ← fetch16
    if (← regs).condTrue (field3 op) then
      modifyRegs fun r => { r with pc := a }
    return cyc
  else if op &&& 0xC7#8 = 0xC4#8 then
    let a ← fetch16
    if (← regs).condTrue (field3 op) then
      push16 (← regs).pc
      modifyRegs fun r => { r with pc := a }
      return 17
    else return cyc
  else if op &&& 0xC7#8 = 0xC0#8 then
    if (← regs).condTrue (field3 op) then
      let a ← pop16
      modifyRegs fun r => { r with pc := a }
      return 11
    else return cyc
  else return cyc

/-- Execute one opcode and return its T states. -/
def execute (op : U8) : CpuM ℕ :=
  let cyc := opcodeCycles op
  match op with
  -- 16-bit transfers
  | 0x01#8 => do let v ← fetch16; modifyRegs (·.setBc v); return cyc
  | 0x11#8 => do let v ← fetch16; modifyRegs (·.setDe v); return cyc
  | 0x21#8 => do let v ← fetch16; modifyRegs (·.setHl v); return cyc
  | 0x31#8 => do let v ← fetch16; modifyRegs fun r => { r with sp := v }; return cyc
  | 0x02#8 => do busWr (← regs).getBc (← regs).a CYC_MEMW; return cyc
  | 0x12#8 => do busWr (← regs).getDe (← regs).a CYC_MEMW; return cyc
  | 0x0A#8 => do
    let v ← busRd (← regs).getBc CYC_MEMR
    modifyRegs fun r => { r with a := v }
    return cyc
  | 0x1A#8 => do
    let v ← busRd (← regs).getDe CYC_MEMR
    modifyRegs fun r => { r with a := v }
    return cyc
  | 0x22#8 => do
    let a ← fetch16
    busWr a (← regs).l CYC_MEMW
    busWr (a + 1) (← regs).h CYC_MEMW
    return cyc
  | 0x2A#8 => do
    let a ← fetch16
    let v ← busRd a CYC_MEMR
    modifyRegs fun r => { r with l := v }
    let v ← busRd (a + 1) CYC_MEMR
    modifyRegs fun r => { r with h := v }
    return cyc
  | 0x32#8 => do let a ← fetch16; busWr a (← regs).a CYC_MEMW; return cyc
  | 0x3A#8 => do
    let a ← fetch16
    let v ← busRd a CYC_MEMR
    modifyRegs fun r => { r with a := v }
    return cyc
  -- 16-bit increments
  | 0x03#8 => do modifyRegs fun r => r.setBc (r.getBc + 1); return cyc
  | 0x13#8 => do modifyRegs fun r => r.setDe (r.getDe + 1); return cyc
  | 0x23#8 => do modifyRegs fun r => r.setHl (r.getHl + 1); return cyc
  | 0x33#8 => do modifyRegs fun r => { r with sp := r.sp + 1 }; return cyc
  | 0x0B#8 => do modifyRegs fun r => r.setBc (r.getBc - 1); return cyc
  | 0x1B#8 => do modifyRegs fun r => r.setDe (r.getDe - 1); return cyc
  | 0x2B#8 => do modifyRegs fun r => r.setHl (r.getHl - 1); return cyc
  | 0x3B#8 => do modifyRegs fun r => { r with sp := r.sp - 1 }; return cyc
  | 0x09#8 => do modifyRegs fun r => r.aluDad r.getBc; return cyc
  | 0x19#8 => do modifyRegs fun r => r.aluDad r.getDe; return cyc
  | 0x29#8 => do modifyRegs fun r => r.aluDad r.getHl; return cyc
  | 0x39#8 => do modifyRegs fun r => r.aluDad r.sp; return cyc
  -- rotates
  | 0x07#8 => do
    let cy := (← regs).a &&& 0x80 != 0
    modifyRegs fun r => { r with a := r.a <<< 1 ||| (if cy then 1 else 0) }
    modifyRegs (·.setFlag F_C cy)
    return cyc
  | 0x0F#8 => do
    let cy := (← regs).a &&& 0x01 != 0
    modifyRegs fun r => { r with a := r.a >>> 1 ||| (if cy then 0x80 else 0) }
    modifyRegs (·.setFlag F_C cy)
    return cyc
  | 0x17#8 => do
    let old := (← regs).getFlag F_C
    let cy := (← regs).a &&& 0x80 != 0
    modifyRegs fun r => { r with a := r.a <<< 1 ||| (if old then 1 else 0) }
    modifyRegs (·.setFlag F_C cy)
    return cyc
  | 0x1F#8 => do
    let old := (← regs).getFlag F_C
    let cy := (← regs).a &&& 0x01 != 0
    modifyRegs fun r => { r with a := r.a >>> 1 ||| (if old then 0x80 else 0) }
    modifyRegs (·.setFlag F_C cy)
    return cyc
  -- assorted single-byte
  | 0x27#8 => do modifyRegs Regs.aluDaa; return cyc
  | 0x2F#8 => do modifyRegs fun r => { r with a := ~~~r.a }; return cyc
  | 0x37#8 => do modifyRegs (·.setFlag F_C true); return cyc
  | 0x3F#8 => do modifyRegs fun r => r.setFlag F_C (!r.getFlag F_C); return cyc
  | 0xEB#8 => do modifyRegs fun r => (r.setHl r.getDe).setDe r.getHl; return cyc
  | 0xE3#8 => do
    let t ← pop16
    push16 (← regs).getHl
    modifyRegs (·.setHl t)
    return cyc
  | 0xE9#8 => do modifyRegs fun r => { r with pc := r.getHl }; return cyc
  | 0xF9#8 => do modifyRegs fun r => { r with sp := r.getHl }; return cyc
  | 0xF3#8 => do modify fun cpu => { cpu with inte := false, intDelay := 0 }; return cyc
  | 0xFB#8 => do modify fun cpu => { cpu with inte := true, intDelay := 1 }; return cyc
  -- stack
  | 0xC1#8 => do let v ← pop16; modifyRegs (·.setBc v); return cyc
  | 0xD1#8 => do let v ← pop16; modifyRegs (·.setDe v); return cyc
  | 0xE1#8 => do let v ← pop16; modifyRegs (·.setHl v); return cyc
  | 0xF1#8 => do
    let v ← pop16
    modifyRegs fun r => { r with a := hiByte v, f := loByte v &&& F_MASK ||| F_ONE }
    return cyc
  | 0xC5#8 => do push16 (← regs).getBc; return cyc
  | 0xD5#8 => do push16 (← regs).getDe; return cyc
  | 0xE5#8 => do push16 (← regs).getHl; return cyc
  | 0xF5#8 => do push16 (word (← regs).a ((← regs).f &&& F_MASK ||| F_ONE)); return cyc
  -- input/output
  | 0xDB#8 => do
    let v ← busIn (← fetch8)
    modifyRegs fun r => { r with a := v }
    return cyc
  | 0xD3#8 => do let p ← fetch8; busOut p (← regs).a; return cyc
  | 0x76#8 => do modify fun cpu => { cpu with halted := true }; return cyc
  -- unconditional jumps, calls and returns
  | 0xC3#8 | 0xCB#8 => do
    let a ← fetch16
    modifyRegs fun r => { r with pc := a }
    return cyc
  | 0xCD#8 | 0xDD#8 | 0xED#8 | 0xFD#8 => do
    let a ← fetch16
    push16 (← regs).pc
    modifyRegs fun r => { r with pc := a }
    return cyc
  | 0xC9#8 | 0xD9#8 => do
    let a ← pop16
    modifyRegs fun r => { r with pc := a }
    return cyc
  -- NOP and its seven undocumented variants
  | 0x00#8 | 0x08#8 | 0x10#8 | 0x18#8 | 0x20#8 | 0x28#8 | 0x30#8 | 0x38#8 => return cyc
  | _ => executeBlock op cyc

/-- The test at the head of `step`: a request waits, interrupts are enabled, and the grace
instruction imposed by EI has gone by. -/
def acknowledges (cpu : I8080) : Bool := cpu.intPending && cpu.inte && cpu.intDelay == 0

def addCycles (cpu : I8080) (cyc : ℕ) : I8080 :=
  { cpu with cycles := cpu.cycles + BitVec.ofNat 64 cyc }

/-- Consume EI's grace instruction, unless the instruction just executed armed it or DI
cancelled it. -/
def consumeGrace (cpu : I8080) (delayBefore : U8) : I8080 :=
  { cpu with toIntState := cpu.toIntState.consumeGrace delayBefore }

/-- `i8080_step`: one instruction, one interrupt acknowledge, or one idle cycle while halted. -/
def step : CpuM ℕ := do
  modify fun cpu => { cpu with mcCount := 0 }
  if (← get).acknowledges then
    let vec := (← get).intVector
    modify fun cpu => { cpu with intPending := false, inte := false }
    modify fun cpu => cpu.mcLog (if cpu.halted then CYC_INTA_HALT else CYC_INTA) cpu.pc vec
    modify fun cpu => { cpu with halted := false }
    let cyc ← execute vec
    modify (·.addCycles cyc)
    return cyc
  else if (← get).halted then
    modify fun cpu => cpu.mcLog CYC_HALTA cpu.pc 0x00
    modify (·.addCycles 4)
    return 4
  else
    let op ← busRd (← regs).pc CYC_FETCH
    let delayBefore := (← get).intDelay
    modifyRegs fun r => { r with pc := r.pc + 1 }
    let cyc ← execute op
    modify (·.consumeGrace delayBefore)
    modify (·.addCycles cyc)
    return cyc

/-! ## What one step does

The three ways through `step`, each as the state in which its opcode runs. -/

/-- The state in which an acknowledged vector is executed. -/
def acknowledged (cpu : I8080) : I8080 :=
  { cpu with
    toMcTrace := McTrace.log { cpu.toMcTrace with mcCount := 0 }
      (if cpu.halted then CYC_INTA_HALT else CYC_INTA) cpu.pc cpu.intVector
    intPending := false
    inte := false
    halted := false }

/-- The state after an idle cycle of a halted processor. -/
def idled (cpu : I8080) : I8080 :=
  addCycles { cpu with
    toMcTrace := McTrace.log { cpu.toMcTrace with mcCount := 0 } CYC_HALTA cpu.pc 0x00 } 4

/-- The state in which a fetched opcode is executed. -/
def fetched (cpu : I8080) (op : U8) : I8080 :=
  { cpu with
    toMcTrace := McTrace.log { cpu.toMcTrace with mcCount := 0 } CYC_FETCH cpu.pc op
    pc := cpu.pc + 1 }

theorem step_run_of_acknowledges {cpu : I8080} (h : cpu.acknowledges = true) :
    step.run cpu = (execute cpu.intVector).run cpu.acknowledged >>= fun r =>
      pure (r.1, r.2.addCycles r.1) := by
  have h' : acknowledges { cpu with mcCount := 0 } = true := h
  simp only [step, StateT.run_bind, StateT.run_modify, StateT.run_get, pure_bind, h', if_true]
  rfl

theorem step_run_of_halted {cpu : I8080} (h : cpu.acknowledges = false) (hh : cpu.halted = true) :
    step.run cpu = pure (4, cpu.idled) := by
  have h' : acknowledges { cpu with mcCount := 0 } = false := h
  simp only [step, StateT.run_bind, StateT.run_modify, StateT.run_get, pure_bind, h', hh, if_true,
    Bool.false_eq_true, if_false]
  rfl

theorem step_run_of_fetch {cpu : I8080} (h : cpu.acknowledges = false) (hh : cpu.halted = false) :
    step.run cpu = Prog.perform (.read cpu.pc CYC_FETCH) >>= fun op =>
      (execute op).run (cpu.fetched op) >>= fun r =>
        pure (r.1, (r.2.consumeGrace cpu.intDelay).addCycles r.1) := by
  have h' : acknowledges { cpu with mcCount := 0 } = false := h
  simp only [step, StateT.run_bind, StateT.run_modify, StateT.run_get, pure_bind, h', hh,
    Bool.false_eq_true, if_false]
  rfl

end I8080

end Umk80
