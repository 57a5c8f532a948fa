import Umk80.Display
import Umk80.I8080

/-!
# The board

Everything of `core/src/machine.c` that the processor reaches over its bus: the decoded memory,
the КР580ВВ55А, the keyboard matrix, the displays and the single-step port. `busHandler` is the
set of callbacks the machine hands to `i8080_step`.

A board also carries the journal of RAM writes that a dry run keeps. `Chips` is the board without
the journal, so that "the same board, journal aside" is an equation.

## Main definitions

* `Memory`, `Chips`, `Journal`, `Board` — the state behind the bus
* `Memory.peek`, `Board.poke` — memory through the address decoder
* `Journal.undo` — roll back the writes of a dry run
* `busHandler` — the four callbacks
-/

namespace Umk80

open Interaction

/-- Read an array at a C index. Reading past the end is undefined in C; here it gives 0. -/
def readAt {n w : ℕ} (xs : Fin n → BitVec w) (i : ℕ) : BitVec w :=
  if h : i < n then xs ⟨i, h⟩ else 0

/-- Write an array at a C index; writing past the end, undefined in C, changes nothing here. -/
def writeAt {α : Type} {n : ℕ} (xs : Fin n → α) (i : ℕ) (v : α) : Fin n → α :=
  if h : i < n then Function.update xs ⟨i, h⟩ v else xs

/-! ## Data -/

def RAM_BASE : U16 := 0x0800
def RAM_MAX : U16 := 2048
def ROM_MAX : U16 := 2048

def PORT_A : U8 := 0xF8
def PORT_B : U8 := 0xF9
def PORT_C : U8 := 0xFA
def PORT_CTRL : U8 := 0xFB
def PORT_DBG : U8 := 0xFC

/-- `umk_ppi_t`: the КР580ВВ55А. -/
structure Ppi where
  ctrl : U8
  outA : U8
  outB : U8
  outC : U8
  aIsOut : Bool
  bIsOut : Bool
  cLoIsOut : Bool
  cHiIsOut : Bool
deriving DecidableEq

/-- `umk_keyboard_t`: columns and rows. -/
structure Keyboard where
  pressed : Fin 6 → Fin 4 → Bool

/-- The memory chips and their sizes. -/
structure Memory where
  romSize : U16
  ramSize : U16
  rom : Fin 2048 → U8
  ram : Fin 2048 → U8

/-- What the bus callbacks work on, except for the journal. -/
structure Chips extends Memory where
  ppi : Ppi
  display : Display
  kbd : Keyboard
  dbgPort : U8
  stepStartCycles : U64
  unmappedIoWrites : U32

/-- The journal of RAM writes during a dry run. -/
structure Journal where
  trial : Bool
  trialN : U8
  trialIdx : Fin 8 → U16
  trialOld : Fin 8 → U8

structure Board extends Chips, Journal

/-! ## Address decoding -/

/-- Where an address leads. -/
inductive Cell
  | rom (index : Fin 2048)
  | ram (index : Fin 2048)

/-- A masked offset of at most 11 bits is an index, whatever the mask. -/
theorem and_lt_2048 {a : U16} (h : a < RAM_BASE) (mask : U16) : (a &&& mask).toNat < 2048 := by
  have ha : a.toNat < 2048 := h
  rw [BitVec.toNat_and]
  exact Nat.lt_of_le_of_lt Nat.and_le_left ha

theorem sub_base_lt {a : U16} (h : ¬ RAM_BASE + RAM_MAX ≤ a) (h' : ¬ a < RAM_BASE) :
    a - RAM_BASE < RAM_BASE := by
  unfold RAM_BASE RAM_MAX at *
  bv_omega

/-- `decode`. -/
def Memory.decode (b : Memory) (addr : U16) : Option Cell :=
  if h : RAM_BASE + RAM_MAX ≤ addr then none
  else if h' : addr < RAM_BASE then
    some (.rom ⟨(addr &&& (b.romSize - 1)).toNat, and_lt_2048 h' _⟩)
  else some (.ram ⟨(addr - RAM_BASE &&& (b.ramSize - 1)).toNat, and_lt_2048 (sub_base_lt h h') _⟩)

/-- `umk_peek`. -/
def Memory.peek (b : Memory) (addr : U16) : U8 :=
  match b.decode addr with
  | none => 0xFF
  | some (.rom i) => b.rom i
  | some (.ram i) => b.ram i

/-- Note the value about to be overwritten, if this is a dry run and there is room. -/
def Journal.note (j : Journal) (idx : Fin 2048) (old : U8) : Journal :=
  if j.trial ∧ j.trialN < 8 then
    { j with
      trialIdx := writeAt j.trialIdx j.trialN.toNat (BitVec.ofNat 16 idx)
      trialOld := writeAt j.trialOld j.trialN.toNat old
      trialN := j.trialN + 1 }
  else j

/-- `umk_poke`. -/
def Board.poke (b : Board) (addr : U16) (val : U8) : Board :=
  match b.decode addr with
  | none => b
  | some (.rom _) => b
  | some (.ram i) =>
    { b with
      toJournal := b.toJournal.note i (b.ram i)
      ram := Function.update b.ram i val }

/-- Undo the first `n` entries of the journal, the last one first. -/
def Journal.undo (j : Journal) : ℕ → (Fin 2048 → U8) → Fin 2048 → U8
  | 0, ram => ram
  | n + 1, ram => j.undo n (writeAt ram (readAt j.trialIdx n).toNat (readAt j.trialOld n))

/-! ## Keyboard and ports -/

/-- The bits of port C where each row appears. -/
def ROW_BIT : Fin 4 → ℕ
  | 0 => 2
  | 1 => 4
  | 2 => 5
  | 3 => 6

/-- `keyboard_scan`. -/
def Chips.keyboardScan (b : Chips) : U8 :=
  let cols := b.ppi.outA &&& 0x3F
  (List.finRange 6).foldl (fun value (c : Fin 6) =>
    if cols.getLsbD c then
      (List.finRange 4).foldl (fun value (r : Fin 4) =>
        if b.kbd.pressed c r then value &&& ~~~((1 : U8) <<< ROW_BIT r) else value) value
    else value) 0xFF

/-- `ppi_write_control`: a mode word, which clears the latches, or a bit of port C. -/
def Ppi.writeControl (p : Ppi) (val : U8) : Ppi :=
  if val &&& 0x80 ≠ 0 then
    { ctrl := val
      aIsOut := val &&& 0x10 == 0
      cHiIsOut := val &&& 0x08 == 0
      bIsOut := val &&& 0x02 == 0
      cLoIsOut := val &&& 0x01 == 0
      outA := 0
      outB := 0
      outC := 0 }
  else
    let bit := (val >>> 1 &&& 7).toNat
    if val &&& 1 ≠ 0 then { p with outC := p.outC ||| (1 : U8) <<< bit }
    else { p with outC := p.outC &&& ~~~((1 : U8) <<< bit) }

/-! ## The callbacks -/

/-- `bus_in`. -/
def Chips.busIn (b : Chips) (port : U8) : U8 :=
  if port = PORT_A then if b.ppi.aIsOut then b.ppi.outA else 0xFF
  else if port = PORT_B then if b.ppi.bIsOut then b.ppi.outB else 0xFF
  else if port = PORT_C then b.keyboardScan
  else if port = PORT_CTRL then 0xFF
  else if port = PORT_DBG then b.dbgPort
  else 0xFF

/-- The T state of an OUT instruction from which the port shows the new value. -/
def OUT_WRITE_OFFSET : U64 := 7

/-- `display_advance`. -/
def Chips.displayAdvance (b : Chips) (toCycle : U64) : Chips :=
  { b with display := b.display.advance b.ppi.outA b.ppi.outB toCycle }

/-- Integrate up to the T state at which an OUT changes the port. -/
def Chips.advanceToWrite (b : Chips) : Chips :=
  b.displayAdvance (b.stepStartCycles + OUT_WRITE_OFFSET)

/-- `bus_out`. -/
def Chips.busOut (b : Chips) (port val : U8) : Chips :=
  if port = PORT_A then
    let b := b.advanceToWrite
    if b.ppi.aIsOut then { b with ppi := { b.ppi with outA := val } } else b
  else if port = PORT_B then
    let b := b.advanceToWrite
    if b.ppi.bIsOut then { b with ppi := { b.ppi with outB := val } } else b
  else if port = PORT_C then
    let p := b.ppi
    let p := if p.cLoIsOut then { p with outC := p.outC &&& 0xF0 ||| val &&& 0x0F } else p
    let p := if p.cHiIsOut then { p with outC := p.outC &&& 0x0F ||| val &&& 0xF0 } else p
    { b with ppi := p }
  else if port = PORT_CTRL then
    let b := b.advanceToWrite
    { b with ppi := b.ppi.writeControl val }
  else if port = PORT_DBG then { b with dbgPort := val }
  else { b with unmappedIoWrites := b.unmappedIoWrites + 1 }

/-- `bus_read`, `bus_write`, `bus_in` and `bus_out`. The status word is not used. -/
def busHandler : Handler BusOp BusOp.Ans Board
  | .read addr _, b => (b.peek addr, b)
  | .write addr val _, b => ((), b.poke addr val)
  | .input port, b => (b.busIn port, b)
  | .output port val, b => ((), { b with toChips := b.toChips.busOut port val })

end Umk80
