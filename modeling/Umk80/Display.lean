import Mathlib.Data.List.FinRange
import Mathlib.Logic.Function.Basic
import Umk80.Word

/-!
# The display integrator

`umk_display_t` and the functions of `core/src/machine.c` that work on it. The program sets two
ports, one selecting digits and one segments; the integrator adds the time for which each
(digit, segment) pair was lit and lets everything decay with a time constant.

The accumulators are 32-bit and the time base is 64-bit, as in the source, so an overflow would
be visible here.

## Main definitions

* `Display.step` — one decay step
* `Display.advance` — integrate up to a T state with the given port latches
* `Display.intensity`, `Display.relative`, `Display.pattern` — what is read off
-/

namespace Umk80

def ENERGY_SCALE : U32 := 256
def DECAY_SHIFT : ℕ := 6
def DECAY_MAX_STEPS : ℕ := 512

/-- `umk_display_t`. -/
structure Display where
  energy : Fin 6 → Fin 8 → U32
  energyDigit : Fin 6 → U32
  total : U32
  integratedTo : U64
  tauCycles : U32
  decayAcc : U32
  bit0IsLeft : Bool

namespace Display

/-- `display_decay_step`. -/
def step (d : Display) : Display :=
  { d with
    energy := fun i j => d.energy i j - d.energy i j >>> DECAY_SHIFT
    energyDigit := fun i => d.energyDigit i - d.energyDigit i >>> DECAY_SHIFT
    total := d.total - d.total >>> DECAY_SHIFT }

/-- The panel position of the digit that a bit of port A selects. -/
def position (d : Display) (bit : Fin 6) : Fin 6 := if d.bit0IsLeft then bit else bit.rev

/-- Add `dt` to one digit and to its lit segments. -/
def depositDigit (d : Display) (dt : U32) (seg : U8) (pos : Fin 6) : Display :=
  { d with
    energyDigit := Function.update d.energyDigit pos (d.energyDigit pos + dt * ENERGY_SCALE)
    energy := Function.update d.energy pos fun s =>
      if seg.getLsbD s then d.energy pos s + dt * ENERGY_SCALE else d.energy pos s }

/-- Add `dt` to the selected digits, to the lit segments and to the total. -/
def deposit (d : Display) (dt : U32) (sel seg : U8) : Display :=
  let d := (List.finRange 6).foldl (fun d (bit : Fin 6) =>
    if sel.getLsbD bit then d.depositDigit dt seg (d.position bit) else d) d
  { d with total := d.total + dt * ENERGY_SCALE }

def stepSize (d : Display) : U32 :=
  let size := d.tauCycles >>> DECAY_SHIFT
  if size = 0 then 1 else size

/-- The decay loop: at most `n` more steps, after `steps` steps. -/
def decayLoop (stepSize : U32) : ℕ → ℕ → Display → ℕ × Display
  | 0, steps, d => (steps, d)
  | n + 1, steps, d =>
    if stepSize ≤ d.decayAcc then
      decayLoop stepSize n (steps + 1) ({ d with decayAcc := d.decayAcc - stepSize } : Display).step
    else (steps, d)

/-- Zero every accumulator. -/
def blackout (d : Display) : Display :=
  { d with energy := fun _ _ => 0, energyDigit := fun _ => 0, total := 0, decayAcc := 0 }

/-- Let `dt` T states of decay pass. -/
def decay (d : Display) (dt : U32) : Display :=
  let r := decayLoop d.stepSize DECAY_MAX_STEPS 0 { d with decayAcc := d.decayAcc + dt }
  if DECAY_MAX_STEPS ≤ r.1 then r.2.blackout else r.2

/-- The part of `display_advance` after the interval has been computed. -/
def integrate (d : Display) (dt : U32) (sel seg : U8) : Display := (d.deposit dt sel seg).decay dt

/-- The longest interval integrated at once. -/
def interval (delta : U64) : U32 := if 0x00100000 < delta then 0x00100000 else delta.setWidth 32

/-- `display_advance`, with the port latches of the ВВ55. -/
def advance (d : Display) (outA outB : U8) (toCycle : U64) : Display :=
  if toCycle ≤ d.integratedTo then d
  else
    ({ d with integratedTo := toCycle } : Display).integrate (interval (toCycle - d.integratedTo))
      (outA &&& 0x3F) outB

/-- The quotient both readings use, clamped to 255. -/
def brightness (energy norm : U32) : U8 :=
  if norm = 0 then 0
  else
    let t : U64 := energy.setWidth 64 * 255 / norm.setWidth 64
    (if 255 < t then 255 else t).setWidth 8

/-- `umk_display_intensity`. -/
def intensity (d : Display) (i : Fin 6) (j : Fin 8) : U8 := brightness (d.energy i j) d.total

/-- `umk_display_relative`. -/
def relative (d : Display) (i : Fin 6) (j : Fin 8) : U8 :=
  brightness (d.energy i j) (d.energyDigit i)

/-- `umk_display_pattern`. -/
def pattern (d : Display) (threshold : U8) (i : Fin 6) : U8 :=
  (List.finRange 8).foldl (fun mask (j : Fin 8) =>
    if threshold < d.relative i j then mask ||| (1 : U8) <<< (j : ℕ) else mask) 0

/-- `umk_display_clear_accumulator`, at T state `now`. -/
def clearAccumulator (d : Display) (now : U64) : Display := { d.blackout with integratedTo := now }

/-- `umk_display_set_persistence`. -/
def setPersistence (d : Display) (tau : U32) : Display :=
  { d with tauCycles := if tau = 0 then 1 else tau, decayAcc := 0 }

end Display

end Umk80
