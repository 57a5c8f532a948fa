import Umk80.Isa.BoardView
import Umk80.Isa.Blocks
import Umk80.Monitor.Image

/-!
# The monitor in ROM

On a board whose ROM holds the image, the instructions of a routine run as the instruction set says.
No program can change this, since writes below `RAM_BASE` have no effect.

The monitor keeps its stack and its variables in the last bytes of RAM, from `STACK_LOW` on. The
first kilobyte of RAM, mirrored or not, never aliases these addresses with each other, so what
follows holds of both revisions of the board.

## Main definitions

* `Monitor.Loaded`, `Monitor.Running` — a board whose ROM holds the image, and a processor running

## Main results

* `Monitor.kept_loaded` — no program breaks the monitor
* `Monitor.Routine.codeAt`, `Monitor.Table.mem` — routines and tables are in memory
* `Monitor.piece`, `Monitor.piece_hushed` — instructions of a routine run
-/

namespace Umk80

namespace Monitor

open Isa TimedRuns
open I8080 (CodeAt)

/-- The ROM holds the monitor. -/
def Loaded (v : View) : Prop := ∀ a < RAM_BASE, v.mem a = romByte a

theorem Loaded.write {v : View} (h : Loaded v) (a : U16) (x : U8) : Loaded (v.write a x) := by
  intro c hc
  have hread : (v.write a x).mem c = v.mem c :=
    if_neg fun hs => absurd hs.1 (BitVec.not_le.mpr hc)
  rw [hread, h c hc]

/-- **No program breaks the monitor.** -/
theorem kept_loaded : Kept View.env Loaded :=
  ⟨fun _ a x h => h.write a x, fun _ _ _ h => h⟩

/-! ## Routines and tables -/

namespace Routine

variable {v : View}

theorem codeAt (R : Routine) (hv : Loaded v) : CodeAt v.mem R.entry (bytes R.code) := by
  obtain ⟨hlen, himage⟩ := Bool.and_eq_true_iff.mp R.lies
  have hlen : R.entry.toNat + (bytes R.code).length ≤ 0x800 := of_decide_eq_true hlen
  have himage := eq_of_beq himage
  intro i hi
  have hnat : (R.entry + BitVec.ofNat 16 i).toNat = R.entry.toNat + i := by
    rw [BitVec.toNat_add, BitVec.toNat_ofNat]
    omega
  have hlow : R.entry + BitVec.ofNat 16 i < RAM_BASE := by
    rw [BitVec.lt_def, hnat]
    change _ < 0x800
    omega
  have hget : ((IMAGE.drop R.entry.toNat).take (bytes R.code).length)[i]? =
      IMAGE[R.entry.toNat + i]? := by
    rw [List.getElem?_take_of_lt hi, List.getElem?_drop]
  rw [hv _ hlow, romByte, hnat, List.getD_eq_getElem?_getD, ← hget, himage,
    List.getElem?_eq_getElem hi]
  rfl

theorem codeAt_piece (R : Routine) (hv : Loaded v) (k n : ℕ) :
    CodeAt v.mem (R.addr k) (bytes (R.piece k n)) := by
  have hcode := R.codeAt hv
  have hsplit : bytes R.code = bytes (R.code.take k) ++
      (bytes (R.piece k n) ++ bytes ((R.code.drop k).drop n)) := by
    rw [bytes, bytes, bytes, bytes, piece, ← List.flatMap_append, ← List.flatMap_append,
      List.take_append_drop, List.take_append_drop]
  rw [hsplit] at hcode
  exact hcode.append_right.append_left

end Routine

namespace Table

variable {T : Table} {v : View} {x : U8}

/-- A byte of a table. -/
theorem mem (hv : Loaded v) {i : ℕ} {a : U16} (ha : a = T.entry + BitVec.ofNat 16 i)
    (hx : T.data[i]? = some x) : v.mem a = x := by
  obtain ⟨hlen, himage⟩ := Bool.and_eq_true_iff.mp T.lies
  have hlen : T.entry.toNat + T.data.length ≤ 0x800 := of_decide_eq_true hlen
  obtain ⟨hi, -⟩ := List.getElem?_eq_some_iff.mp hx
  have hnat : a.toNat = T.entry.toNat + i := by
    rw [ha, BitVec.toNat_add, BitVec.toNat_ofNat]
    omega
  have hlow : a < RAM_BASE := by
    rw [BitVec.lt_def, hnat]
    change _ < 0x800
    omega
  have hget := congrArg (·[i]?) (eq_of_beq himage)
  simp only [List.getElem?_take_of_lt hi, List.getElem?_drop] at hget
  rw [hv _ hlow, romByte, hnat, List.getD_eq_getElem?_getD, hget, hx]
  rfl

end Table

/-! ## Code in ROM runs -/

/-- Instructions of the board. -/
abbrev M : Clocked (State View) := State.clocked View.env

/-- The processor is running, and the monitor is in ROM. -/
structure Running (s : State View) : Prop where
  loaded : Loaded s.env
  awake : s.halted = false

section Rules

variable {s : State View} {u : ℕ} {Q : State View → Prop}

theorem jump_self {a : U16} (h : s.pc = a) : jump s a = s := by
  subst h
  rfl

/-- Some instructions, of which only the last may jump, and the state behind them. -/
theorem piece (R : Routine) (k n : ℕ) {c : ℕ} (hstraight : straight (R.piece k n) = true)
    (hc : most (R.piece k n) = c) (hs : Running s) (hpc : s.pc = R.addr k) {s' : State View}
    (hs' : runs View.env (jump s (R.addr k)) (R.piece k n) = s') (h : Leads M s' u Q) :
    Leads M s (c + u) Q := by
  rw [jump_self hpc] at hs'
  subst hs'
  exact leads_block kept_loaded (fun e he => R.codeAt_piece he k n) hstraight hs.loaded
    hpc hs.awake h (Nat.le_of_eq (congrArg (· + u) hc))

/-- The same for instructions on which nothing happens outside, up to the last one. -/
theorem piece_hushed {C : View → Prop} (R : Routine) (k n : ℕ) {c : ℕ}
    (hstraight : straight (R.piece k n) = true) (hhushed : hushed (R.piece k n) = true)
    (hc : most (R.piece k n) = c) (hs : Running s) (hC : C s.env) (hpc : s.pc = R.addr k)
    {s' : State View} (hs' : runs View.env (jump s (R.addr k)) (R.piece k n) = s')
    (h : Within M (Hushed View.env C) u Q s') : Within M (Hushed View.env C) (c + u) Q s := by
  rw [jump_self hpc] at hs'
  subst hs' hc
  have hrun := through_hushed kept_loaded (fun e he => R.codeAt_piece he k n) hstraight hhushed
    hs.loaded hC hpc hs.awake
  exact (Within.after hrun h).le (Nat.add_le_add_right (spent_le_most s _) u)

end Rules

end Monitor

end Umk80
