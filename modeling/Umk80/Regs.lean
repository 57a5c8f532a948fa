import Umk80.Word

/-!
# Registers and the arithmetic unit

The part of `core/src/i8080.c` that computes without touching the bus: the condition flags, the
register pairs, the eight accumulator operations, and the tests of the conditional
instructions. Everything here is a function of the registers alone, which is why `Regs` is a
structure of its own: that an instruction's arithmetic leaves the interrupt state and the
machine-cycle trace alone is then a matter of type.

## Main definitions

* `Regs` — the programmer-visible registers, flag byte included
* `Regs.aluOp`, `Regs.aluDad`, `Regs.aluDaa` — the arithmetic
* `Regs.condTrue` — the condition of a conditional jump, call or return
-/

namespace Umk80

/-! ## The condition flags -/

def F_C : U8 := 0x01
def F_ONE : U8 := 0x02
def F_P : U8 := 0x04
def F_AC : U8 := 0x10
def F_Z : U8 := 0x40
def F_S : U8 := 0x80

/-- The bits of the flag byte that exist. -/
def F_MASK : U8 := F_C ||| F_P ||| F_AC ||| F_Z ||| F_S

/-- The registers of `i8080_t`. -/
structure Regs where
  a : U8
  f : U8
  b : U8
  c : U8
  d : U8
  e : U8
  h : U8
  l : U8
  sp : U16
  pc : U16
deriving DecidableEq

namespace Regs

/-! ## Flag helpers -/

/-- Even parity. -/
def parity8 (v : U8) : Bool :=
  let v := v ^^^ (v >>> 4)
  let v := v ^^^ (v >>> 2)
  let v := v ^^^ (v >>> 1)
  v &&& 1 == 0

/-- Carry out of bit `bit` when computing `a + b + cy`. -/
def carryOut (bit : ℕ) (a b : U8) (cy : Bool) : Bool :=
  let res : U16 := a.setWidth 16 + b.setWidth 16 + (if cy then 1 else 0)
  let mix := res ^^^ a.setWidth 16 ^^^ b.setWidth 16
  mix &&& (1 <<< bit) != 0

def setSzp (r : Regs) (v : U8) : Regs :=
  let f := r.f &&& ~~~(F_S ||| F_Z ||| F_P)
  let f := if v &&& 0x80 != 0 then f ||| F_S else f
  let f := if v == 0 then f ||| F_Z else f
  let f := if parity8 v then f ||| F_P else f
  -- bit 1 always reads 1, bits 3 and 5 always read 0
  { r with f := f &&& F_MASK ||| F_ONE }

def setFlag (r : Regs) (mask : U8) (on : Bool) : Regs :=
  { r with f := if on then r.f ||| mask else r.f &&& ~~~mask }

def getFlag (r : Regs) (mask : U8) : Bool := r.f &&& mask != 0

/-! ## Register pairs -/

def getBc (r : Regs) : U16 := word r.b r.c
def getDe (r : Regs) : U16 := word r.d r.e
def getHl (r : Regs) : U16 := word r.h r.l
def setBc (r : Regs) (v : U16) : Regs := { r with b := hiByte v, c := loByte v }
def setDe (r : Regs) (v : U16) : Regs := { r with d := hiByte v, e := loByte v }
def setHl (r : Regs) (v : U16) : Regs := { r with h := hiByte v, l := loByte v }

/-! ## The arithmetic and logic unit -/

def aluAdd (r : Regs) (val : U8) (cy : Bool) : Regs :=
  let res := r.a + val + (if cy then 1 else 0)
  let r₁ := r.setFlag F_C (carryOut 8 r.a val cy)
  let r₂ := r₁.setFlag F_AC (carryOut 4 r.a val cy)
  { r₂.setSzp res with a := res }

/-- `a + ~val + !cy` with the final carry inverted. -/
def aluSub (r : Regs) (val : U8) (cy : Bool) : Regs :=
  let r := r.aluAdd (~~~val) (!cy)
  r.setFlag F_C (!r.getFlag F_C)

def aluCmp (r : Regs) (val : U8) : Regs := { r.aluSub val false with a := r.a }

/-- AC comes from bit 3 of `a | val`. -/
def aluAna (r : Regs) (val : U8) : Regs :=
  let ac := (r.a ||| val) &&& 0x08 != 0
  let r := { r with a := r.a &&& val }
  ((r.setSzp r.a).setFlag F_C false).setFlag F_AC ac

def aluXra (r : Regs) (val : U8) : Regs :=
  let r := { r with a := r.a ^^^ val }
  ((r.setSzp r.a).setFlag F_C false).setFlag F_AC false

def aluOra (r : Regs) (val : U8) : Regs :=
  let r := { r with a := r.a ||| val }
  ((r.setSzp r.a).setFlag F_C false).setFlag F_AC false

/-- ADD ADC SUB SBB ANA XRA ORA CMP. -/
def aluOp (r : Regs) (op val : U8) : Regs :=
  match op with
  | 0#8 => r.aluAdd val false
  | 1#8 => r.aluAdd val (r.getFlag F_C)
  | 2#8 => r.aluSub val false
  | 3#8 => r.aluSub val (r.getFlag F_C)
  | 4#8 => r.aluAna val
  | 5#8 => r.aluXra val
  | 6#8 => r.aluOra val
  | _ => r.aluCmp val

def aluDad (r : Regs) (val : U16) : Regs :=
  let res : U32 := r.getHl.setWidth 32 + val.setWidth 32
  (r.setFlag F_C (res &&& 0x10000 != 0)).setHl (res.setWidth 16)

def aluDaa (r : Regs) : Regs :=
  let lsb := r.a &&& 0x0F
  let msb := r.a >>> 4
  let corr : U8 := if r.getFlag F_AC || 9 < lsb then 0x06 else 0
  let cy := r.getFlag F_C || 9 < msb || (9 ≤ msb && 9 < lsb)
  let corr := if cy then corr + 0x60 else corr
  (r.aluAdd corr false).setFlag F_C cy

/-! ## Conditions -/

/-- NZ Z NC C PO PE P M. -/
def condTrue (r : Regs) (cc : U8) : Bool :=
  match cc with
  | 0#8 => !r.getFlag F_Z
  | 1#8 => r.getFlag F_Z
  | 2#8 => !r.getFlag F_C
  | 3#8 => r.getFlag F_C
  | 4#8 => !r.getFlag F_P
  | 5#8 => r.getFlag F_P
  | 6#8 => !r.getFlag F_S
  | _ => r.getFlag F_S

end Regs

end Umk80
