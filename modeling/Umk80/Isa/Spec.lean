import Umk80.Lib.TimedRuns
import Umk80.Regs

/-!
# The instruction set

The 8080 as its programmer knows it: instructions with operands, registers, five flags, and memory
and ports behind them. The arithmetic is said in numbers, the conditions in flags, and an opcode is
taken apart once, by `decode`.

Two points of the interrupt input are taken from the interpreter: an EI that is executed in the
shadow of another EI holds nothing off, and a byte from outside takes its operand from the program.
The memory and the ports are of a simple kind. To read them changes nothing, and they do not look
at the status of a cycle, so that a queue behind a port is not among them.

That the interpreter of `core/src/i8080.c` implements this is `Isa.refined_step` for one call of
`i8080_step`, and `Isa.view_runActs` for runs. What programs do is proved against `State.step`.

## Main definitions

* `Isa.Insn`, `Isa.Insn.bytes`, `Isa.decode` — instructions and their bytes
* `Isa.State`, `Isa.Bus` — the programmer's view of the processor, and what lies behind it
* `Isa.exec`, `Isa.State.step` — one instruction
* `Isa.Latched` — the processor with its interrupt input
-/

namespace Umk80

namespace Isa

open TimedRuns

/-! ## Instructions -/

/-- An 8-bit operand: a register, or the memory cell that HL points to. -/
inductive Operand
  | b | c | d | e | h | l | m | a
deriving DecidableEq

/-- A 16-bit operand. -/
inductive Pair
  | bc | de | hl | sp
deriving DecidableEq

/-- What PUSH and POP move. -/
inductive Saved
  | bc | de | hl | psw
deriving DecidableEq

/-- The eight operations on the accumulator. -/
inductive Alu
  | add | adc | sub | sbb | ana | xra | ora | cmp
deriving DecidableEq

/-- The conditions of jumps, calls and returns. -/
inductive Cond
  | nz | z | nc | c | po | pe | p | m
deriving DecidableEq

inductive Insn
  | nop | hlt | di | ei
  | mov (dst src : Operand)
  | mvi (dst : Operand) (v : U8)
  | lxi (p : Pair) (v : U16)
  | alu (op : Alu) (src : Operand)
  | alui (op : Alu) (v : U8)
  | inr (o : Operand) | dcr (o : Operand)
  | inx (p : Pair) | dcx (p : Pair) | dad (p : Pair)
  | ldaxB | ldaxD | staxB | staxD
  | lhld (a : U16) | shld (a : U16) | lda (a : U16) | sta (a : U16)
  | rlc | rrc | ral | rar | daa | cma | stc | cmc
  | xchg | xthl | sphl | pchl
  | push (p : Saved) | pop (p : Saved)
  | inp (port : U8) | out (port : U8)
  | jmp (a : U16) | jcc (cc : Cond) (a : U16)
  | call (a : U16) | ccc (cc : Cond) (a : U16)
  | ret | rcc (cc : Cond)
  | rst (n : Fin 8)
deriving DecidableEq

/-! ## Bytes -/

def Operand.code : Operand → U8
  | .b => 0 | .c => 1 | .d => 2 | .e => 3 | .h => 4 | .l => 5 | .m => 6 | .a => 7

def Pair.code : Pair → U8
  | .bc => 0 | .de => 1 | .hl => 2 | .sp => 3

def Saved.code : Saved → U8
  | .bc => 0 | .de => 1 | .hl => 2 | .psw => 3

def Alu.code : Alu → U8
  | .add => 0 | .adc => 1 | .sub => 2 | .sbb => 3 | .ana => 4 | .xra => 5 | .ora => 6 | .cmp => 7

def Cond.code : Cond → U8
  | .nz => 0 | .z => 1 | .nc => 2 | .c => 3 | .po => 4 | .pe => 5 | .p => 6 | .m => 7

namespace Insn

def opcode : Insn → U8
  | nop => 0x00 | hlt => 0x76 | di => 0xF3 | ei => 0xFB
  | mov dst src => 0x40 ||| dst.code <<< 3 ||| src.code
  | mvi dst _ => 0x06 ||| dst.code <<< 3
  | lxi p _ => 0x01 ||| p.code <<< 4
  | alu op src => 0x80 ||| op.code <<< 3 ||| src.code
  | alui op _ => 0xC6 ||| op.code <<< 3
  | inr o => 0x04 ||| o.code <<< 3
  | dcr o => 0x05 ||| o.code <<< 3
  | inx p => 0x03 ||| p.code <<< 4
  | dcx p => 0x0B ||| p.code <<< 4
  | dad p => 0x09 ||| p.code <<< 4
  | ldaxB => 0x0A | ldaxD => 0x1A | staxB => 0x02 | staxD => 0x12
  | lhld _ => 0x2A | shld _ => 0x22 | lda _ => 0x3A | sta _ => 0x32
  | rlc => 0x07 | rrc => 0x0F | ral => 0x17 | rar => 0x1F
  | daa => 0x27 | cma => 0x2F | stc => 0x37 | cmc => 0x3F
  | xchg => 0xEB | xthl => 0xE3 | sphl => 0xF9 | pchl => 0xE9
  | push p => 0xC5 ||| p.code <<< 4
  | pop p => 0xC1 ||| p.code <<< 4
  | inp _ => 0xDB | out _ => 0xD3
  | jmp _ => 0xC3
  | jcc cc _ => 0xC2 ||| cc.code <<< 3
  | call _ => 0xCD
  | ccc cc _ => 0xC4 ||| cc.code <<< 3
  | ret => 0xC9
  | rcc cc => 0xC0 ||| cc.code <<< 3
  | rst n => 0xC7 ||| BitVec.ofNat 8 n <<< 3

/-- The bytes after the opcode. -/
def args : Insn → List U8
  | mvi _ v | alui _ v | inp v | out v => [v]
  | lxi _ w | lhld w | shld w | lda w | sta w | jmp w | jcc _ w | call w | ccc _ w =>
    [loByte w, hiByte w]
  | _ => []

/-- An instruction in memory: the opcode, then its operand with the low byte first. -/
def bytes (i : Insn) : List U8 := i.opcode :: i.args

def length (i : Insn) : ℕ := i.bytes.length

end Insn

def Operand.ofCode (n : U8) : Operand :=
  match n &&& 7 with
  | 0#8 => .b | 1#8 => .c | 2#8 => .d | 3#8 => .e | 4#8 => .h | 5#8 => .l | 6#8 => .m | _ => .a

def Pair.ofCode (n : U8) : Pair :=
  match n &&& 3 with
  | 0#8 => .bc | 1#8 => .de | 2#8 => .hl | _ => .sp

def Saved.ofCode (n : U8) : Saved :=
  match n &&& 3 with
  | 0#8 => .bc | 1#8 => .de | 2#8 => .hl | _ => .psw

def Alu.ofCode (n : U8) : Alu :=
  match n &&& 7 with
  | 0#8 => .add | 1#8 => .adc | 2#8 => .sub | 3#8 => .sbb
  | 4#8 => .ana | 5#8 => .xra | 6#8 => .ora | _ => .cmp

def Cond.ofCode (n : U8) : Cond :=
  match n &&& 7 with
  | 0#8 => .nz | 1#8 => .z | 2#8 => .nc | 3#8 => .c
  | 4#8 => .po | 5#8 => .pe | 6#8 => .p | _ => .m

/-- The same instruction with the operand bytes `v` and `v'`. -/
def Insn.withArgs (v v' : U8) : Insn → Insn
  | .mvi dst _ => .mvi dst v
  | .lxi p _ => .lxi p (word v' v)
  | .alui op _ => .alui op v
  | .lhld _ => .lhld (word v' v)
  | .shld _ => .shld (word v' v)
  | .lda _ => .lda (word v' v)
  | .sta _ => .sta (word v' v)
  | .inp _ => .inp v
  | .out _ => .out v
  | .jmp _ => .jmp (word v' v)
  | .jcc cc _ => .jcc cc (word v' v)
  | .call _ => .call (word v' v)
  | .ccc cc _ => .ccc cc (word v' v)
  | i => i

/-- The instructions of the first quarter of the opcodes, by the low three bits. -/
def decodeLow (y : U8) : U8 → Insn
  | 0#8 => .nop
  | 1#8 => if y &&& 1 = 0 then .lxi (.ofCode (y >>> 1)) 0 else .dad (.ofCode (y >>> 1))
  | 2#8 =>
    match y with
    | 0#8 => .staxB | 1#8 => .ldaxB | 2#8 => .staxD | 3#8 => .ldaxD
    | 4#8 => .shld 0 | 5#8 => .lhld 0 | 6#8 => .sta 0 | _ => .lda 0
  | 3#8 => if y &&& 1 = 0 then .inx (.ofCode (y >>> 1)) else .dcx (.ofCode (y >>> 1))
  | 4#8 => .inr (.ofCode y)
  | 5#8 => .dcr (.ofCode y)
  | 6#8 => .mvi (.ofCode y) 0
  | _ =>
    match y with
    | 0#8 => .rlc | 1#8 => .rrc | 2#8 => .ral | 3#8 => .rar
    | 4#8 => .daa | 5#8 => .cma | 6#8 => .stc | _ => .cmc

/-- The instructions of the last quarter. CBH, D9H, DDH, EDH and FDH are not documented and do what
JMP, RET and CALL do. -/
def decodeHigh (y : U8) : U8 → Insn
  | 0#8 => .rcc (.ofCode y)
  | 1#8 =>
    if y &&& 1 = 0 then .pop (.ofCode (y >>> 1))
    else match y with
      | 5#8 => .pchl
      | 7#8 => .sphl
      | _ => .ret
  | 2#8 => .jcc (.ofCode y) 0
  | 3#8 =>
    match y with
    | 2#8 => .out 0 | 3#8 => .inp 0 | 4#8 => .xthl | 5#8 => .xchg | 6#8 => .di | 7#8 => .ei
    | _ => .jmp 0
  | 4#8 => .ccc (.ofCode y) 0
  | 5#8 => if y &&& 1 = 0 then .push (.ofCode (y >>> 1)) else .call 0
  | 6#8 => .alui (.ofCode y) 0
  | _ => .rst (Fin.ofNat 8 y.toNat)

/-- The instruction of an opcode, its operand left at zero. -/
def decodeOp (op : U8) : Insn :=
  let y := op >>> 3 &&& 7
  match op >>> 6 with
  | 0#8 => decodeLow y (op &&& 7)
  | 1#8 => if op = 0x76 then .hlt else .mov (.ofCode y) (.ofCode op)
  | 2#8 => .alu (.ofCode y) (.ofCode op)
  | _ => decodeHigh y (op &&& 7)

/-- The instruction that starts with the opcode `op` and goes on with the bytes `v` and `v'`. -/
def decode (op v v' : U8) : Insn := (decodeOp op).withArgs v v'

/-! ## Processor and surroundings -/

structure Flags where
  sign : Bool
  zero : Bool
  aux : Bool
  parity : Bool
  carry : Bool
deriving DecidableEq

/-- The flags as a byte. -/
def Flags.byte (fl : Flags) : U8 :=
  (if fl.sign then F_S else 0) ||| (if fl.zero then F_Z else 0) ||| (if fl.aux then F_AC else 0) |||
    (if fl.parity then F_P else 0) ||| (if fl.carry then F_C else 0) ||| F_ONE

/-- The flags in a byte. -/
def Flags.ofByte (f : U8) : Flags :=
  ⟨f &&& F_S != 0, f &&& F_Z != 0, f &&& F_AC != 0, f &&& F_P != 0, f &&& F_C != 0⟩

/-- The registers and flags. -/
structure Cpu where
  a : U8
  b : U8
  c : U8
  d : U8
  e : U8
  h : U8
  l : U8
  flags : Flags
  sp : U16
  pc : U16
deriving DecidableEq

/-- Memory and ports. To read them changes nothing, and the status of the cycle does not matter to
them; an `i8080_bus_t` is free to do otherwise. -/
structure Bus (σ : Type) where
  read : σ → U16 → U8
  write : σ → U16 → U8 → σ
  input : σ → U8 → U8
  output : σ → U8 → U8 → σ

structure State (σ : Type) extends Cpu where
  inte : Bool
  halted : Bool
  env : σ

namespace Cpu

def bc (s : Cpu) : U16 := word s.b s.c
def de (s : Cpu) : U16 := word s.d s.e
def hl (s : Cpu) : U16 := word s.h s.l

end Cpu

namespace State

variable {σ : Type}

def setBc (s : State σ) (v : U16) : State σ := { s with b := hiByte v, c := loByte v }
def setDe (s : State σ) (v : U16) : State σ := { s with d := hiByte v, e := loByte v }
def setHl (s : State σ) (v : U16) : State σ := { s with h := hiByte v, l := loByte v }

end State

/-! ## Effects -/

variable {σ : Type} (E : Bus σ)

def get (s : State σ) : Operand → U8
  | .b => s.b
  | .c => s.c
  | .d => s.d
  | .e => s.e
  | .h => s.h
  | .l => s.l
  | .m => E.read s.env s.hl
  | .a => s.a

def set (s : State σ) (v : U8) : Operand → State σ
  | .b => { s with b := v }
  | .c => { s with c := v }
  | .d => { s with d := v }
  | .e => { s with e := v }
  | .h => { s with h := v }
  | .l => { s with l := v }
  | .m => { s with env := E.write s.env s.hl v }
  | .a => { s with a := v }

@[simp]
theorem set_pc (s : State σ) (v : U8) (o : Operand) : (set E s v o).pc = s.pc := by
  cases o
  all_goals rfl

@[simp]
theorem set_inte (s : State σ) (v : U8) (o : Operand) : (set E s v o).inte = s.inte := by
  cases o
  all_goals rfl

@[simp]
theorem set_halted (s : State σ) (v : U8) (o : Operand) : (set E s v o).halted = s.halted := by
  cases o
  all_goals rfl

/-- Only M is in memory. -/
theorem set_env (s : State σ) (v : U8) {o : Operand} (ho : o ≠ .m) :
    (set E s v o).env = s.env := by
  cases o with
  | m => exact absurd rfl ho
  | _ => rfl

def getPair (s : State σ) : Pair → U16
  | .bc => s.bc
  | .de => s.de
  | .hl => s.hl
  | .sp => s.sp

def setPair (s : State σ) (v : U16) : Pair → State σ
  | .bc => s.setBc v
  | .de => s.setDe v
  | .hl => s.setHl v
  | .sp => { s with sp := v }

def getSaved (s : State σ) : Saved → U16
  | .bc => s.bc
  | .de => s.de
  | .hl => s.hl
  | .psw => word s.a s.flags.byte

def setSaved (s : State σ) (v : U16) : Saved → State σ
  | .bc => s.setBc v
  | .de => s.setDe v
  | .hl => s.setHl v
  | .psw => { s with a := hiByte v, flags := .ofByte (loByte v) }

/-- An even number of ones. -/
def evenParity (v : U8) : Bool := (List.range 8).countP v.getLsbD % 2 == 0

/-- Sign, zero and parity of a result; the two carries stay. -/
def Flags.result (fl : Flags) (v : U8) : Flags :=
  { fl with sign := v.msb, zero := v == 0, parity := evenParity v }

/-- A sum, with the carries out of bits 7 and 3. -/
def sum (s : State σ) (v : U8) (cy : Bool) : State σ :=
  let res := BitVec.ofNat 8 (s.a.toNat + v.toNat + cy.toNat)
  { s with
    a := res
    flags := Flags.result { s.flags with
      aux := decide (16 ≤ s.a.toNat % 16 + v.toNat % 16 + cy.toNat)
      carry := decide (256 ≤ s.a.toNat + v.toNat + cy.toNat) } res }

/-- The result as processors compute it. -/
theorem ofNat_sum (x v : U8) (cy : Bool) :
    BitVec.ofNat 8 (x.toNat + v.toNat + cy.toNat) = x + v + if cy then 1 else 0 := by
  have hcy : BitVec.ofNat 8 cy.toNat = if cy then 1 else 0 := by
    cases cy
    all_goals rfl
  rw [BitVec.ofNat_add, BitVec.ofNat_add, BitVec.ofNat_toNat, BitVec.ofNat_toNat,
    BitVec.setWidth_eq, BitVec.setWidth_eq, hcy]

/-- Without a carry in. -/
theorem ofNat_sum_false (x v : U8) :
    BitVec.ofNat 8 (x.toNat + v.toNat + false.toNat) = x + v := by
  rw [ofNat_sum]
  exact BitVec.add_zero _

/-- The flags of a difference: a borrow out of bit 7, and no borrow out of bit 3. -/
def differenceFlags (fl : Flags) (x v : U8) (cy : Bool) : Flags :=
  Flags.result { fl with
    aux := decide (v.toNat % 16 + cy.toNat ≤ x.toNat % 16)
    carry := decide (x.toNat < v.toNat + cy.toNat) } (x - v - BitVec.ofNat 8 cy.toNat)

def difference (s : State σ) (v : U8) (cy : Bool) : State σ :=
  { s with a := s.a - v - BitVec.ofNat 8 cy.toNat, flags := differenceFlags s.flags s.a v cy }

/-- A bitwise operation clears the carry. -/
def bitwise (s : State σ) (res : U8) (aux : Bool) : State σ :=
  { s with a := res, flags := Flags.result { s.flags with aux := aux, carry := false } res }

def accumulate (s : State σ) (v : U8) : Alu → State σ
  | .add => sum s v false
  | .adc => sum s v s.flags.carry
  | .sub => difference s v false
  | .sbb => difference s v s.flags.carry
  | .ana => bitwise s (s.a &&& v) ((s.a ||| v).getLsbD 3)
  | .xra => bitwise s (s.a ^^^ v) false
  | .ora => bitwise s (s.a ||| v) false
  | .cmp => { s with flags := differenceFlags s.flags s.a v false }

/-- Decimal adjustment: 6 for a low digit that is none or has carried, 60H for a high one. -/
def adjust (s : State σ) : State σ :=
  let low := s.flags.aux || decide (9 < s.a.toNat % 16)
  let high := s.flags.carry || decide (0x99 < s.a.toNat)
  let corr := (if low then 6 else 0) + if high then 0x60 else 0
  let s' := sum s (BitVec.ofNat 8 corr) false
  { s' with flags := { s'.flags with carry := high } }

def Cond.holds (fl : Flags) : Cond → Bool
  | .nz => !fl.zero
  | .z => fl.zero
  | .nc => !fl.carry
  | .c => fl.carry
  | .po => !fl.parity
  | .pe => fl.parity
  | .p => !fl.sign
  | .m => fl.sign

def push (s : State σ) (v : U16) : State σ :=
  { s with
    sp := s.sp - 2
    env := E.write (E.write s.env (s.sp - 1) (hiByte v)) (s.sp - 2) (loByte v) }

/-- The word on the stack. -/
def top (s : State σ) : U16 := word (E.read s.env (s.sp + 1)) (E.read s.env s.sp)

def drop (s : State σ) : State σ := { s with sp := s.sp + 2 }

def jump (s : State σ) (a : U16) : State σ := { s with pc := a }

/-- An instruction, with the program counter already behind it. -/
def act (s : State σ) : Insn → State σ
  | .nop => s
  | .hlt => { s with halted := true }
  | .di => { s with inte := false }
  | .ei => { s with inte := true }
  | .mov dst src => set E s (get E s src) dst
  | .mvi dst v => set E s v dst
  | .lxi p v => setPair s v p
  | .alu op src => accumulate s (get E s src) op
  | .alui op v => accumulate s v op
  | .inr o =>
    let res := get E s o + 1
    set E { s with flags := Flags.result { s.flags with aux := res.toNat % 16 == 0 } res } res o
  | .dcr o =>
    let res := get E s o - 1
    set E { s with flags := Flags.result { s.flags with aux := res.toNat % 16 != 15 } res } res o
  | .inx p => setPair s (getPair s p + 1) p
  | .dcx p => setPair s (getPair s p - 1) p
  | .dad p =>
    { s.setHl (s.hl + getPair s p) with
      flags := { s.flags with carry := decide (65536 ≤ s.hl.toNat + (getPair s p).toNat) } }
  | .ldaxB => { s with a := E.read s.env s.bc }
  | .ldaxD => { s with a := E.read s.env s.de }
  | .staxB => { s with env := E.write s.env s.bc s.a }
  | .staxD => { s with env := E.write s.env s.de s.a }
  | .lhld a => { s with l := E.read s.env a, h := E.read s.env (a + 1) }
  | .shld a => { s with env := E.write (E.write s.env a s.l) (a + 1) s.h }
  | .lda a => { s with a := E.read s.env a }
  | .sta a => { s with env := E.write s.env a s.a }
  | .rlc => { s with a := s.a.rotateLeft 1, flags := { s.flags with carry := s.a.getLsbD 7 } }
  | .rrc => { s with a := s.a.rotateRight 1, flags := { s.flags with carry := s.a.getLsbD 0 } }
  | .ral =>
    { s with
      a := s.a <<< 1 ||| (BitVec.ofBool s.flags.carry).setWidth 8
      flags := { s.flags with carry := s.a.getLsbD 7 } }
  | .rar =>
    { s with
      a := s.a >>> 1 ||| (BitVec.ofBool s.flags.carry).setWidth 8 <<< 7
      flags := { s.flags with carry := s.a.getLsbD 0 } }
  | .daa => adjust s
  | .cma => { s with a := ~~~s.a }
  | .stc => { s with flags := { s.flags with carry := true } }
  | .cmc => { s with flags := { s.flags with carry := !s.flags.carry } }
  | .xchg => (s.setHl s.de).setDe s.hl
  | .xthl => (push E (drop s) s.hl).setHl (top E s)
  | .sphl => { s with sp := s.hl }
  | .pchl => jump s s.hl
  | .push p => push E s (getSaved s p)
  | .pop p => setSaved (drop s) (top E s) p
  | .inp port => { s with a := E.input s.env port }
  | .out port => { s with env := E.output s.env port s.a }
  | .jmp a => jump s a
  | .jcc cc a => if cc.holds s.flags then jump s a else s
  | .call a => jump (push E s s.pc) a
  | .ccc cc a => if cc.holds s.flags then jump (push E s s.pc) a else s
  | .ret => jump (drop s) (top E s)
  | .rcc cc => if cc.holds s.flags then jump (drop s) (top E s) else s
  | .rst n => jump (push E s s.pc) (BitVec.ofNat 16 (8 * n))

/-- The program counter `n` bytes further. -/
def State.skip (s : State σ) (n : ℕ) : State σ := { s with pc := s.pc + BitVec.ofNat 16 n }

/-- **One instruction.** -/
def exec (s : State σ) (i : Insn) : State σ := act E (s.skip i.length) i

/-- The T states of an instruction. -/
def Insn.cost (fl : Flags) : Insn → ℕ
  | .mov dst src => if dst = .m ∨ src = .m then 7 else 5
  | .mvi dst _ => if dst = .m then 10 else 7
  | .alu _ src => if src = .m then 7 else 4
  | .inr o | .dcr o => if o = .m then 10 else 5
  | .hlt | .alui _ _ | .ldaxB | .ldaxD | .staxB | .staxD => 7
  | .inx _ | .dcx _ | .sphl | .pchl => 5
  | .lxi _ _ | .dad _ | .pop _ | .inp _ | .out _ | .jmp _ | .jcc _ _ | .ret => 10
  | .lhld _ | .shld _ => 16
  | .lda _ | .sta _ => 13
  | .xthl => 18
  | .push _ | .rst _ => 11
  | .call _ => 17
  | .ccc cc _ => if cc.holds fl then 17 else 11
  | .rcc cc => if cc.holds fl then 11 else 5
  | _ => 4

/-- The instruction at the program counter. -/
def State.fetch (s : State σ) : Insn :=
  decode (E.read s.env s.pc) (E.read s.env (s.pc + 1)) (E.read s.env (s.pc + 2))

/-- **One step**: the instruction at the program counter, or an idle cycle while halted. -/
def State.step (s : State σ) : State σ := if s.halted then s else exec E s (s.fetch E)

def State.cost (s : State σ) : ℕ := if s.halted then 4 else (s.fetch E).cost s.flags

theorem Insn.cost_pos (i : Insn) (fl : Flags) : 0 < i.cost fl := by
  have hite : ∀ (p : Prop) [Decidable p] (m n : ℕ), 0 < if p then m + 1 else n + 1 := by
    intro p _ m n
    split
    all_goals exact Nat.succ_pos _
  cases i with
  | mov dst src => exact hite _ 6 4
  | mvi dst v => exact hite _ 9 6
  | alu op src => exact hite _ 6 3
  | inr o => exact hite _ 9 4
  | dcr o => exact hite _ 9 4
  | ccc cc a => exact hite _ 16 10
  | rcc cc => exact hite _ 10 4
  | _ => exact Nat.succ_pos _

theorem State.cost_pos (s : State σ) : 0 < s.cost E := by
  rw [State.cost]
  split
  · decide
  · exact Insn.cost_pos _ _

/-- Instructions one after the other. -/
def State.clocked : Clocked (State σ) := ⟨State.step E, State.cost E⟩

/-! ## Interrupts -/

/-- The processor with its interrupt input: the byte that waits to be executed, and whether an EI
holds it off for one instruction more. -/
structure Latched (σ : Type) extends State σ where
  request : Option U8
  shadow : Bool

namespace Latched

variable (s : Latched σ)

/-- The byte that is executed next in place of the program. -/
def accepted : Option U8 := if s.inte && !s.shadow then s.request else none

/-- A byte from outside as an instruction. Its operand is taken from the program, as the interpreter
does it. -/
def jammed (op : U8) : Insn := decode op (E.read s.env s.pc) (E.read s.env (s.pc + 1))

def acknowledge (op : U8) : Latched σ :=
  let i := s.jammed E op
  { toState := act E ({ s.toState with inte := false, halted := false }.skip (i.length - 1)) i
    request := none
    shadow := i = .ei }

/-- The program goes on. After an EI a request waits for one more instruction, but not if the EI was
itself that one more: so it is in the interpreter, which counts the shadow of the second down with
that of the first. -/
def proceed : Latched σ :=
  { toState := s.toState.step E
    request := s.request
    shadow := if s.halted then s.shadow else s.toState.fetch E = .ei && !s.shadow }

def step : Latched σ :=
  match s.accepted with
  | some op => s.acknowledge E op
  | none => s.proceed E

def cost : ℕ :=
  match s.accepted with
  | some op => (s.jammed E op).cost s.flags
  | none => s.toState.cost E

def clocked : Clocked (Latched σ) := ⟨step E, cost E⟩

/-- **Without a request** the interrupt input does not matter. -/
theorem reaches_of_idle {s s' : Latched σ} {t : ℕ} (h : Arrives (clocked E) s t s')
    (hs : s.request = none) :
    Arrives (State.clocked E) s.toState t s'.toState ∧ s'.request = none := by
  have hsim := h.simulate (N := State.clocked E)
    (R := fun s x => s.request = none ∧ s.toState = x) (fun s x hR => ?_) ⟨hs, rfl⟩
  · obtain ⟨x, hrun, hnone, rfl⟩ := hsim
    exact ⟨hrun, hnone⟩
  · obtain ⟨hnone, rfl⟩ := hR
    have haccepted : s.accepted = none := by
      rw [accepted, hnone, ite_self]
    change s.toState.cost E = s.cost E ∧ (s.step E).request = none ∧ (s.step E).toState = _
    rw [cost, step, haccepted]
    exact ⟨rfl, hnone, rfl⟩

end Latched

end Isa

end Umk80
