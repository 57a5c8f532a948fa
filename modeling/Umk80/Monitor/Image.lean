import Umk80.Isa.Spec

/-!
# The image of the monitor

`rom/monitor.bin`, which is the object-code column of `rom/monitor.lst`, and what is found in it.
Routines of the listing are written down as their instructions, tables as their bytes, both at their
address. That the image holds them there is part of what they are.

## Main definitions

* `Monitor.IMAGE`, `Monitor.romByte` — the image
* `Monitor.Routine`, `Monitor.Table` — instructions and bytes that the image holds at an address
* `Monitor.CTBL` — the addresses of the directives
-/

namespace Umk80

namespace Monitor

open Isa

/-! ## The image -/

/-- `rom/monitor.bin`, up to the last byte that is not FFH. -/
def IMAGE : List U8 := [
  0xC3, 0x40, 0x00, 0xFF, 0xFF, 0xFF, 0xFF, 0xFF, 0x2A, 0xEE, 0x0F, 0xE9, 0xFF, 0xFF, 0xFF, 0xFF,
  0x2A, 0xF0, 0x0F, 0xE9, 0xFF, 0xFF, 0xFF, 0xFF, 0x2A, 0xF2, 0x0F, 0xE9, 0xFF, 0xFF, 0xFF, 0xFF,
  0x2A, 0xF4, 0x0F, 0xE9, 0xFF, 0xFF, 0xFF, 0xFF, 0x2A, 0xF6, 0x0F, 0xE9, 0xFF, 0xFF, 0xFF, 0xFF,
  0x2A, 0xF8, 0x0F, 0xE9, 0xFF, 0xFF, 0xFF, 0xFF, 0xF5, 0xAF, 0xD3, 0xFC, 0xF1, 0xC3, 0xB1, 0x01,
  0x31, 0xCE, 0x0F, 0x21, 0xCE, 0x0F, 0x01, 0xBD, 0x03, 0x16, 0x2C, 0x0A, 0x77, 0x23, 0x03, 0x15,
  0xC2, 0x4B, 0x00, 0x3E, 0x89, 0xD3, 0xFB, 0xCD, 0xC0, 0x02, 0xFB, 0x31, 0xCE, 0x0F, 0x21, 0xFF,
  0x0F, 0x7E, 0xB7, 0x06, 0x05, 0xCA, 0x6A, 0x00, 0x06, 0x00, 0x0E, 0x40, 0xCD, 0xB0, 0x02, 0x21,
  0x5A, 0x00, 0xE5, 0xCD, 0xCD, 0x02, 0xCD, 0xC0, 0x02, 0xFE, 0x06, 0xD2, 0x76, 0x02, 0x21, 0x65,
  0x03, 0x87, 0x5F, 0x16, 0x00, 0x19, 0x7E, 0x23, 0x66, 0x6F, 0xE9, 0xCD, 0xC0, 0x02, 0xCD, 0xCD,
  0x02, 0xFE, 0x34, 0xDA, 0x76, 0x02, 0xFE, 0x41, 0xDA, 0x9D, 0x00, 0xDE, 0x07, 0x21, 0x5D, 0x03,
  0xE6, 0x0F, 0x5F, 0x87, 0x87, 0x83, 0x16, 0x00, 0x5F, 0x19, 0x06, 0x05, 0x7E, 0xB7, 0xCA, 0xB7,
  0x00, 0x4F, 0xE5, 0xCD, 0xB0, 0x02, 0xE1, 0x23, 0x05, 0x78, 0xFE, 0x02, 0xC2, 0xAC, 0x00, 0xE5,
  0x0E, 0x40, 0xCD, 0xB0, 0x02, 0xE1, 0x7E, 0x23, 0x66, 0x6F, 0x4E, 0xE5, 0xCD, 0x8B, 0x02, 0xCD,
  0x6A, 0x02, 0xE1, 0xDA, 0xC0, 0x02, 0xCA, 0x8B, 0x00, 0xE5, 0xCD, 0xB9, 0x02, 0x0E, 0x00, 0xCD,
  0x3F, 0x02, 0x7D, 0xE1, 0x77, 0xD2, 0x8B, 0x00, 0xC3, 0xC0, 0x02, 0x0E, 0x01, 0xCD, 0x39, 0x02,
  0x4E, 0xE5, 0xCD, 0x8B, 0x02, 0xCD, 0x6A, 0x02, 0xE1, 0xDA, 0xC0, 0x02, 0xCA, 0x0E, 0x01, 0xE5,
  0xCD, 0xB9, 0x02, 0x0E, 0x00, 0xCD, 0x3F, 0x02, 0x7D, 0xE1, 0x77, 0xDA, 0xC0, 0x02, 0x23, 0x44,
  0x4D, 0xE5, 0xCD, 0xA3, 0x02, 0xE1, 0xC3, 0xF0, 0x00, 0x21, 0xD6, 0x0F, 0xE3, 0xCD, 0x6A, 0x02,
  0xCA, 0x2B, 0x01, 0x0E, 0x01, 0xCD, 0x3F, 0x02, 0x22, 0xE6, 0x0F, 0xD8, 0x11, 0x02, 0x00, 0xCD,
  0xC3, 0x02, 0x01, 0x40, 0x02, 0xD5, 0xCD, 0xB0, 0x02, 0xCD, 0x39, 0x02, 0xD1, 0xE5, 0x14, 0xDA,
  0x46, 0x01, 0x1D, 0xC2, 0x2F, 0x01, 0xD2, 0x76, 0x02, 0x21, 0xE8, 0x0F, 0xC1, 0x71, 0x23, 0x70,
  0x23, 0x0A, 0x77, 0x3E, 0xFF, 0x02, 0x23, 0x15, 0xC2, 0x4C, 0x01, 0xC9, 0x0E, 0x02, 0xCD, 0x1F,
  0x02, 0x0E, 0x00, 0xCD, 0x39, 0x02, 0x4D, 0xD1, 0xE1, 0xCD, 0x34, 0x02, 0xDA, 0x76, 0x02, 0x71,
  0xCD, 0x2F, 0x02, 0xD2, 0x6F, 0x01, 0xC3, 0xC0, 0x02, 0x0E, 0x03, 0xCD, 0x1F, 0x02, 0xC1, 0xD1,
  0xE1, 0xCD, 0x34, 0x02, 0xDA, 0x76, 0x02, 0x7E, 0x02, 0x03, 0xCD, 0x2F, 0x02, 0xD2, 0x87, 0x01,
  0xC3, 0xC0, 0x02, 0x0E, 0x02, 0xCD, 0x1F, 0x02, 0xD1, 0xE1, 0xCD, 0x34, 0x02, 0xDA, 0x76, 0x02,
  0x0E, 0x00, 0x79, 0x86, 0x4F, 0xCD, 0x2F, 0x02, 0xD2, 0xA2, 0x01, 0xCD, 0x8B, 0x02, 0xC3, 0xC3,
  0x02, 0xF3, 0xE3, 0x2B, 0xD5, 0xF5, 0x11, 0xE9, 0x03, 0x7D, 0x93, 0x7C, 0x9A, 0xDA, 0x76, 0x02,
  0xF1, 0xD1, 0x23, 0xE3, 0xE5, 0xD5, 0xC5, 0xF5, 0x21, 0x0A, 0x00, 0x39, 0xE3, 0x11, 0xD6, 0x0F,
  0x06, 0x04, 0xEB, 0x2B, 0x72, 0x2B, 0x73, 0xD1, 0x05, 0xC2, 0xD3, 0x01, 0xC1, 0x0B, 0xF9, 0x21,
  0xE8, 0x0F, 0x7E, 0x91, 0x23, 0x7E, 0x98, 0xCA, 0xF5, 0x01, 0x23, 0x23, 0x7E, 0x91, 0x23, 0x7E,
  0x98, 0xCA, 0xF5, 0x01, 0x03, 0x21, 0xDC, 0x0F, 0x73, 0x23, 0x72, 0x21, 0xE6, 0x0F, 0x71, 0x23,
  0x70, 0xCD, 0xA3, 0x02, 0x21, 0xE8, 0x0F, 0x16, 0x02, 0x4E, 0xAF, 0x77, 0x23, 0x46, 0x77, 0x23,
  0x79, 0xB0, 0xCA, 0x17, 0x02, 0x7E, 0x02, 0x23, 0x15, 0xC2, 0x09, 0x02, 0xC3, 0x5A, 0x00, 0x41,
  0xCD, 0xC0, 0x02, 0x0E, 0x01, 0xCD, 0x39, 0x02, 0xE3, 0xE5, 0x05, 0xC2, 0x20, 0x02, 0xC9, 0x23,
  0x7D, 0xB4, 0x37, 0xC8, 0x7B, 0x95, 0x7A, 0x9C, 0xC9, 0xCD, 0x6A, 0x02, 0xCA, 0x76, 0x02, 0xC5,
  0x21, 0x00, 0x00, 0xFE, 0x30, 0xDA, 0x76, 0x02, 0xE5, 0x41, 0x4F, 0xCD, 0x32, 0x03, 0xE1, 0x79,
  0xD6, 0x30, 0xFE, 0x0A, 0xDA, 0x59, 0x02, 0xD6, 0x07, 0x29, 0x29, 0x29, 0x29, 0xB5, 0x6F, 0x48,
  0xE5, 0xCD, 0x6A, 0x02, 0xE1, 0xC2, 0x43, 0x02, 0xC1, 0xC9, 0xCD, 0xCD, 0x02, 0xFE, 0x06, 0xC8,
  0xFE, 0x07, 0x37, 0xC8, 0x3F, 0xC9, 0xCD, 0xC0, 0x02, 0x01, 0xD3, 0x00, 0xCD, 0xB0, 0x02, 0xC3,
  0x5A, 0x00, 0xE6, 0x0F, 0xC6, 0x90, 0x27, 0xCE, 0x40, 0x27, 0xC9, 0x06, 0x00, 0x79, 0x0F, 0x0F,
  0x0F, 0x0F, 0xCD, 0x82, 0x02, 0xC5, 0x4F, 0xCD, 0x32, 0x03, 0xC1, 0x79, 0xCD, 0x82, 0x02, 0x4F,
  0xC3, 0x32, 0x03, 0xC5, 0x48, 0x06, 0x01, 0xCD, 0x8D, 0x02, 0xC1, 0x06, 0x01, 0xC3, 0x8D, 0x02,
  0x21, 0xFA, 0x0F, 0x58, 0x16, 0x00, 0x19, 0x71, 0xC9, 0x21, 0x00, 0x00, 0x22, 0xFA, 0x0F, 0xC9,
  0xCD, 0xB9, 0x02, 0x21, 0x00, 0x00, 0x22, 0xFC, 0x0F, 0x22, 0xFE, 0x0F, 0xC9, 0xC5, 0x21, 0xFA,
  0x0F, 0x06, 0x20, 0x78, 0xD3, 0xF8, 0x7E, 0xD3, 0xF9, 0xDB, 0xFA, 0xE6, 0x74, 0xFE, 0x74, 0x3E,
  0x00, 0xD3, 0xF9, 0xC2, 0xF0, 0x02, 0x23, 0x78, 0x0F, 0x47, 0xD2, 0xD3, 0x02, 0xC3, 0xCE, 0x02,
  0xCD, 0x5B, 0x03, 0xDB, 0xFA, 0x4F, 0xDB, 0xFA, 0xE6, 0x74, 0xFE, 0x74, 0xC2, 0xF6, 0x02, 0xCD,
  0x5B, 0x03, 0x79, 0xE6, 0x10, 0xC2, 0x0A, 0x03, 0x0E, 0x00, 0x79, 0xE6, 0x64, 0x1F, 0x1F, 0x1F,
  0x4F, 0x78, 0xE6, 0x03, 0xC2, 0x2B, 0x03, 0x78, 0x1F, 0x1F, 0x1F, 0xFE, 0x04, 0xC2, 0x21, 0x03,
  0x3D, 0x81, 0xF6, 0x30, 0xFE, 0x3A, 0xC1, 0xD8, 0xC6, 0x07, 0xC9, 0x3D, 0x47, 0x79, 0x0F, 0x80,
  0xC1, 0xC9, 0x21, 0xAD, 0x03, 0x79, 0xFE, 0x41, 0xDA, 0x3D, 0x03, 0xD6, 0x07, 0xE6, 0x0F, 0x5F,
  0x16, 0x00, 0x19, 0x5E, 0x21, 0xFA, 0x0F, 0x16, 0x02, 0x78, 0xB7, 0xCA, 0x52, 0x03, 0x23, 0x23,
  0x16, 0x04, 0x7E, 0x73, 0x5F, 0x23, 0x15, 0xC2, 0x52, 0x03, 0xC9, 0x11, 0x52, 0x03, 0x1B, 0x7A,
  0xB3, 0xC2, 0x5E, 0x03, 0xC9, 0xEB, 0x00, 0x8B, 0x00, 0x19, 0x01, 0x93, 0x01, 0x5C, 0x01, 0x79,
  0x01, 0x73, 0x39, 0x76, 0xE7, 0x0F, 0x73, 0x39, 0x38, 0xE6, 0x0F, 0x6D, 0x73, 0x76, 0xD3, 0x0F,
  0x6D, 0x73, 0x38, 0xD2, 0x0F, 0x00, 0x00, 0x76, 0xDD, 0x0F, 0x00, 0x00, 0x38, 0xDC, 0x0F, 0x00,
  0x00, 0x77, 0xD5, 0x0F, 0x00, 0x00, 0x7C, 0xD1, 0x0F, 0x00, 0x00, 0x39, 0xD0, 0x0F, 0x00, 0x00,
  0x5E, 0xCF, 0x0F, 0x00, 0x00, 0x79, 0xCE, 0x0F, 0x00, 0x00, 0x71, 0xD4, 0x0F, 0x3F, 0x06, 0x5B,
  0x4F, 0x66, 0x6D, 0x7D, 0x07, 0x7F, 0x6F, 0x77, 0x7C, 0x39, 0x5E, 0x79, 0x71, 0xEE, 0xDD, 0xCC,
  0xBB, 0xBC, 0x0F, 0xFF, 0xAA, 0xD1, 0xC1, 0xE1, 0xF1, 0xF9, 0x21, 0x34, 0x12, 0xFB, 0xF5, 0x3E,
  0x01, 0xD3, 0xFC, 0xF1, 0xC3, 0x40, 0x00, 0x00, 0x00, 0x00, 0x00, 0x00, 0x00, 0x00, 0x00, 0x00,
  0x00, 0x00, 0x00, 0x00, 0x00, 0x00, 0x00, 0x00, 0x00, 0xFF, 0xFF, 0xFF, 0xFF, 0xFF, 0xFF, 0xFF,
  0xFF, 0xFF, 0xFF, 0xFF, 0xFF, 0xFF, 0xFF, 0xFF, 0xFF, 0xFF, 0xFF, 0xFF, 0xFF, 0xFF, 0xFF, 0xFF,
  0x0E, 0x03, 0xCD, 0x1F, 0x02, 0xC1, 0xD1, 0xE1, 0x3E, 0x28, 0xF5, 0xE5, 0xC5, 0x7E, 0x02, 0x03,
  0xCD, 0x2F, 0x02, 0xD2, 0x0D, 0x04, 0xC1, 0xE1, 0xE3, 0x3E, 0x20, 0xD3, 0xF8, 0x7D, 0x1F, 0x3E,
  0x37, 0xDA, 0x26, 0x04, 0x3E, 0x00, 0xD3, 0xF9, 0x2D, 0xE3, 0xC2, 0x0B, 0x04, 0xF1, 0xE5, 0x21,
  0x00, 0x00, 0xE3, 0x0A, 0xBE, 0xCA, 0x3B, 0x04, 0xE3, 0x23, 0xE3, 0x03, 0xCD, 0x2F, 0x02, 0xD2,
  0x33, 0x04, 0xC1, 0xCD, 0xA3, 0x02, 0xCD, 0xCD, 0x02, 0xC3, 0x5A, 0x00]

/-- A byte of the ROM. -/
def romByte (a : U16) : U8 := IMAGE.getD a.toNat 0xFF

/-! ## Routines -/

/-- The bytes of some instructions. -/
def bytes (is : List Insn) : List U8 := is.flatMap Insn.bytes

/-- The image holds these instructions at this address. -/
def holds (entry : U16) (code : List Insn) : Bool :=
  entry.toNat + (bytes code).length ≤ 0x800 &&
    (IMAGE.drop entry.toNat).take (bytes code).length == bytes code

/-- Instructions that the image holds at an address. -/
structure Routine where
  entry : U16
  code : List Insn
  lies : holds entry code = true := by decide +kernel

namespace Routine

variable (R : Routine)

/-- The address of the instruction with number `k`. -/
def addr (k : ℕ) : U16 := R.entry + BitVec.ofNat 16 (bytes (R.code.take k)).length

/-- `n` instructions from number `k` on. -/
def piece (k n : ℕ) : List Insn := (R.code.drop k).take n

end Routine

/-! ## Tables -/

/-- Bytes that the image holds at an address. -/
structure Table where
  entry : U16
  data : List U8
  lies : (entry.toNat + data.length ≤ 0x800 &&
    (IMAGE.drop entry.toNat).take data.length == data) = true := by decide +kernel

/-- The addresses of the directives, in the order of the codes of their keys. -/
def CTBL : Table where
  entry := 0x0365
  data := [0xEB, 0x00, 0x8B, 0x00, 0x19, 0x01, 0x93, 0x01, 0x5C, 0x01, 0x79, 0x01]

end Monitor

end Umk80
