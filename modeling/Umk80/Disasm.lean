import Umk80.I8080
import Umk80.Lib.CString

/-!
# The disassembler

`umk_disasm` of `tools/disasm.c`, and what `tools/umkdis.c` prints with `--asm`. Every call of
`snprintf` prints a text, and then at most one number, as `%02XH` or `%04XH`; the buffer of 64
characters is always long enough.

## Main definitions

* `Format`, `disasmFormat` — what is printed for an opcode
* `umkDisasm` — the text and the length of the instruction at an address
* `umkdisAsm` — the reassemblable listing of an image
-/

namespace Umk80

open CString

/-! ## Texts -/

/-- The number that a format prints. -/
inductive Arg
  | none
  | imm8
  | imm16
deriving DecidableEq

/-- A text, and the number after it. -/
structure Format where
  text : List Char
  arg : Arg
deriving DecidableEq

/-- The number, with its `H`. -/
def Arg.print (arg : Arg) (imm8 : U8) (imm16 : U16) : List Char :=
  match arg with
  | .none => []
  | .imm8 => hex 2 imm8.toNat ++ ['H']
  | .imm16 => hex 4 imm16.toNat ++ ['H']

def Format.print (f : Format) (imm8 : U8) (imm16 : U16) : List Char :=
  f.text ++ f.arg.print imm8 imm16

/-- `%-ws`. -/
def padRight (w : ℕ) (s : String) : List Char :=
  s.toList ++ List.replicate (w - s.length) ' '

def R8 : List String := ["B", "C", "D", "E", "H", "L", "M", "A"]
def RP : List String := ["B", "D", "H", "SP"]
def RPS : List String := ["B", "D", "H", "PSW"]
def ALU : List String := ["ADD", "ADC", "SUB", "SBB", "ANA", "XRA", "ORA", "CMP"]
def ALUI : List String := ["ADI", "ACI", "SUI", "SBI", "ANI", "XRI", "ORI", "CPI"]
def CC : List String := ["NZ", "Z", "NC", "C", "PO", "PE", "P", "M"]

/-- An entry of a table, by a field of the opcode. -/
def pick (table : List String) (index : U8) : String := table.getD index.toNat ""

/-- The format for an opcode, if there is one. -/
def disasmFormat (op : U8) : Option Format :=
  let text (s : String) : Option Format := some ⟨s.toList, .none⟩
  let with8 (s : List Char) : Option Format := some ⟨s, .imm8⟩
  let with16 (s : List Char) : Option Format := some ⟨s, .imm16⟩
  let r := op >>> 3 &&& 7
  let rp := op >>> 4 &&& 3
  match op with
  | 0x00#8 => text "NOP"
  | 0x07#8 => text "RLC"
  | 0x0F#8 => text "RRC"
  | 0x17#8 => text "RAL"
  | 0x1F#8 => text "RAR"
  | 0x27#8 => text "DAA"
  | 0x2F#8 => text "CMA"
  | 0x37#8 => text "STC"
  | 0x3F#8 => text "CMC"
  | 0x76#8 => text "HLT"
  | 0xC9#8 | 0xD9#8 => text "RET"
  | 0xE3#8 => text "XTHL"
  | 0xE9#8 => text "PCHL"
  | 0xEB#8 => text "XCHG"
  | 0xF3#8 => text "DI"
  | 0xF9#8 => text "SPHL"
  | 0xFB#8 => text "EI"
  | 0x02#8 => text "STAX  B"
  | 0x12#8 => text "STAX  D"
  | 0x0A#8 => text "LDAX  B"
  | 0x1A#8 => text "LDAX  D"
  | 0x22#8 => with16 "SHLD  ".toList
  | 0x2A#8 => with16 "LHLD  ".toList
  | 0x32#8 => with16 "STA   ".toList
  | 0x3A#8 => with16 "LDA   ".toList
  | 0xC3#8 | 0xCB#8 => with16 "JMP   ".toList
  | 0xCD#8 | 0xDD#8 | 0xED#8 | 0xFD#8 => with16 "CALL  ".toList
  | 0xDB#8 => with8 "IN    ".toList
  | 0xD3#8 => with8 "OUT   ".toList
  | 0x08#8 | 0x10#8 | 0x18#8 | 0x20#8 | 0x28#8 | 0x30#8 | 0x38#8 => text "NOP"
  | _ =>
    if 0x40 ≤ op ∧ op ≤ 0x7F then text ("MOV   " ++ pick R8 r ++ "," ++ pick R8 (op &&& 7))
    else if 0x80 ≤ op ∧ op ≤ 0xBF then
      some ⟨padRight 5 (pick ALU r) ++ " ".toList ++ (pick R8 (op &&& 7)).toList, .none⟩
    else if op &&& 0xCF = 0x01 then with16 ("LXI   " ++ pick RP rp ++ ",").toList
    else if op &&& 0xCF = 0x03 then text ("INX   " ++ pick RP rp)
    else if op &&& 0xCF = 0x0B then text ("DCX   " ++ pick RP rp)
    else if op &&& 0xCF = 0x09 then text ("DAD   " ++ pick RP rp)
    else if op &&& 0xCF = 0xC5 then text ("PUSH  " ++ pick RPS rp)
    else if op &&& 0xCF = 0xC1 then text ("POP   " ++ pick RPS rp)
    else if op &&& 0xC7 = 0x04 then text ("INR   " ++ pick R8 r)
    else if op &&& 0xC7 = 0x05 then text ("DCR   " ++ pick R8 r)
    else if op &&& 0xC7 = 0x06 then with8 ("MVI   " ++ pick R8 r ++ ",").toList
    else if op &&& 0xC7 = 0xC6 then with8 (padRight 5 (pick ALUI r) ++ " ".toList)
    else if op &&& 0xC7 = 0xC7 then text ("RST   " ++ toString r.toNat)
    else if op &&& 0xC7 = 0xC2 then with16 ("J".toList ++ padRight 4 (pick CC r) ++ " ".toList)
    else if op &&& 0xC7 = 0xC4 then with16 ("C".toList ++ padRight 4 (pick CC r) ++ " ".toList)
    else if op &&& 0xC7 = 0xC0 then text ("R" ++ pick CC r)
    else none

/-! ## The instruction at an address -/

/-- `umk_disasm`: the text, and the length. -/
def umkDisasm (mem : ℕ → U8) (pc size : ℕ) : List Char × ℕ :=
  let op := mem pc
  let b1 := if pc + 1 < size then mem (pc + 1) else 0
  let b2 := if pc + 2 < size then mem (pc + 2) else 0
  match disasmFormat op with
  | some f => (f.print b1 (word b2 b1), I8080.opcodeLength op)
  | none => ("DB    ".toList ++ hex 2 op.toNat ++ ['H'], 1)

/-! ## The listing -/

/-- The loop of `main`, with the address `pc`; each turn prints a line. -/
def listing (mem : ℕ → U8) (org n : ℕ) : ℕ → ℕ → List (List Char)
  | 0, _ => []
  | turns + 1, pc =>
    if pc ≤ org + n - 1 ∧ pc - org < n then
      let r := umkDisasm mem (pc - org) n
      ("      ".toList ++ r.1 ++ ['\n']) :: listing mem org n turns (pc + r.2)
    else []

/-- `umkdis --org org --asm` on a file of these bytes. No instruction is empty, so there are at
most as many lines as bytes. -/
def umkdisAsm (org : ℕ) (bytes : List U8) : List Char :=
  "      ORG   ".toList ++ hex 4 org ++ "H\n\n".toList ++
    (listing (fun k => bytes.getD k 0) org bytes.length bytes.length org).flatten

end Umk80
