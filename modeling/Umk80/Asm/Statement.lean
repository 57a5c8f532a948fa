import Umk80.Asm.Expr
import Umk80.Word

/-!
# Statements of the assembler

What `assemble_line` of `tools/umkasm.c` makes of the text of a line before it looks at the symbol
table: the comment, the label, the mnemonic and the operands, and the entry of the instruction
table. The source takes the line apart in place, in a copy of 512 characters. An operand is a
pointer into that copy, behind which the rest of the line still stands.

## Main definitions

* `trim`, `stripComment`, `splitOperands` — taking a line apart
* `Kind`, `Mnem`, `MNEM` — the instruction table
* `Stmt`, `parseStatement`, `Line`, `parseLine` — what a line says
-/

namespace Umk80

open CString

/-! ## Taking a line apart -/

def MAX_LINE : ℕ := 512

/-- `strncpy (work, raw, sizeof work - 1)`, and a NUL at the end. -/
def copyLine (raw : List Char) : Ptr :=
  let text := (cstr raw).take (MAX_LINE - 1)
  text ++ List.replicate (MAX_LINE - text.length) NUL

/-- The loop that ends the line at a comment. `inq` says whether it is in a character literal. -/
def stripComment (inq : Bool) : Ptr → Ptr
  | [] => []
  | c :: rest =>
    if c = NUL then c :: rest
    else if c = QUOTE then c :: stripComment (!inq) rest
    else if c = ';' ∧ inq = false then NUL :: rest
    else c :: stripComment inq rest

/-- What `trim` takes off the end. -/
def isTrailing (c : Char) : Bool := isBlank c || c == '\r' || c == '\n'

/-- `trim`: skip blanks, and end the string before the trailing ones. -/
def trim (s : Ptr) : Ptr :=
  let s := s.dropWhile isBlank
  s.set ((cstr s).rdropWhile isTrailing).length NUL

/-- The texts between the top-level commas of a string. -/
def commaPieces (inq : Bool) : List Char → List (List Char)
  | [] => [[]]
  | c :: rest =>
    let inq := if c = QUOTE then !inq else inq
    if c = ',' ∧ inq = false then [] :: commaPieces inq rest
    else (commaPieces inq rest).modifyHead (c :: ·)

/-- The pieces in memory, each ended by a NUL and the last by `tail`. The first `max` of them are
trimmed and treated with `f`: these are the operands. -/
def layOut (f : Ptr → Ptr) (tail : Ptr) : ℕ → List (List Char) → Ptr × List Ptr
  | _, [] => (tail, [])
  | max, [piece] => operand max piece tail []
  | max, piece :: pieces =>
    let r := layOut f tail (max - 1) pieces
    operand max piece (NUL :: r.1) r.2
where
  operand (max : ℕ) (piece : List Char) (mem : Ptr) (ops : List Ptr) : Ptr × List Ptr :=
    if max = 0 then (piece ++ mem, [])
    else
      let op := f (trim (piece ++ mem))
      (piece.takeWhile isBlank ++ op, op :: ops)

/-- `split_operands`, with at most 8 operands. The uppercasing of the operands of an instruction,
which the source does afterwards and operand by operand, is the parameter `f`. -/
def splitOperands (f : Ptr → Ptr) (s : Ptr) : List Ptr :=
  let ops := (layOut f (s.drop (cstr s).length) 8 (commaPieces false (cstr s))).2
  match ops with
  | [op] => if deref op = NUL then [] else ops
  | ops => ops

/-- Short operands may be register names: they are put in uppercase. -/
def upperShort (p : Ptr) : Ptr := if (cstr p).length ≤ 3 then upper p else p

/-! ## The instruction table -/

/-- `kind_t`. -/
inductive Kind
  | none
  | r8d
  | r8s
  | mov
  | mvi
  | lxi
  | rp
  | stk
  | ax
  | imm8
  | addr
  | rst
  | port
deriving DecidableEq

/-- `mnem_t`. -/
structure Mnem where
  name : String
  base : U8
  kind : Kind
deriving DecidableEq

def MNEM : List Mnem := [
  ⟨"NOP", 0x00, .none⟩, ⟨"RLC", 0x07, .none⟩, ⟨"RRC", 0x0F, .none⟩,
  ⟨"RAL", 0x17, .none⟩, ⟨"RAR", 0x1F, .none⟩, ⟨"DAA", 0x27, .none⟩,
  ⟨"CMA", 0x2F, .none⟩, ⟨"STC", 0x37, .none⟩, ⟨"CMC", 0x3F, .none⟩,
  ⟨"HLT", 0x76, .none⟩, ⟨"RET", 0xC9, .none⟩, ⟨"XTHL", 0xE3, .none⟩,
  ⟨"PCHL", 0xE9, .none⟩, ⟨"XCHG", 0xEB, .none⟩, ⟨"DI", 0xF3, .none⟩,
  ⟨"SPHL", 0xF9, .none⟩, ⟨"EI", 0xFB, .none⟩,
  ⟨"RNZ", 0xC0, .none⟩, ⟨"RZ", 0xC8, .none⟩, ⟨"RNC", 0xD0, .none⟩,
  ⟨"RC", 0xD8, .none⟩, ⟨"RPO", 0xE0, .none⟩, ⟨"RPE", 0xE8, .none⟩,
  ⟨"RP", 0xF0, .none⟩, ⟨"RM", 0xF8, .none⟩,
  ⟨"INR", 0x04, .r8d⟩, ⟨"DCR", 0x05, .r8d⟩,
  ⟨"ADD", 0x80, .r8s⟩, ⟨"ADC", 0x88, .r8s⟩, ⟨"SUB", 0x90, .r8s⟩,
  ⟨"SBB", 0x98, .r8s⟩, ⟨"ANA", 0xA0, .r8s⟩, ⟨"XRA", 0xA8, .r8s⟩,
  ⟨"ORA", 0xB0, .r8s⟩, ⟨"CMP", 0xB8, .r8s⟩,
  ⟨"MOV", 0x40, .mov⟩, ⟨"MVI", 0x06, .mvi⟩, ⟨"LXI", 0x01, .lxi⟩,
  ⟨"INX", 0x03, .rp⟩, ⟨"DCX", 0x0B, .rp⟩, ⟨"DAD", 0x09, .rp⟩,
  ⟨"PUSH", 0xC5, .stk⟩, ⟨"POP", 0xC1, .stk⟩,
  ⟨"STAX", 0x02, .ax⟩, ⟨"LDAX", 0x0A, .ax⟩,
  ⟨"ADI", 0xC6, .imm8⟩, ⟨"ACI", 0xCE, .imm8⟩, ⟨"SUI", 0xD6, .imm8⟩,
  ⟨"SBI", 0xDE, .imm8⟩, ⟨"ANI", 0xE6, .imm8⟩, ⟨"XRI", 0xEE, .imm8⟩,
  ⟨"ORI", 0xF6, .imm8⟩, ⟨"CPI", 0xFE, .imm8⟩,
  ⟨"JMP", 0xC3, .addr⟩, ⟨"JNZ", 0xC2, .addr⟩, ⟨"JZ", 0xCA, .addr⟩,
  ⟨"JNC", 0xD2, .addr⟩, ⟨"JC", 0xDA, .addr⟩, ⟨"JPO", 0xE2, .addr⟩,
  ⟨"JPE", 0xEA, .addr⟩, ⟨"JP", 0xF2, .addr⟩, ⟨"JM", 0xFA, .addr⟩,
  ⟨"CALL", 0xCD, .addr⟩, ⟨"CNZ", 0xC4, .addr⟩, ⟨"CZ", 0xCC, .addr⟩,
  ⟨"CNC", 0xD4, .addr⟩, ⟨"CC", 0xDC, .addr⟩, ⟨"CPO", 0xE4, .addr⟩,
  ⟨"CPE", 0xEC, .addr⟩, ⟨"CP", 0xF4, .addr⟩, ⟨"CM", 0xFC, .addr⟩,
  ⟨"LDA", 0x3A, .addr⟩, ⟨"STA", 0x32, .addr⟩,
  ⟨"LHLD", 0x2A, .addr⟩, ⟨"SHLD", 0x22, .addr⟩,
  ⟨"RST", 0xC7, .rst⟩,
  ⟨"IN", 0xDB, .port⟩, ⟨"OUT", 0xD3, .port⟩]

/-- `reg8`. -/
def reg8 : Option Ptr → Option ℕ
  | .none => .none
  | some s =>
    if deref (s.drop 1) ≠ NUL then .none
    else match (deref s).toUpper with
      | 'B' => some 0
      | 'C' => some 1
      | 'D' => some 2
      | 'E' => some 3
      | 'H' => some 4
      | 'L' => some 5
      | 'M' => some 6
      | 'A' => some 7
      | _ => .none

/-- `regpair`. -/
def regpair (stack : Bool) : Option Ptr → Option ℕ
  | .none => .none
  | some s =>
    if cstr s = "B".toList then some 0
    else if cstr s = "D".toList then some 1
    else if cstr s = "H".toList then some 2
    else if stack = false ∧ cstr s = "SP".toList then some 3
    else if stack = true ∧ cstr s = "PSW".toList then some 3
    else .none

/-! ## What a line says -/

/-- A statement. -/
inductive Stmt
  | equ (name : Name) (expr : Ptr)
  | org (ops : List Ptr)
  | finish
  | ds (ops : List Ptr)
  | db (ops : List Ptr)
  | dw (ops : List Ptr)
  | instr (m : Mnem) (ops : List Ptr)
  | unknown (mnemonic : Name)

/-- The statement with a mnemonic, or the name of an EQU, and the rest of its line. -/
def statementOf (mnemonic : Name) (rest : Ptr) : Stmt :=
  if startsWith rest "EQU" && isBlank (deref (rest.drop 3)) then
    .equ mnemonic (trim (rest.drop 3))
  else if mnemonic = "ORG".toList then .org (splitOperands id rest)
  else if mnemonic = "END".toList then .finish
  else if mnemonic = "DS".toList then .ds (splitOperands id rest)
  else if mnemonic = "DB".toList then .db (splitOperands id rest)
  else if mnemonic = "DW".toList then .dw (splitOperands id rest)
  else match MNEM.find? (·.name.toList == mnemonic) with
    | some m => .instr m (splitOperands upperShort rest)
    | .none => .unknown mnemonic

/-- The statement at `s`: its first word is in uppercase from here on. -/
def parseStatement (s : Ptr) : Stmt :=
  let word := (cstr s).takeWhile fun c => !isSpace c
  let s := s.drop word.length
  let rest := if deref s = NUL then s else trim (s.drop 1)
  statementOf (word.map Char.toUpper) rest

/-- A line: at most one label, and at most one statement. -/
structure Line where
  label : Option Name
  stmt : Option Stmt

/-- A statement, unless nothing is left of the line. -/
def parseRest (s : Ptr) : Option Stmt := if deref s = NUL then .none else some (parseStatement s)

/-- A line, from the text of which at most 511 characters are looked at. -/
def parseLine (raw : List Char) : Line :=
  let s := trim (stripComment false (copyLine raw))
  if deref s = NUL then ⟨.none, .none⟩
  else if deref s = '$' then ⟨.none, .none⟩
  else if ':' ∈ cstr s then
    let name := (cstr s).takeWhile (· != ':')
    ⟨some ((name.take 31).map Char.toUpper), parseRest (trim (s.drop (name.length + 1)))⟩
  else ⟨.none, parseRest s⟩

end Umk80
