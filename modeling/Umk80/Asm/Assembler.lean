import Mathlib.Algebra.Group.Int.Defs
import Mathlib.Logic.Function.Basic
import Umk80.Asm.Statement

/-!
# The assembler

`tools/umkasm.c`: the static data, what a statement does to it, the passes, and `main` between
the command line and the output file. The line numbers and texts of the messages are kept, as a
list whose length is `errors`.

The array `image` is read and written here at any address, in the source below 65536. The array
`covered` is written but never read, and is left out.

## Main definitions

* `Asm` — the static data
* `Asm.symSet`, `Asm.emit`, `Asm.exec` — the symbol table, a byte, a statement
* `Asm.assembleLine`, `Asm.assembleLines` — a line, and all of them
* `readLines` — the lines of the source
* `passLoop`, `umkasm` — passes until the symbols settle, and the emitting pass
-/

namespace Umk80

open CString

def MAX_SYMS : ℕ := 1024
def MAX_PASSES : ℕ := 16

/-- A message on `stderr`. -/
structure Diagnostic where
  line : ℕ
  text : List Char
deriving DecidableEq

/-- The static data of the assembler. -/
structure Asm where
  syms : Symbols
  image : ℕ → U8
  imageSize : ℤ
  errors : List Diagnostic
  curLine : ℕ
  pc : ℤ
  emitting : Bool
  changed : Bool

namespace Asm

/-- `err`. -/
def err (a : Asm) (text : List Char) : Asm :=
  { a with errors := a.errors ++ [⟨a.curLine + 1, text⟩] }

/-- Most errors are reported in the emitting pass only. -/
def report (a : Asm) (text : List Char) : Asm := if a.emitting then a.err text else a

/-- `sym_set`: whether the value has changed, and the table afterwards. -/
def symSet (a : Asm) (name : Name) (value : ℤ) : Bool × Asm :=
  match a.syms.find name with
  | none =>
    if MAX_SYMS ≤ a.syms.length then
      (false, a.err ("too many symbols (".toList ++ name ++ ")".toList))
    else (true, { a with syms := a.syms ++ [⟨name.take 31, value⟩] })
  | some v =>
    if v ≠ value then (true, { a with syms := a.syms.replace name value }) else (false, a)

/-- `if (sym_set (name, value)) changed = 1;` -/
def define (a : Asm) (name : Name) (value : ℤ) : Asm :=
  let r := a.symSet name value
  if r.1 then { r.2 with changed := true } else r.2

/-! ## Emission -/

/-- `emit`. -/
def emit (a : Asm) (addr : ℤ) (v : U8) : Asm :=
  if addr < 0 ∨ a.imageSize ≤ addr then
    a.report ("address ".toList ++ hex 4 (addr % 2 ^ 64).toNat ++ "H outside the image".toList)
  else if a.emitting then { a with image := Function.update a.image addr.toNat v }
  else a

def emitByte (a : Asm) (v : U8) : Asm :=
  let a := a.emit a.pc v
  { a with pc := a.pc + 1 }

def emitWord (a : Asm) (v : ℤ) : Asm :=
  (a.emitByte (BitVec.ofInt 8 v)).emitByte (BitVec.ofInt 8 (v >>> (8 : ℕ)))

/-! ## Statements -/

/-- `evaluate (ops[i], &ok)` under the current table, and 0 where there is no such operand. -/
def operand (a : Asm) (stmtPc : ℤ) (ops : List Ptr) (i : ℕ) : ℤ × Bool :=
  match ops[i]? with
  | none => (0, true)
  | some s =>
    let r := evaluate ⟨a.syms, stmtPc⟩ s
    (r.1, r.2.ok)

/-- A register, with 0 for one that is not there. -/
def register (a : Asm) (r : Option ℕ) (message : List Char) : ℕ × Asm :=
  match r with
  | none => (0, a.report message)
  | some r => (r, a)

/-- A value, of which an undefined symbol is reported. -/
def value (a : Asm) (stmtPc : ℤ) (ops : List Ptr) (i : ℕ) (m : Mnem) : ℤ × Asm :=
  let v := a.operand stmtPc ops i
  (v.1, if v.2 then a else a.report ("undefined symbol in ".toList ++ m.name.toList))

/-- The base opcode with a register number in it. -/
def opcode (m : Mnem) (r shift : ℕ) : U8 := m.base + BitVec.ofNat 8 (r <<< shift)

/-- An instruction. -/
def execInstr (a : Asm) (stmtPc : ℤ) (m : Mnem) (ops : List Ptr) : Asm :=
  let badRegister := "invalid register in ".toList ++ m.name.toList
  let badPair := "invalid register pair in ".toList ++ m.name.toList
  match m.kind with
  | .none => a.emitByte m.base
  | .r8d =>
    let (r, a) := a.register (reg8 ops[0]?) badRegister
    a.emitByte (opcode m r 3)
  | .r8s =>
    let (r, a) := a.register (reg8 ops[0]?) badRegister
    a.emitByte (opcode m r 0)
  | .mov =>
    match reg8 ops[0]?, reg8 ops[1]? with
    | some r, some r2 => a.emitByte (0x40 + BitVec.ofNat 8 (r <<< 3) + BitVec.ofNat 8 r2)
    | _, _ => (a.report badRegister).emitByte 0x40
  | .mvi =>
    let (r, a) := a.register (reg8 ops[0]?) badRegister
    let (v, a) := a.value stmtPc ops 1 m
    (a.emitByte (opcode m r 3)).emitByte (BitVec.ofInt 8 v)
  | .lxi =>
    let (r, a) := a.register (regpair false ops[0]?) badPair
    let (v, a) := a.value stmtPc ops 1 m
    (a.emitByte (0x01 + BitVec.ofNat 8 (r <<< 4))).emitWord v
  | .rp =>
    let (r, a) := a.register (regpair false ops[0]?) badPair
    a.emitByte (opcode m r 4)
  | .stk =>
    let (r, a) := a.register (regpair true ops[0]?) badPair
    a.emitByte (opcode m r 4)
  | .ax =>
    let r := (regpair false ops[0]?).filter (· ≤ 1)
    let (r, a) := a.register r (m.name.toList ++ " only accepts B or D".toList)
    a.emitByte (opcode m r 4)
  | .imm8 =>
    let (v, a) := a.value stmtPc ops 0 m
    (a.emitByte m.base).emitByte (BitVec.ofInt 8 v)
  | .addr =>
    let (v, a) := a.value stmtPc ops 0 m
    (a.emitByte m.base).emitWord v
  | .rst =>
    -- the only format that does not look at `ok`
    let v := (a.operand stmtPc ops 0).1
    a.emitByte (0xC7 + BitVec.ofInt 8 (v % 8 * 8))
  | .port =>
    let (v, a) := a.value stmtPc ops 0 m
    (a.emitByte m.base).emitByte (BitVec.ofInt 8 v)

/-- The value of a data operand. -/
def datum (a : Asm) (stmtPc : ℤ) (directive : String) (op : Ptr) : ℤ × Asm :=
  let r := evaluate ⟨a.syms, stmtPc⟩ op
  (r.1, if r.2.ok then a else
    a.report ("undefined symbol in ".toList ++ directive.toList ++ ": ".toList ++ cstr op))

/-- A statement, in a line that starts at `stmtPc`. -/
def exec (a : Asm) (stmtPc : ℤ) : Stmt → Asm
  | .equ name expr =>
    let r := evaluate ⟨a.syms, stmtPc⟩ expr
    if r.2.ok then a.define name r.1
    else a.report ("EQU with undefined symbol: ".toList ++ name)
  | .org ops =>
    let v := a.operand stmtPc ops 0
    if v.2 then { a with pc := v.1 } else a
  | .finish => a
  | .ds ops => { a with pc := a.pc + (a.operand stmtPc ops 0).1 }
  | .db ops =>
    ops.foldl (fun a op =>
      let (v, a) := a.datum stmtPc "DB" op
      a.emitByte (BitVec.ofInt 8 v)) a
  | .dw ops =>
    ops.foldl (fun a op =>
      let (v, a) := a.datum stmtPc "DW" op
      a.emitWord v) a
  | .instr m ops => a.execInstr stmtPc m ops
  | .unknown mnemonic => a.report ("unknown mnemonic: ".toList ++ mnemonic)

/-- The label of a line, if it has one. -/
def defineLabel (a : Asm) (line : Line) : Asm :=
  match line.label with
  | none => a
  | some name => a.define name a.pc

/-- The statement of a line, if it has one. -/
def execLine (a : Asm) (stmtPc : ℤ) (line : Line) : Asm :=
  match line.stmt with
  | none => a
  | some stmt => a.exec stmtPc stmt

/-- `assemble_line`. -/
def assembleLine (a : Asm) (raw : List Char) : Asm :=
  (a.defineLabel (parseLine raw)).execLine a.pc (parseLine raw)

/-! ## Passes -/

/-- One turn of the loop over the lines. -/
def nextLine (a : Asm) (raw : List Char) : Asm :=
  let a := a.assembleLine raw
  { a with curLine := a.curLine + 1 }

/-- The loop over the lines. -/
def assembleLines (a : Asm) (lines : List (List Char)) : Asm := lines.foldl nextLine a

theorem assembleLines_cons (a : Asm) (raw : List Char) (lines : List (List Char)) :
    a.assembleLines (raw :: lines) = (a.nextLine raw).assembleLines lines := rfl

/-- A pass that does not emit. -/
def pass (a : Asm) (lines : List (List Char)) : Asm :=
  ({ a with changed := false, emitting := false, pc := 0, curLine := 0 } : Asm).assembleLines lines

/-- How the emitting pass starts. -/
def startEmitting (a : Asm) : Asm :=
  { a with emitting := true, pc := 0, errors := [], curLine := 0 }

/-- The emitting pass. -/
def emitPass (a : Asm) (lines : List (List Char)) : Asm := a.startEmitting.assembleLines lines

end Asm

/-! ## The main program -/

def MAX_LINES : ℕ := 6000

/-- `fgets (line, MAX_LINE, f)`: at most 511 characters, and none after a newline. -/
def fgets (text : List Char) : List Char :=
  let text := text.take (MAX_LINE - 1)
  let line := text.takeWhile (· != '\n')
  text.take (line.length + 1)

/-- The loop that reads the source: at most `n` lines. -/
def readLines : ℕ → List Char → List (List Char)
  | 0, _ => []
  | _, [] => []
  | n + 1, text => fgets text :: readLines n (text.drop (fgets text).length)

/-- The static data before the first pass. -/
def Asm.init (imageSize : ℤ) : Asm where
  syms := []
  image := fun _ => 0xFF
  imageSize := imageSize
  errors := []
  curLine := 0
  pc := 0
  emitting := false
  changed := false

/-- Passes until nothing changes, at most `n` of them; `none` if the symbols do not converge. -/
def passes (lines : List (List Char)) : ℕ → Asm → Option Asm
  | 0, _ => none
  | n + 1, a =>
    let a := a.pass lines
    if a.changed then passes lines n a else some a

/-- The pass loop of `main`. -/
def passLoop (imageSize : ℤ) (lines : List (List Char)) : Option Asm :=
  passes lines MAX_PASSES (Asm.init imageSize)

/-- `main` from the text of the source to the image, which is written only if there is no
error. -/
def umkasm (imageSize : ℤ) (source : List Char) : Option (ℕ → U8) :=
  let lines := readLines MAX_LINES source
  (passLoop imageSize lines).bind fun a =>
    let a := a.emitPass lines
    if a.errors = [] then some a.image else none

end Umk80
