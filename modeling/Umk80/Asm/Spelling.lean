import Umk80.Asm.Plain
import Umk80.Asm.Effects
import Umk80.Disasm

/-!
# How the disassembler spells an instruction

The text that the disassembler has for an opcode is a mnemonic of the assembler's table, register
operands and possibly a number. Which entry and which registers these are is computed from the
text, and checked for every documented opcode: assembling them gives the opcode back. So the line
of an instruction assembles to its bytes, unless its number starts with a letter.

## Main definitions

* `Spelling`, `spelling` — mnemonic, register operands and number
* `Instr` — a complete, documented instruction
* `Instr.Readable` — its number starts with a decimal digit
* `Asm.Wrote` — an emission of given bytes

## Main results

* `spelling_spec` — every documented opcode is spelt as it is encoded
* `Instr.parseLine_line` — the statement that an instruction's line is
* `Instr.wrote_nextLine` — a readable instruction assembles to its bytes
-/

namespace Umk80

open CString

/-! ## Spellings -/

/-- A mnemonic, the blanks after it, the registers, and whether a number follows. -/
structure Spelling where
  mnem : Mnem
  gap : ℕ
  regs : List (List Char)
  arg : Arg

/-- The spelling that the text for an opcode amounts to. -/
def spelling (op : U8) : Option Spelling :=
  (disasmFormat op).bind fun f =>
    let word := f.text.takeWhile (· != ' ')
    let rest := f.text.drop word.length
    let gap := (rest.takeWhile (· == ' ')).length
    (MNEM.find? (·.name.toList == word)).map fun m =>
      ⟨m, gap, (commaPieces false (rest.drop gap)).filter (· ≠ []), f.arg⟩

namespace Spelling

/-- The text before the number. -/
def prefixText (s : Spelling) : List Char :=
  match s.regs with
  | [] => []
  | [r] => if s.arg = .none then r else r ++ [',']
  | r :: r2 :: _ => r ++ ',' :: r2

/-- The operands, with the text of the number. -/
def operands (s : Spelling) (num : List Char) : List (List Char) :=
  if s.arg = .none then s.regs else s.regs ++ [num]

def size (s : Spelling) : ℕ :=
  match s.arg with
  | .none => 1
  | .imm8 => 2
  | .imm16 => 3

/-- A register operand, as the assembler reads it. -/
def reg (s : Spelling) (i : ℕ) : Option ℕ := reg8 (s.regs[i]?.map (· ++ [NUL]))

def pair (s : Spelling) (stack : Bool) : Option ℕ := regpair stack (s.regs[0]?.map (· ++ [NUL]))

/-- The registers and the number are those of the format, and the assembler makes `op` of them. -/
def encodes (s : Spelling) (op : U8) : Bool :=
  let m := s.mnem
  let shape (regs : ℕ) (arg : Arg) : Bool := s.regs.length == regs && s.arg == arg
  match m.kind with
  | .none => shape 0 .none && m.base == op
  | .r8d => shape 1 .none && (s.reg 0).any fun r => Asm.opcode m r 3 == op
  | .r8s => shape 1 .none && (s.reg 0).any fun r => Asm.opcode m r 0 == op
  | .mov => shape 2 .none && (s.reg 0).any fun r => (s.reg 1).any fun r2 =>
      0x40 + BitVec.ofNat 8 (r <<< 3) + BitVec.ofNat 8 r2 == op
  | .mvi => shape 1 .imm8 && (s.reg 0).any fun r => Asm.opcode m r 3 == op
  | .lxi => shape 1 .imm16 && (s.pair false).any fun r => 0x01 + BitVec.ofNat 8 (r <<< 4) == op
  | .rp => shape 1 .none && (s.pair false).any fun r => Asm.opcode m r 4 == op
  | .stk => shape 1 .none && (s.pair true).any fun r => Asm.opcode m r 4 == op
  | .ax => shape 1 .none && ((s.pair false).filter (· ≤ 1)).any fun r => Asm.opcode m r 4 == op
  | .imm8 => shape 0 .imm8 && m.base == op
  | .addr => shape 0 .imm16 && m.base == op
  | .rst => shape 1 .none && s.regs[0]?.any fun r =>
      r.length == 1 && r.head?.any (·.isDigit) && 0xC7 + BitVec.ofInt 8 (number r % 8 * 8) == op
  | .port => shape 0 .imm8 && m.base == op

/-- The text is made of the parts, and all of them are plain. -/
def spells (s : Spelling) (f : Format) : Bool :=
  let piece (t : List Char) : Bool :=
    t ≠ [] && t.all (fun c => c.isAlphanum && c.toUpper == c) && t.length ≤ 4
  f.text == s.mnem.name.toList ++ List.replicate s.gap ' ' ++ s.prefixText && f.arg == s.arg &&
    (decide (s.gap = 0) == decide (s.regs = [] ∧ s.arg = .none)) && s.gap ≤ 6 &&
    piece s.mnem.name.toList && s.regs.all piece &&
    (s.arg == .none && s.regs.length ≤ 2 || s.regs.length ≤ 1)

end Spelling

/-- **Every documented opcode** is spelt as it is encoded, and has the length of its format. -/
theorem spelling_spec : ∀ n : Fin 256, I8080.opcodeUndocumented (BitVec.ofFin n) = false →
    ((spelling (BitVec.ofFin n)).any fun s =>
      s.encodes (BitVec.ofFin n) && I8080.opcodeLength (BitVec.ofFin n) == s.size &&
        (disasmFormat (BitVec.ofFin n)).any fun f => s.spells f) = true := by
  decide +kernel

namespace Spelling

/-- What `spells` checks. -/
structure Fits (s : Spelling) (f : Format) : Prop where
  text : f.text = s.mnem.name.toList ++ List.replicate s.gap ' ' ++ s.prefixText
  arg : f.arg = s.arg
  gap_iff : s.gap = 0 ↔ s.regs = [] ∧ s.arg = .none
  gap_le : s.gap ≤ 6
  name : Piece s.mnem.name.toList
  regs : ∀ r ∈ s.regs, Piece r
  short : s.mnem.name.toList.length ≤ 4 ∧ ∀ r ∈ s.regs, r.length ≤ 4
  few : s.arg = .none ∧ s.regs.length ≤ 2 ∨ s.regs.length ≤ 1

theorem fits_of_spells {s : Spelling} {f : Format} (h : s.spells f = true) : s.Fits f := by
  simp only [spells, Bool.and_eq_true, beq_iff_eq, Bool.or_eq_true, decide_eq_true_eq,
    List.all_eq_true] at h
  obtain ⟨⟨⟨⟨⟨⟨htext, harg⟩, hgap⟩, hle⟩, hname⟩, hregs⟩, hfew⟩ := h
  refine ⟨htext, harg, decide_eq_decide.mp hgap, hle, ?_, ?_, ?_, hfew⟩
  · exact ⟨hname.1.1, fun c hc => (hname.1.2 c hc).1, fun c hc => (hname.1.2 c hc).2⟩
  · intro r hr
    have hr := hregs r hr
    exact ⟨hr.1.1, fun c hc => (hr.1.2 c hc).1, fun c hc => (hr.1.2 c hc).2⟩
  · exact ⟨hname.2, fun r hr => (hregs r hr).2⟩

end Spelling

/-- The mnemonic of a spelling is found under its name. -/
theorem find_spelling {op : U8} {s : Spelling} (h : spelling op = some s) :
    MNEM.find? (·.name.toList == s.mnem.name.toList) = some s.mnem := by
  obtain ⟨f, -, hm⟩ := Option.bind_eq_some_iff.mp h
  obtain ⟨m, hfind, rfl⟩ := Option.map_eq_some_iff.mp hm
  have hname := List.find?_some hfind
  rw [← beq_iff_eq.mp hname] at hfind
  exact hfind

theorem exists_spelling {op : U8} (h : I8080.opcodeUndocumented op = false) :
    ∃ (s : Spelling) (f : Format), disasmFormat op = some f ∧ s.encodes op = true ∧
      I8080.opcodeLength op = s.size ∧ s.Fits f ∧
        MNEM.find? (·.name.toList == s.mnem.name.toList) = some s.mnem := by
  obtain ⟨s, hs, hcheck⟩ := (Option.any_eq_true _ _).mp (spelling_spec op.toFin h)
  simp only [Bool.and_eq_true, beq_iff_eq] at hcheck
  obtain ⟨⟨hencodes, hlen⟩, hformat⟩ := hcheck
  obtain ⟨f, hf, hspells⟩ := (Option.any_eq_true _ _).mp hformat
  exact ⟨s, f, hf, hencodes, hlen, Spelling.fits_of_spells hspells, find_spelling hs⟩

/-! ## Instructions -/

/-- A complete, documented instruction. -/
structure Instr where
  op : U8
  operand : List U8
  documented : I8080.opcodeUndocumented op = false
  complete : operand.length + 1 = I8080.opcodeLength op

namespace Instr

def bytes (i : Instr) : List U8 := i.op :: i.operand

def imm8 (i : Instr) : U8 := i.operand.getD 0 0

def imm16 (i : Instr) : U16 := word (i.operand.getD 1 0) i.imm8

/-- What `umk_disasm` prints. -/
def text (i : Instr) : List Char :=
  (disasmFormat i.op).elim [] fun f => f.print i.imm8 i.imm16

/-- Its line in the listing. -/
def line (i : Instr) : List Char := List.replicate 6 ' ' ++ i.text ++ ['\n']

/-- The number that is printed starts with a decimal digit, as the number of an instruction
without an operand does. -/
def Readable (i : Instr) : Prop := ∀ b ∈ i.operand.getLast?, b < 0xA0

instance (i : Instr) : Decidable i.Readable :=
  inferInstanceAs (Decidable (∀ b ∈ i.operand.getLast?, b < 0xA0))

/-- The number of an instruction: its digits, and whether the first of them is decimal. -/
structure Num (i : Instr) (num : List Char) (v : ℕ) : Prop where
  piece : Piece num
  length : num.length ≤ 5
  readable : i.Readable → ∀ env z, evaluate env (num ++ NUL :: z) = ((v : ℤ), ⟨NUL :: z, true, []⟩)
  unreadable : ¬ i.Readable → ∀ pc z, (evaluate ⟨[], pc⟩ (num ++ NUL :: z)).2.ok = false

end Instr

theorem number_hexLow {k v : ℕ} (hv : v < 16 ^ (k + 1)) (hk : k ≤ 14) :
    number (hexLow (k + 1) v ++ ['H']) = v := by
  have hlen : 1 < (hexLow (k + 1) v ++ ['H']).length := by
    rw [List.length_append, length_hexLow, List.length_singleton]
    omega
  have hmax : v ≤ LONG_MAX := by
    have hpow : 16 ^ (k + 1) ≤ 16 ^ 15 := Nat.pow_le_pow_right (by decide) (by omega)
    have : (16 : ℕ) ^ 15 ≤ LONG_MAX := by decide
    omega
  rw [number, List.getLastD_concat, List.dropLast_concat, if_pos ⟨hlen, Or.inl rfl⟩,
    strtol_hexLow hv hmax]

/-- A number as the disassembler prints it: a constant or a symbol, by its first digit. -/
theorem evaluate_hexLow {k v : ℕ} (hv : v < 16 ^ (k + 1)) (hk : k ≤ 14) :
    Piece (hexLow (k + 1) v ++ ['H']) ∧
    (v / 16 ^ k < 10 → ∀ env z, evaluate env (hexLow (k + 1) v ++ ['H'] ++ NUL :: z) =
      ((v : ℤ), ⟨NUL :: z, true, []⟩)) ∧
    (¬ v / 16 ^ k < 10 → ∀ pc z,
      (evaluate ⟨[], pc⟩ (hexLow (k + 1) v ++ ['H'] ++ NUL :: z)).2.ok = false) := by
  have hlead : v / 16 ^ k < 16 := by
    rw [Nat.div_lt_iff_lt_mul (Nat.pow_pos (by decide)), ← Nat.pow_succ']
    exact hv
  have hdigit := hexDigit_spec ⟨v / 16 ^ k, hlead⟩
  have hmem (c : Char) (hc : c ∈ hexLow (k + 1) v ++ ['H']) :
      c.isAlphanum = true ∧ c.toUpper = c := by
    rcases List.mem_append.mp hc with hc | hc
    · obtain ⟨d, rfl⟩ := mem_hexLow hc
      exact ⟨(hexDigit_spec d).1, (hexDigit_spec d).2.2.2.2.2.2.2⟩
    · rw [List.mem_singleton.mp hc]
      exact ⟨rfl, rfl⟩
  have htoken : Token (hexLow (k + 1) v ++ ['H']) (hexDigit (v / 16 ^ k)) := by
    refine ⟨?_, fun c hc => (hmem c hc).1, hdigit.2.2.2.2.2.2.1⟩
    rw [hexLow_succ, Nat.mod_eq_of_lt hlead]
    rfl
  refine ⟨⟨?_, fun c hc => (hmem c hc).1, fun c hc => (hmem c hc).2⟩, ?_, ?_⟩
  · exact List.append_ne_nil_of_right_ne_nil _ (List.cons_ne_nil _ _)
  · intro hlt env z
    rw [htoken.evaluate_number (hdigit.2.2.2.2.1.mpr hlt) ?_ env z, number_hexLow hv hk]
    rw [List.length_append, length_hexLow, List.length_singleton]
    omega
  · intro hge pc z
    exact htoken.evaluate_name (hdigit.2.2.2.2.2.1.mpr hge) pc z

namespace Spelling

/-- The shapes that the operands have. -/
theorem Fits.cases {s : Spelling} {f : Format} (h : s.Fits f) :
    (s.regs = [] ∧ s.arg = .none) ∨ (s.regs = [] ∧ s.arg ≠ .none) ∨
    (∃ r, s.regs = [r] ∧ s.arg = .none) ∨ (∃ r, s.regs = [r] ∧ s.arg ≠ .none) ∨
    (∃ r r2, s.regs = [r, r2] ∧ s.arg = .none) := by
  have hfew := h.few
  by_cases harg : s.arg = .none
  · match hregs : s.regs with
    | [] => exact Or.inl ⟨rfl, harg⟩
    | [r] => exact Or.inr (Or.inr (Or.inl ⟨r, rfl, harg⟩))
    | [r, r2] => exact Or.inr (Or.inr (Or.inr (Or.inr ⟨r, r2, rfl, harg⟩)))
    | r :: r2 :: r3 :: rest =>
      rw [hregs] at hfew
      simp only [List.length_cons] at hfew
      omega
  · match hregs : s.regs with
    | [] => exact Or.inr (Or.inl ⟨rfl, harg⟩)
    | [r] => exact Or.inr (Or.inr (Or.inr (Or.inl ⟨r, rfl, harg⟩)))
    | r :: r2 :: rest =>
      rw [hregs] at hfew
      simp only [List.length_cons] at hfew
      exact absurd (hfew.resolve_right (by omega)).1 harg

end Spelling

/-- A text of at most two operands, with a comma between them. -/
structure Joined (text : List Char) (ops : List (List Char)) : Prop where
  plain : ∀ c ∈ text, isPlain c = true
  nil_iff : text = [] ↔ ops = []
  short : text.length ≤ 16
  pieces : ops ≠ [] → commaPieces false text = ops
  piece : ∀ r ∈ ops, Piece r
  few : ops.length ≤ 2

theorem joined_nil : Joined [] [] :=
  ⟨fun _ h => absurd h List.not_mem_nil, ⟨fun _ => rfl, fun _ => rfl⟩, Nat.zero_le _,
    fun h => absurd rfl h, fun _ h => absurd h List.not_mem_nil, Nat.zero_le _⟩

theorem joined_one {r : List Char} (hr : Piece r) (hlen : r.length ≤ 5) : Joined r [r] := by
  refine ⟨hr.isPlain, ?_, hlen.trans (by decide), fun _ => commaPieces_alnum hr.alnum, ?_,
    Nat.le_succ 1⟩
  · exact ⟨fun h => absurd h hr.ne, fun h => absurd h (List.cons_ne_nil _ _)⟩
  · intro t ht
    rw [List.mem_singleton.mp ht]
    exact hr

theorem joined_two {r t : List Char} (hr : Piece r) (ht : Piece t) (hrlen : r.length ≤ 5)
    (htlen : t.length ≤ 5) : Joined (r ++ ',' :: t) [r, t] := by
  refine ⟨?_, ?_, ?_, ?_, ?_, Nat.le_refl 2⟩
  · intro c hc
    rcases List.mem_append.mp hc with hc | hc
    · exact hr.isPlain c hc
    · rcases List.mem_cons.mp hc with rfl | hc
      · rfl
      · exact ht.isPlain c hc
  · exact ⟨fun h => absurd h (List.append_ne_nil_of_left_ne_nil hr.ne _),
      fun h => absurd h (List.cons_ne_nil _ _)⟩
  · rw [List.length_append, List.length_cons]
    omega
  · intro _
    rw [commaPieces_comma hr.alnum, commaPieces_alnum ht.alnum]
  · intro u hu
    rcases List.mem_cons.mp hu with rfl | hu
    · exact hr
    · rw [List.mem_singleton.mp hu]
      exact ht

theorem Spelling.Fits.joined {s : Spelling} {f : Format} (h : s.Fits f) (num : List Char)
    (hnone : s.arg = .none → num = []) (hnum : s.arg ≠ .none → Piece num ∧ num.length ≤ 5) :
    Joined (s.prefixText ++ num) (s.operands num) := by
  have hreg {r : List Char} (hr : r ∈ s.regs) : Piece r ∧ r.length ≤ 5 :=
    ⟨h.regs r hr, (h.short.2 r hr).trans (by decide)⟩
  rw [Spelling.prefixText, Spelling.operands]
  rcases h.cases with ⟨hregs, harg⟩ | ⟨hregs, harg⟩ | ⟨r, hregs, harg⟩ | ⟨r, hregs, harg⟩ |
    ⟨r, r2, hregs, harg⟩
  · rw [if_pos harg, hregs, hnone harg]
    exact joined_nil
  · rw [if_neg harg, hregs]
    exact joined_one (hnum harg).1 (hnum harg).2
  · obtain ⟨hr, hlen⟩ := hreg (r := r) (by simp [hregs])
    rw [if_pos harg, hregs, hnone harg]
    dsimp only
    rw [if_pos harg, List.append_nil]
    exact joined_one hr hlen
  · obtain ⟨hr, hlen⟩ := hreg (r := r) (by simp [hregs])
    rw [if_neg harg, hregs]
    dsimp only
    rw [if_neg harg, List.append_assoc]
    exact joined_two hr (hnum harg).1 hlen (hnum harg).2
  · obtain ⟨hr, hlen⟩ := hreg (r := r) (by simp [hregs])
    obtain ⟨hr2, hlen2⟩ := hreg (r := r2) (by simp [hregs])
    rw [if_pos harg, hregs, hnone harg]
    dsimp only
    rw [List.append_nil]
    exact joined_two hr hr2 hlen hlen2

namespace Instr

variable (i : Instr)

/-- The bytes of an instruction, by its format. -/
theorem bytes_cases {s : Spelling} (hlen : I8080.opcodeLength i.op = s.size) :
    (s.arg = .none ∧ i.operand = []) ∨ (s.arg = .imm8 ∧ i.operand = [i.imm8]) ∨
    (s.arg = .imm16 ∧ i.operand = [loByte i.imm16, hiByte i.imm16]) := by
  have hcomplete := i.complete
  rw [hlen, Spelling.size] at hcomplete
  cases harg : s.arg with
  | none =>
    rw [harg] at hcomplete
    exact Or.inl ⟨rfl, List.eq_nil_of_length_eq_zero (by simpa using hcomplete)⟩
  | imm8 =>
    rw [harg] at hcomplete
    obtain ⟨b, hb⟩ := List.length_eq_one_iff.mp (show i.operand.length = 1 by simpa using hcomplete)
    exact Or.inr (Or.inl ⟨rfl, by rw [imm8, hb]; rfl⟩)
  | imm16 =>
    rw [harg] at hcomplete
    have htwo : i.operand.length = 2 := by simpa using hcomplete
    obtain ⟨lo, hi, hb⟩ := List.length_eq_two.mp htwo
    refine Or.inr (Or.inr ⟨rfl, ?_⟩)
    rw [imm16, loByte_word, hiByte_word, imm8, hb]
    rfl

/-- The number that the disassembler prints, with its value. -/
theorem num_spec {s : Spelling} (hlen : I8080.opcodeLength i.op = s.size) (harg : s.arg ≠ .none) :
    i.Num (s.arg.print i.imm8 i.imm16)
      (if s.arg = .imm8 then i.imm8.toNat else i.imm16.toNat) := by
  rcases i.bytes_cases hlen with ⟨hnone, -⟩ | ⟨h8, hop⟩ | ⟨h16, hop⟩
  · exact absurd hnone harg
  · have hread : i.Readable ↔ i.imm8.toNat / 16 ^ 1 < 10 := by
      rw [Readable, hop]
      simp only [List.getLast?_singleton, Option.mem_some_iff, forall_eq', BitVec.lt_def]
      change i.imm8.toNat < 160 ↔ _
      omega
    have hv : i.imm8.toNat < 16 ^ (1 + 1) := i.imm8.isLt
    obtain ⟨hpiece, hok, hbad⟩ := evaluate_hexLow hv (by decide)
    rw [h8, if_pos rfl, Arg.print]
    rw [hex_eq_hexLow (by decide) hv]
    exact ⟨hpiece, by simp [length_hexLow], fun h => hok (hread.mp h),
      fun h => hbad fun h' => h (hread.mpr h')⟩
  · have hread : i.Readable ↔ i.imm16.toNat / 16 ^ 3 < 10 := by
      rw [Readable, hop]
      simp only [List.getLast?_cons_cons, List.getLast?_singleton, Option.mem_some_iff, forall_eq',
        BitVec.lt_def]
      change (hiByte i.imm16).toNat < 160 ↔ _
      rw [hiByte, BitVec.toNat_setWidth, BitVec.toNat_ushiftRight, Nat.shiftRight_eq_div_pow]
      have := i.imm16.isLt
      omega
    have hv : i.imm16.toNat < 16 ^ (3 + 1) := i.imm16.isLt
    obtain ⟨hpiece, hok, hbad⟩ := evaluate_hexLow hv (by decide)
    rw [h16, if_neg (by decide), Arg.print]
    rw [hex_eq_hexLow (by decide) hv]
    exact ⟨hpiece, by simp [length_hexLow], fun h => hok (hread.mp h),
      fun h => hbad fun h' => h (hread.mpr h')⟩

/-- The line of an instruction is a plain line. -/
theorem line_eq : ∃ s : Spelling, (s.encodes i.op = true ∧ I8080.opcodeLength i.op = s.size ∧
      (∀ r ∈ s.regs, Piece r) ∧ s.mnem.name.toList.map Char.toUpper = s.mnem.name.toList ∧
      MNEM.find? (·.name.toList == s.mnem.name.toList) = some s.mnem) ∧
    Joined (s.prefixText ++ s.arg.print i.imm8 i.imm16)
      (s.operands (s.arg.print i.imm8 i.imm16)) ∧
    Plain s.mnem.name.toList s.gap (s.prefixText ++ s.arg.print i.imm8 i.imm16) ∧
    i.line =
      plainLine s.mnem.name.toList s.gap (s.prefixText ++ s.arg.print i.imm8 i.imm16) := by
  obtain ⟨s, f, hf, hencodes, hlen, hfits, hfind⟩ := exists_spelling i.documented
  have hnum (harg : s.arg ≠ .none) := i.num_spec hlen harg
  have hjoined := hfits.joined (s.arg.print i.imm8 i.imm16)
    (fun harg => by rw [harg]; rfl) (fun harg => ⟨(hnum harg).piece, (hnum harg).length⟩)
  have hupper : s.mnem.name.toList.map Char.toUpper = s.mnem.name.toList := by
    rw [List.map_congr_left hfits.name.cased, List.map_id']
  refine ⟨s, ⟨hencodes, hlen, hfits.regs, hupper, hfind⟩, hjoined, ?_, ?_⟩
  · refine ⟨hfits.name.ne, hfits.name.alnum, hjoined.plain, ?_, ?_⟩
    · rw [hfits.gap_iff, hjoined.nil_iff, Spelling.operands]
      split
      · simp [*]
      · simp [*]
    · have := hfits.gap_le
      have := hfits.short.1
      have := hjoined.short
      omega
  · rw [line, text, hf, plainLine, Option.elim_some, Format.print, hfits.text, hfits.arg,
      List.append_assoc _ s.prefixText]

/-- **The statement of an instruction's line**: the mnemonic and the operands of its spelling. -/
theorem parseLine_line : ∃ s : Spelling, s.encodes i.op = true ∧
    I8080.opcodeLength i.op = s.size ∧ (∀ r ∈ s.regs, Piece r) ∧ ∃ ops,
      parseLine i.line = ⟨none, some (.instr s.mnem ops)⟩ ∧
      (s.regs.length ≠ 0 ∨ s.arg ≠ .none →
        List.Forall₂ Holds ops (s.operands (s.arg.print i.imm8 i.imm16))) := by
  obtain ⟨s, ⟨hencodes, hlen, hregs, hupper, hfind⟩, hjoined, hplain, hline⟩ := i.line_eq
  obtain ⟨rest, hrest, hparse⟩ := hplain.parseLine_plainLine
  rw [hupper, statementOf_instr hrest hjoined.plain hfind, ← hline] at hparse
  refine ⟨s, hencodes, hlen, hregs, splitOperands upperShort rest, hparse, fun hne => ?_⟩
  have hops : s.operands (s.arg.print i.imm8 i.imm16) ≠ [] := by
    rw [Spelling.operands]
    split
    · exact fun h => hne.elim (fun hl => hl (congrArg List.length h)) fun harg => harg ‹_›
    · exact List.append_ne_nil_of_right_ne_nil _ (List.cons_ne_nil _ _)
  have hsplit := holds_splitOperands (f := upperShort)
    (fun t p ht hp => ht.holds_upperShort hp) hrest hjoined.plain
  rw [hjoined.pieces hops] at hsplit
  exact hsplit hjoined.piece (hjoined.few.trans (by decide))

end Instr

/-! ## Assembling an instruction -/

theorem reg8_holds {p : Ptr} {r : List Char} (hp : Holds p r) (hr : r ≠ []) :
    reg8 (some p) = reg8 (some (r ++ [NUL])) := by
  obtain ⟨z, rfl⟩ := hp
  match r with
  | [] => exact absurd rfl hr
  | [c] => rfl
  | c :: d :: r => rfl

theorem regpair_holds {p : Ptr} {r : List Char} (hp : Holds p r)
    (hr : ∀ c ∈ r, c ≠ NUL) (stack : Bool) :
    regpair stack (some p) = regpair stack (some (r ++ [NUL])) := by
  obtain ⟨z, rfl⟩ := hp
  rw [regpair, regpair, cstr_append hr, cstr_append hr]

namespace Spelling

variable {s : Spelling} {num : List Char} {ops : List Ptr}

theorem ops_of_regs_num (hregs : s.regs.length = 0) (harg : s.arg ≠ .none)
    (h : List.Forall₂ Holds ops (s.operands num)) : ∃ q, ops = [q] ∧ Holds q num := by
  rw [operands, if_neg harg, List.eq_nil_of_length_eq_zero hregs] at h
  cases h with
  | cons hq htail =>
    cases htail
    exact ⟨_, rfl, hq⟩

theorem ops_of_reg (hpiece : ∀ r ∈ s.regs, Piece r) (hregs : s.regs.length = 1)
    (harg : s.arg = .none) (h : List.Forall₂ Holds ops (s.operands num)) :
    ∃ p, ops = [p] ∧ reg8 (some p) = s.reg 0 ∧ (∀ stack, regpair stack (some p) = s.pair stack) ∧
      ∀ r ∈ s.regs[0]?, Piece r ∧ Holds p r := by
  obtain ⟨r, hr⟩ := List.length_eq_one_iff.mp hregs
  have hp := hpiece r (by simp [hr])
  rw [operands, if_pos harg, hr] at h
  cases h with
  | cons hr' htail =>
    cases htail
    refine ⟨_, rfl, ?_, fun stack => ?_, ?_⟩
    · rw [reg, hr]
      exact reg8_holds hr' hp.ne
    · rw [pair, hr]
      exact regpair_holds hr' hp.trimmed.no_nul stack
    · intro t ht
      rw [hr] at ht
      cases ht
      exact ⟨hp, hr'⟩

theorem ops_of_reg_num (hpiece : ∀ r ∈ s.regs, Piece r) (hregs : s.regs.length = 1)
    (harg : s.arg ≠ .none) (h : List.Forall₂ Holds ops (s.operands num)) :
    ∃ p q, ops = [p, q] ∧ reg8 (some p) = s.reg 0 ∧
      (∀ stack, regpair stack (some p) = s.pair stack) ∧ Holds q num := by
  obtain ⟨r, hr⟩ := List.length_eq_one_iff.mp hregs
  have hp := hpiece r (by simp [hr])
  rw [operands, if_neg harg, hr] at h
  cases h with
  | cons hr' htail =>
    cases htail with
    | cons hq htail =>
      cases htail
      refine ⟨_, _, rfl, ?_, fun stack => ?_, hq⟩
      · rw [reg, hr]
        exact reg8_holds hr' hp.ne
      · rw [pair, hr]
        exact regpair_holds hr' hp.trimmed.no_nul stack

theorem ops_of_regs (hpiece : ∀ r ∈ s.regs, Piece r) (hregs : s.regs.length = 2)
    (harg : s.arg = .none) (h : List.Forall₂ Holds ops (s.operands num)) :
    ∃ p q, ops = [p, q] ∧ reg8 (some p) = s.reg 0 ∧ reg8 (some q) = s.reg 1 := by
  obtain ⟨r, t, hr⟩ := List.length_eq_two.mp hregs
  rw [operands, if_pos harg, hr] at h
  cases h with
  | cons hr' htail =>
    cases htail with
    | cons ht' htail =>
      cases htail
      refine ⟨_, _, rfl, ?_, ?_⟩
      · rw [reg, hr]
        exact reg8_holds hr' (hpiece r (by simp [hr])).ne
      · rw [reg, hr]
        exact reg8_holds ht' (hpiece t (by simp [hr])).ne

end Spelling

namespace Asm

/-- Emit bytes. -/
def emitBytes (a : Asm) (bs : List U8) : Asm := bs.foldl emitByte a

theorem emits_emitBytes (a : Asm) (bs : List U8) : Emits bs.length a (a.emitBytes bs) := by
  have h := emits_foldl (fun a v => emits_emitByte a v) bs a
  rw [Nat.one_mul] at h
  exact h

theorem emitBytes_append (a : Asm) (bs cs : List U8) :
    a.emitBytes (bs ++ cs) = (a.emitBytes bs).emitBytes cs := List.foldl_append

theorem value_holds {a : Asm} (hsyms : a.syms = []) {i : Instr} (hread : i.Readable)
    {num : List Char} {v : ℕ} (hnum : i.Num num v) (ops : List Ptr) {k : ℕ} {q : Ptr}
    (hk : ops[k]? = some q) (hq : Holds q num) (stmtPc : ℤ) (m : Mnem) :
    a.value stmtPc ops k m = ((v : ℤ), a) := by
  obtain ⟨z, rfl⟩ := hq
  have hop : a.operand stmtPc ops k = ((v : ℤ), true) := by
    rw [operand, hk, hsyms]
    dsimp only
    rw [hnum.readable hread]
  rw [value, hop]
  rfl

end Asm

namespace Instr

/-- **A readable instruction** assembles to its bytes. -/
theorem execInstr_eq {i : Instr} (hread : i.Readable) {s : Spelling}
    (hencodes : s.encodes i.op = true) (hlen : I8080.opcodeLength i.op = s.size)
    (hpiece : ∀ r ∈ s.regs, Piece r) {ops : List Ptr}
    (hops : s.regs.length ≠ 0 ∨ s.arg ≠ .none →
      List.Forall₂ Holds ops (s.operands (s.arg.print i.imm8 i.imm16)))
    {a : Asm} (hsyms : a.syms = []) (stmtPc : ℤ) :
    a.execInstr stmtPc s.mnem ops = a.emitBytes i.bytes := by
  have hnum (harg : s.arg ≠ .none) := i.num_spec hlen harg
  have hbytes0 (harg : s.arg = .none) : i.bytes = [i.op] := by
    rcases i.bytes_cases hlen with ⟨-, h⟩ | ⟨h, -⟩ | ⟨h, -⟩
    · rw [bytes, h]
    · rw [h] at harg
      cases harg
    · rw [h] at harg
      cases harg
  have hbytes8 (harg : s.arg = .imm8) : i.bytes = [i.op, BitVec.ofInt 8 i.imm8.toNat] := by
    rcases i.bytes_cases hlen with ⟨h, -⟩ | ⟨-, h⟩ | ⟨h, -⟩
    · rw [h] at harg
      cases harg
    · rw [bytes, h, BitVec.ofInt_natCast, BitVec.ofNat_toNat, BitVec.setWidth_eq]
    · rw [h] at harg
      cases harg
  have hbytes16 (harg : s.arg = .imm16) :
      i.bytes = [i.op, BitVec.ofInt 8 i.imm16.toNat,
        BitVec.ofInt 8 ((i.imm16.toNat : ℤ) >>> (8 : ℕ))] := by
    rcases i.bytes_cases hlen with ⟨h, -⟩ | ⟨h, -⟩ | ⟨-, h⟩
    · rw [h] at harg
      cases harg
    · rw [h] at harg
      cases harg
    · have hlo : BitVec.ofInt 8 (i.imm16.toNat : ℤ) = loByte i.imm16 := by
        rw [BitVec.ofInt_natCast, BitVec.ofNat_toNat, loByte]
      have hhi : BitVec.ofInt 8 ((i.imm16.toNat : ℤ) >>> (8 : ℕ)) = hiByte i.imm16 := by
        change BitVec.ofInt 8 ((i.imm16.toNat >>> 8 : ℕ) : ℤ) = _
        rw [BitVec.ofInt_natCast, ← BitVec.toNat_ushiftRight, BitVec.ofNat_toNat, hiByte]
      rw [bytes, h, hlo, hhi]
  have hreg {r : Option ℕ} {k : ℕ} (h : r = some k) (message : List Char) :
      a.register r message = (k, a) := by
    rw [h]
    rfl
  rw [Spelling.encodes] at hencodes
  unfold Asm.execInstr
  dsimp only at hencodes ⊢
  cases hkind : s.mnem.kind with
  | none =>
    rw [hkind] at hencodes
    simp only [Bool.and_eq_true, beq_iff_eq] at hencodes
    obtain ⟨⟨-, harg⟩, hop⟩ := hencodes
    rw [hbytes0 harg, hop]
    rfl
  | r8d | r8s =>
    rw [hkind] at hencodes
    simp only [Bool.and_eq_true, beq_iff_eq, Option.any_eq_true] at hencodes
    obtain ⟨⟨hregs, harg⟩, r, hr, hop⟩ := hencodes
    obtain ⟨p, rfl, hreg8, -, -⟩ := Spelling.ops_of_reg hpiece hregs harg (hops (Or.inl (by omega)))
    dsimp only [List.getElem?_cons_zero]
    rw [hreg (by rw [hreg8, hr]), hbytes0 harg]
    exact congrArg a.emitByte hop
  | mov =>
    rw [hkind] at hencodes
    simp only [Bool.and_eq_true, beq_iff_eq, Option.any_eq_true] at hencodes
    obtain ⟨⟨hregs, harg⟩, r, hr, r2, hr2, hop⟩ := hencodes
    obtain ⟨p, q, rfl, hp, hq⟩ := Spelling.ops_of_regs hpiece hregs harg (hops (Or.inl (by omega)))
    dsimp only [List.getElem?_cons_zero, List.getElem?_cons_succ]
    rw [hr] at hp
    rw [hr2] at hq
    rw [hp, hq, hbytes0 harg]
    exact congrArg a.emitByte hop
  | mvi =>
    rw [hkind] at hencodes
    simp only [Bool.and_eq_true, beq_iff_eq, Option.any_eq_true] at hencodes
    obtain ⟨⟨hregs, harg⟩, r, hr, hop⟩ := hencodes
    have hne : s.arg ≠ .none := by rw [harg]; decide
    obtain ⟨p, q, rfl, hreg8, -, hq⟩ := Spelling.ops_of_reg_num hpiece hregs hne (hops (Or.inr hne))
    have hval := Asm.value_holds hsyms hread (hnum hne) [p, q] (k := 1) rfl hq stmtPc s.mnem
    rw [if_pos harg] at hval
    dsimp only [List.getElem?_cons_zero]
    rw [hreg (by rw [hreg8, hr])]
    dsimp only
    rw [hval, hbytes8 harg, hop]
    rfl
  | lxi =>
    rw [hkind] at hencodes
    simp only [Bool.and_eq_true, beq_iff_eq, Option.any_eq_true] at hencodes
    obtain ⟨⟨hregs, harg⟩, r, hr, hop⟩ := hencodes
    have hne : s.arg ≠ .none := by rw [harg]; decide
    obtain ⟨p, q, rfl, -, hpair, hq⟩ := Spelling.ops_of_reg_num hpiece hregs hne (hops (Or.inr hne))
    have hval := Asm.value_holds hsyms hread (hnum hne) [p, q] (k := 1) rfl hq stmtPc s.mnem
    rw [if_neg (by rw [harg]; decide)] at hval
    dsimp only [List.getElem?_cons_zero]
    rw [hreg (by rw [hpair false, hr])]
    dsimp only
    rw [hval, hbytes16 harg, hop]
    rfl
  | rp | stk =>
    rw [hkind] at hencodes
    simp only [Bool.and_eq_true, beq_iff_eq, Option.any_eq_true] at hencodes
    obtain ⟨⟨hregs, harg⟩, r, hr, hop⟩ := hencodes
    obtain ⟨p, rfl, -, hpair, -⟩ := Spelling.ops_of_reg hpiece hregs harg (hops (Or.inl (by omega)))
    dsimp only [List.getElem?_cons_zero]
    rw [hreg (by rw [hpair _, hr]), hbytes0 harg]
    exact congrArg a.emitByte hop
  | ax =>
    rw [hkind] at hencodes
    simp only [Bool.and_eq_true, beq_iff_eq, Option.any_eq_true] at hencodes
    obtain ⟨⟨hregs, harg⟩, r, hr, hop⟩ := hencodes
    obtain ⟨p, rfl, -, hpair, -⟩ := Spelling.ops_of_reg hpiece hregs harg (hops (Or.inl (by omega)))
    dsimp only [List.getElem?_cons_zero]
    rw [hpair false, hreg hr, hbytes0 harg]
    exact congrArg a.emitByte hop
  | imm8 | port =>
    rw [hkind] at hencodes
    simp only [Bool.and_eq_true, beq_iff_eq] at hencodes
    obtain ⟨⟨hregs, harg⟩, hop⟩ := hencodes
    have hne : s.arg ≠ .none := by rw [harg]; decide
    obtain ⟨q, rfl, hq⟩ := Spelling.ops_of_regs_num hregs hne (hops (Or.inr hne))
    have hval := Asm.value_holds hsyms hread (hnum hne) [q] (k := 0) rfl hq stmtPc s.mnem
    rw [if_pos harg] at hval
    rw [hval, hbytes8 harg, hop]
    rfl
  | addr =>
    rw [hkind] at hencodes
    simp only [Bool.and_eq_true, beq_iff_eq] at hencodes
    obtain ⟨⟨hregs, harg⟩, hop⟩ := hencodes
    have hne : s.arg ≠ .none := by rw [harg]; decide
    obtain ⟨q, rfl, hq⟩ := Spelling.ops_of_regs_num hregs hne (hops (Or.inr hne))
    have hval := Asm.value_holds hsyms hread (hnum hne) [q] (k := 0) rfl hq stmtPc s.mnem
    rw [if_neg (by rw [harg]; decide)] at hval
    rw [hval, hbytes16 harg, hop]
    rfl
  | rst =>
    rw [hkind] at hencodes
    simp only [Bool.and_eq_true, beq_iff_eq, Option.any_eq_true] at hencodes
    obtain ⟨⟨hregs, harg⟩, r, hr, ⟨hone, c, hc, hdigit⟩, hop⟩ := hencodes
    obtain ⟨p, rfl, -, -, hp⟩ := Spelling.ops_of_reg hpiece hregs harg (hops (Or.inl (by omega)))
    obtain ⟨hr', z, rfl⟩ := hp r hr
    have htoken : Token r c := by
      refine ⟨hc, hr'.alnum, ?_⟩
      rintro rfl
      exact absurd hdigit (by decide)
    have hval : (a.operand stmtPc [r ++ NUL :: z] 0).1 = number r := by
      rw [Asm.operand, List.getElem?_cons_zero]
      dsimp only
      rw [htoken.evaluate_number hdigit (by omega)]
    rw [hval, hop, hbytes0 harg]
    rfl

end Instr

end Umk80
