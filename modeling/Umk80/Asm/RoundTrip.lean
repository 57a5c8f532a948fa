import Mathlib.Data.List.GetD
import Umk80.Asm.Fixpoint
import Umk80.Asm.Lines
import Umk80.Asm.Spelling

/-!
# Assembling a disassembly

The listing that `umkdis --asm` prints has an ORG line, an empty line, and a line for each
instruction. The assembler reads 6000 lines of it. What it makes of them depends on the first
digits of the numbers, since `umk_disasm` does not put a 0 before a hexadecimal number that starts
with a letter: such an operand is taken for a symbol and reported, and such an origin is ignored.

## Main definitions

* `RoundTrips` — the listing assembles without error to the bytes it was made from
* `Asm.Wrote` — an emission of given bytes

## Main results

* `Instr.wrote_nextLine` — a readable instruction assembles to its bytes
* `listing_instrs` — the listing of a sequence of instructions
* `roundTrips_iff` — which sequences of instructions survive
-/

namespace Umk80

open CString

namespace Asm

/-! ## Emissions of bytes -/

/-- From `a` to `b` the bytes `bs` have been written to the image, and nothing reported. -/
structure Wrote (bs : List U8) (a b : Asm) : Prop where
  syms : b.syms = a.syms
  errors : b.errors = a.errors
  changed : b.changed = a.changed
  emitting : b.emitting = a.emitting
  imageSize : b.imageSize = a.imageSize
  pc : b.pc = a.pc + bs.length
  image : ∀ k : ℕ, b.image k =
    if a.pc ≤ k ∧ k < a.pc + bs.length then bs.getD (k - a.pc).toNat 0 else a.image k

variable {a b c : Asm}

theorem Wrote.refl (a : Asm) : Wrote [] a a := by
  refine ⟨rfl, rfl, rfl, rfl, rfl, (Int.add_zero _).symm, fun k => ?_⟩
  rw [if_neg]
  simp only [List.length_nil]
  omega

theorem Wrote.trans {bs cs : List U8} (h : Wrote bs a b) (h' : Wrote cs b c) :
    Wrote (bs ++ cs) a c := by
  refine ⟨by rw [h'.syms, h.syms], by rw [h'.errors, h.errors], by rw [h'.changed, h.changed],
    by rw [h'.emitting, h.emitting], by rw [h'.imageSize, h.imageSize], ?_, fun k => ?_⟩
  · rw [h'.pc, h.pc, List.length_append]
    push_cast
    exact Int.add_assoc _ _ _
  · rw [h'.image, h.image, h.pc, List.length_append]
    push_cast
    by_cases hlow : a.pc ≤ k ∧ k < a.pc + bs.length
    · rw [if_neg (by omega), if_pos hlow, if_pos (by omega), List.getD_append _ _ _ _ (by omega)]
    · by_cases hhigh : a.pc + bs.length ≤ k ∧ k < a.pc + bs.length + cs.length
      · rw [if_pos hhigh, if_pos (by omega), List.getD_append_right _ _ _ _ (by omega)]
        congr 1
        omega
      · rw [if_neg hhigh, if_neg hlow, if_neg (by omega)]

theorem wrote_emitByte (he : a.emitting = true) (h0 : 0 ≤ a.pc) (hfit : a.pc + 1 ≤ a.imageSize)
    (v : U8) : Wrote [v] a (a.emitByte v) := by
  have hemit : a.emit a.pc v = { a with image := Function.update a.image a.pc.toNat v } := by
    rw [emit, if_neg (by omega), if_pos he]
  rw [emitByte, hemit]
  refine ⟨rfl, rfl, rfl, rfl, rfl, rfl, fun k => ?_⟩
  change Function.update a.image a.pc.toNat v k = _
  simp only [List.length_singleton]
  by_cases hk : k = a.pc.toNat
  · rw [hk, Function.update_self, if_pos (by omega)]
    have hzero : ((a.pc.toNat : ℤ) - a.pc).toNat = 0 := by omega
    rw [hzero]
    rfl
  · rw [Function.update_of_ne hk, if_neg (by omega)]

theorem wrote_emitBytes (he : a.emitting = true) (h0 : 0 ≤ a.pc) {bs : List U8}
    (hfit : a.pc + bs.length ≤ a.imageSize) : Wrote bs a (a.emitBytes bs) := by
  induction bs generalizing a with
  | nil => exact Wrote.refl a
  | cons v bs ih =>
    rw [List.length_cons] at hfit
    push_cast at hfit
    have hfirst := wrote_emitByte he h0 (by omega) v
    have hpc : (a.emitByte v).pc = a.pc + 1 := hfirst.pc
    have hrest := ih (by rw [hfirst.emitting, he]) (by omega) (by rw [hpc, hfirst.imageSize]; omega)
    exact hfirst.trans hrest

end Asm

namespace Instr

variable {i : Instr} {a : Asm}

/-- **A readable instruction** assembles to its bytes. -/
theorem wrote_nextLine (hread : i.Readable) (hsyms : a.syms = []) (he : a.emitting = true)
    (h0 : 0 ≤ a.pc) (hfit : a.pc + i.bytes.length ≤ a.imageSize) :
    a.Wrote i.bytes (a.nextLine i.line) := by
  obtain ⟨s, hencodes, hlen, hpiece, ops, hparse, hops⟩ := i.parseLine_line
  have hexec := execInstr_eq hread hencodes hlen hpiece hops hsyms a.pc
  have hwrote := Asm.wrote_emitBytes he h0 hfit
  rw [← hexec] at hwrote
  have hline : a.assembleLine i.line = a.execInstr a.pc s.mnem ops := by
    rw [Asm.assembleLine, hparse]
    rfl
  rw [Asm.nextLine, hline]
  exact ⟨hwrote.syms, hwrote.errors, hwrote.changed, hwrote.emitting, hwrote.imageSize, hwrote.pc,
    hwrote.image⟩

/-- The number of an instruction is an operand whose value is emitted. -/
theorem valueOperands_of_num {s : Spelling} (hencodes : s.encodes i.op = true)
    (harg : s.arg ≠ .none) (hpiece : ∀ r ∈ s.regs, Piece r) {num : List Char} {ops : List Ptr}
    (hops : List.Forall₂ Holds ops (s.operands num)) :
    s.mnem.kind ≠ .rst ∧ ∃ q ∈ (Stmt.instr s.mnem ops).valueOperands, Holds q num := by
  rw [Spelling.encodes] at hencodes
  unfold Stmt.valueOperands
  dsimp only at hencodes ⊢
  cases hkind : s.mnem.kind with
  | mvi | lxi =>
    rw [hkind] at hencodes
    simp only [Bool.and_eq_true, beq_iff_eq] at hencodes
    obtain ⟨p, q, rfl, -, -, hq⟩ := Spelling.ops_of_reg_num hpiece hencodes.1.1 harg hops
    exact ⟨by decide, q, by simp, hq⟩
  | imm8 | addr | port =>
    rw [hkind] at hencodes
    simp only [Bool.and_eq_true, beq_iff_eq] at hencodes
    obtain ⟨q, rfl, hq⟩ := Spelling.ops_of_regs_num hencodes.1.1 harg hops
    exact ⟨by decide, q, by simp, hq⟩
  | _ =>
    rw [hkind] at hencodes
    simp only [Bool.and_eq_true, beq_iff_eq] at hencodes
    exact absurd hencodes.1.2 harg

/-- **An unreadable instruction** is reported. -/
theorem readable_of_quiet (hsyms : a.syms = []) (he : a.emitting = true)
    (h : Asm.Quiet (a.nextLine i.line)) : i.Readable := by
  by_contra hread
  obtain ⟨s, hencodes, hlen, hpiece, ops, hparse, hops⟩ := i.parseLine_line
  have harg : s.arg ≠ .none := by
    intro harg
    rcases i.bytes_cases hlen with ⟨-, hop⟩ | ⟨h8, -⟩ | ⟨h16, -⟩
    · exact hread (by rw [Readable, hop]; simp)
    · rw [h8] at harg
      cases harg
    · rw [h16] at harg
      cases harg
  obtain ⟨hkind, q, hq, z, rfl⟩ := valueOperands_of_num hencodes harg hpiece (hops (Or.inr harg))
  obtain ⟨-, -, -, hok⟩ := Asm.holds_of_quiet_nextLine he h
  have hvalue := hok _ (by rw [hparse]) (fun m ops heq => by cases heq; exact hkind) _ hq
  rw [hsyms, (i.num_spec hlen harg).unreadable hread] at hvalue
  exact absurd hvalue Bool.false_ne_true

end Instr

namespace Asm

variable {a : Asm}

/-- **The lines of readable instructions** assemble to their bytes. -/
theorem wrote_assembleLines {is : List Instr} (hread : ∀ i ∈ is, i.Readable) (hsyms : a.syms = [])
    (he : a.emitting = true) (h0 : 0 ≤ a.pc)
    (hfit : a.pc + (is.flatMap Instr.bytes).length ≤ a.imageSize) :
    a.Wrote (is.flatMap Instr.bytes) (a.assembleLines (is.map Instr.line)) := by
  induction is generalizing a with
  | nil => exact Wrote.refl a
  | cons i is ih =>
    rw [List.flatMap_cons, List.length_append] at hfit
    push_cast at hfit
    have hfirst := Instr.wrote_nextLine (hread i List.mem_cons_self) hsyms he h0 (by omega)
    have hrest := ih (a := a.nextLine i.line) (fun j hj => hread j (List.mem_cons_of_mem _ hj))
      (by rw [hfirst.syms, hsyms]) (by rw [hfirst.emitting, he]) (by rw [hfirst.pc]; omega)
      (by rw [hfirst.pc, hfirst.imageSize]; omega)
    rw [List.flatMap_cons, List.map_cons, assembleLines_cons]
    exact hfirst.trans hrest

/-! ## Sources without definitions -/

/-- A line that defines nothing leaves the table alone. -/
theorem nextLine_of_names {raw : List Char} (h : (parseLine raw).names = []) :
    (a.nextLine raw).syms = a.syms ∧ (a.nextLine raw).changed = a.changed := by
  obtain ⟨hlabel, hstmt⟩ := List.append_eq_nil_iff.mp h
  have hnone : (parseLine raw).label = none := by
    cases hl : (parseLine raw).label with
    | none => rfl
    | some name =>
      rw [hl] at hlabel
      cases hlabel
  have hsame : a.defineLabel (parseLine raw) = a := by rw [defineLabel, hnone]
  change (a.assembleLine raw).syms = a.syms ∧ (a.assembleLine raw).changed = a.changed
  rw [assembleLine, hsame, execLine]
  cases hs : (parseLine raw).stmt with
  | none => exact ⟨rfl, rfl⟩
  | some stmt =>
    dsimp only
    cases stmt with
    | equ name expr =>
      rw [hs] at hstmt
      cases hstmt
    | org ops =>
      rw [exec]
      split
      · exact ⟨rfl, rfl⟩
      · exact ⟨rfl, rfl⟩
    | finish => exact ⟨rfl, rfl⟩
    | ds ops => exact ⟨rfl, rfl⟩
    | db ops => exact ⟨(a.emits_db a.pc ops).syms, (a.emits_db a.pc ops).changed⟩
    | dw ops => exact ⟨(a.emits_dw a.pc ops).syms, (a.emits_dw a.pc ops).changed⟩
    | instr m ops =>
      exact ⟨(a.emits_execInstr a.pc m ops).syms, (a.emits_execInstr a.pc m ops).changed⟩
    | unknown mnemonic => exact ⟨(a.emits_report _).syms, (a.emits_report _).changed⟩

theorem assembleLines_of_names {lines : List (List Char)}
    (h : ∀ raw ∈ lines, (parseLine raw).names = []) :
    (a.assembleLines lines).syms = a.syms ∧ (a.assembleLines lines).changed = a.changed := by
  induction lines generalizing a with
  | nil => exact ⟨rfl, rfl⟩
  | cons raw lines ih =>
    obtain ⟨hsyms, hchanged⟩ := nextLine_of_names (a := a) (h raw List.mem_cons_self)
    obtain ⟨hsyms', hchanged'⟩ := ih (a := a.nextLine raw)
      fun r hr => h r (List.mem_cons_of_mem _ hr)
    rw [assembleLines_cons, hsyms', hchanged']
    exact ⟨hsyms, hchanged⟩

end Asm

/-- **Without definitions** one pass is enough, and the emitting pass starts afresh. -/
theorem passLoop_of_names (imageSize : ℤ) {lines : List (List Char)}
    (h : ∀ raw ∈ lines, (parseLine raw).names = []) :
    ∃ a, passLoop imageSize lines = some a ∧
      a.startEmitting = (Asm.init imageSize).startEmitting := by
  obtain ⟨hsyms, hchanged⟩ := Asm.assembleLines_of_names (a := Asm.init imageSize) h
  have hext := (Asm.init imageSize).extends_assembleLines lines
  refine ⟨(Asm.init imageSize).assembleLines lines, ?_, ?_⟩
  · rw [passLoop, MAX_PASSES, passes]
    refine if_neg ?_
    rw [show ((Asm.init imageSize).pass lines).changed = false from hchanged]
    decide
  · have himage := hext.image rfl
    rw [Asm.startEmitting, himage, hsyms, hchanged, hext.imageSize]
    rfl

/-! ## Reading the listing -/

theorem isLine_plainLine {word text : List Char} {gap : ℕ} (h : Plain word gap text) :
    IsLine (plainLine word gap text) := by
  refine ⟨List.replicate 6 ' ' ++ (word ++ List.replicate gap ' ' ++ text), rfl, ?_, ?_⟩
  · intro hc
    rcases List.mem_append.mp hc with hc | hc
    · exact absurd (List.eq_of_mem_replicate hc) (by decide)
    · exact h.newline_notMem hc
  · have := h.short
    simp only [List.length_append, List.length_replicate]
    omega

/-- An instruction at an address is disassembled to its text and its length. -/
theorem umkDisasm_instr (mem : ℕ → U8) {pc n : ℕ} (i : Instr)
    (hmem : ∀ j < i.bytes.length, mem (pc + j) = i.bytes.getD j 0)
    (hfit : pc + i.bytes.length ≤ n) : umkDisasm mem pc n = (i.text, i.bytes.length) := by
  obtain ⟨s, f, hf, -, hlen, hfits, -⟩ := exists_spelling i.documented
  have hop : mem pc = i.op := hmem 0 (Nat.succ_pos _)
  have hlength : I8080.opcodeLength i.op = i.bytes.length := i.complete.symm
  rw [umkDisasm, hop, hf, hlength, Instr.text, hf, Option.elim_some]
  refine Prod.ext ?_ rfl
  change f.print _ _ = f.print _ _
  rw [Format.print, Format.print, hfits.arg]
  rcases i.bytes_cases hlen with ⟨harg, -⟩ | ⟨harg, hb⟩ | ⟨harg, hb⟩
  · rw [harg]
    rfl
  · have hb1 : i.bytes.length = 2 := by rw [Instr.bytes, hb]; rfl
    rw [harg, Arg.print, Arg.print, if_pos (by omega), hmem 1 (by omega)]
    rfl
  · have hb2 : i.bytes.length = 3 := by rw [Instr.bytes, hb]; rfl
    rw [harg, Arg.print, Arg.print, if_pos (by omega), if_pos (by omega), hmem 1 (by omega),
      hmem 2 (by omega)]
    rfl

/-- **The listing of a sequence of instructions** has a line for each. -/
theorem listing_instrs (bytes : List U8) (org : ℕ) (is : List Instr) :
    ∀ (pre : List U8) (turns : ℕ), bytes = pre ++ is.flatMap Instr.bytes →
      (is.flatMap Instr.bytes).length ≤ turns →
      listing (fun k => bytes.getD k 0) org bytes.length turns (org + pre.length) =
        is.map Instr.line := by
  induction is with
  | nil =>
    intro pre turns hbytes _
    have hend : ¬ (org + pre.length - org < bytes.length) := by
      rw [hbytes]
      simp
    cases turns with
    | zero => rfl
    | succ turns => rw [listing, if_neg fun h => hend h.2]; rfl
  | cons i is ih =>
    intro pre turns hbytes hturns
    rw [List.flatMap_cons] at hbytes hturns
    rw [List.length_append] at hturns
    have hpos : 0 < i.bytes.length := Nat.succ_pos _
    obtain ⟨t, rfl⟩ := Nat.exists_eq_succ_of_ne_zero (n := turns) (by omega)
    have hlen : bytes.length = pre.length + (i.bytes.length + (is.flatMap Instr.bytes).length) := by
      rw [hbytes, List.length_append, List.length_append]
    have hmem : ∀ j < i.bytes.length, bytes.getD (pre.length + j) 0 = i.bytes.getD j 0 := by
      intro j hj
      rw [hbytes, List.getD_append_right _ _ _ _ (by omega), Nat.add_sub_cancel_left,
        List.getD_append _ _ _ _ hj]
    have hdisasm := umkDisasm_instr (fun k => bytes.getD k 0) i hmem (n := bytes.length)
      (by omega)
    have hrest := ih (pre ++ i.bytes) t (by rw [hbytes, List.append_assoc]) (by omega)
    rw [List.length_append, ← Nat.add_assoc] at hrest
    rw [listing, if_pos ⟨by omega, by omega⟩, Nat.add_sub_cancel_left, hdisasm]
    dsimp only
    rw [hrest]
    rfl

/-! ## The origin -/

/-- The ORG line of a listing. -/
def orgLine (org : ℕ) : List Char := plainLine "ORG".toList 3 (hex 4 org ++ ['H'])

/-- The number of an origin: four digits, or five. -/
theorem exists_hex_org {org : ℕ} (h : org ≤ 0x10000) : ∃ k ≤ 14, hex 4 org = hexLow (k + 1) org ∧
    org < 16 ^ (k + 1) ∧ (org / 16 ^ k < 10 ↔ org < 0xA000 ∨ org = 0x10000) := by
  by_cases htop : org = 0x10000
  · refine ⟨4, by decide, ?_⟩
    rw [htop]
    decide +kernel
  · have hv : org < 16 ^ (3 + 1) := by
      change org < 65536
      omega
    refine ⟨3, by decide, hex_eq_hexLow (by decide) hv, hv, ?_⟩
    change org / 4096 < 10 ↔ _
    omega

theorem plain_org {org : ℕ} (h : org ≤ 0x10000) :
    Plain "ORG".toList 3 (hex 4 org ++ ['H']) ∧ Piece (hex 4 org ++ ['H']) := by
  obtain ⟨k, hk, heq, hv, -⟩ := exists_hex_org h
  have hpiece := (evaluate_hexLow hv hk).1
  rw [heq]
  refine ⟨⟨by decide, List.all_eq_true.mp (by decide), hpiece.isPlain, ?_, ?_⟩, hpiece⟩
  · exact ⟨fun h => absurd h (by decide), fun h => absurd h hpiece.ne⟩
  · rw [List.length_append, length_hexLow]
    change 3 + 3 + (k + 1 + 1) ≤ 500
    omega

/-- An ORG line has one operand. -/
theorem parseLine_orgLine {org : ℕ} (h : org ≤ 0x10000) : ∃ op, Holds op (hex 4 org ++ ['H']) ∧
    parseLine (orgLine org) = ⟨none, some (.org [op])⟩ := by
  obtain ⟨hplain, hpiece⟩ := plain_org h
  obtain ⟨rest, hrest, hparse⟩ := hplain.parseLine_plainLine
  have hpieces := commaPieces_alnum hpiece.alnum
  have hsplit := holds_splitOperands (f := id) (fun _ _ _ hp => hp) hrest hplain.text_plain
  rw [hpieces] at hsplit
  have hall : ∀ s ∈ [hex 4 org ++ ['H']], Piece s := fun s hs => List.mem_singleton.mp hs ▸ hpiece
  have hops := hsplit hall (Nat.le_add_left 1 7)
  have hword : "ORG".toList.map Char.toUpper = "ORG".toList := by decide
  rw [hword, statementOf, not_equ_of_plain hrest hplain.text_plain, if_neg Bool.false_ne_true,
    if_pos rfl] at hparse
  cases hcase : splitOperands id rest with
  | nil =>
    rw [hcase] at hops
    cases hops
  | cons op ops =>
    rw [hcase] at hops hparse
    cases hops with
    | cons hop htail =>
      cases htail
      exact ⟨op, hop, hparse⟩

/-- **The ORG line** sets the address if the number starts with a decimal digit, and is ignored
otherwise. -/
theorem Asm.nextLine_orgLine {a : Asm} (hsyms : a.syms = []) {org : ℕ} (h : org ≤ 0x10000) :
    a.nextLine (orgLine org) = { a with
      pc := if org < 0xA000 ∨ org = 0x10000 then (org : ℤ) else a.pc
      curLine := a.curLine + 1 } := by
  obtain ⟨op, ⟨z, rfl⟩, hparse⟩ := parseLine_orgLine h
  obtain ⟨k, hk, heq, hv, hdigit⟩ := exists_hex_org h
  obtain ⟨-, hok, hbad⟩ := evaluate_hexLow hv hk
  rw [heq] at hparse
  have hline : a.assembleLine (orgLine org) =
      if (evaluate ⟨a.syms, a.pc⟩ (hexLow (k + 1) org ++ ['H'] ++ NUL :: z)).2.ok = true then
        { a with pc := (evaluate ⟨a.syms, a.pc⟩ (hexLow (k + 1) org ++ ['H'] ++ NUL :: z)).1 }
      else a := by
    rw [assembleLine, hparse]
    rfl
  rw [nextLine, hline, hsyms]
  by_cases hlow : org < 0xA000 ∨ org = 0x10000
  · rw [hok (hdigit.mpr hlow), if_pos hlow, ← hsyms]
    rfl
  · rw [hbad (fun hd => hlow (hdigit.mp hd)) a.pc z, if_neg hlow, ← hsyms]
    rfl

/-! ## A whole listing -/

variable {org : ℕ} {is : List Instr}

/-- The bytes of a sequence of instructions. -/
def code (is : List Instr) : List U8 := is.flatMap Instr.bytes

theorem isLine_line (i : Instr) : IsLine i.line := by
  obtain ⟨s, -, -, hplain, hline⟩ := i.line_eq
  rw [hline]
  exact isLine_plainLine hplain

/-- The lines that the assembler reads of a listing. -/
theorem readLines_umkdisAsm (h : org ≤ 0x10000) (is : List Instr) :
    readLines MAX_LINES (umkdisAsm org (code is)) =
      orgLine org :: ['\n'] :: (is.take (MAX_LINES - 2)).map Instr.line := by
  have hlisting := listing_instrs (code is) org is [] (code is).length rfl le_rfl
  have htext : umkdisAsm org (code is) = (orgLine org :: ['\n'] :: is.map Instr.line).flatten := by
    have horg : "      ORG   ".toList =
        List.replicate 6 ' ' ++ ("ORG".toList ++ List.replicate 3 ' ') := by decide
    have hend : "H\n\n".toList = ['H'] ++ (['\n'] ++ ['\n']) := by decide
    change _ ++ (listing _ org (code is).length (code is).length (org + 0)).flatten = _
    rw [List.length_nil] at hlisting
    rw [hlisting, horg, hend, orgLine, plainLine, List.flatten_cons, List.flatten_cons]
    simp only [List.append_assoc]
  have hlines : ∀ l ∈ orgLine org :: ['\n'] :: is.map Instr.line, IsLine l := by
    intro l hl
    rcases List.mem_cons.mp hl with rfl | hl
    · exact isLine_plainLine (plain_org h).1
    rcases List.mem_cons.mp hl with rfl | hl
    · exact ⟨[], rfl, List.not_mem_nil, by decide⟩
    · obtain ⟨i, -, rfl⟩ := List.mem_map.mp hl
      exact isLine_line i
  rw [htext, readLines_flatten hlines, List.map_take]
  rfl

theorem names_line (i : Instr) : (parseLine i.line).names = [] := by
  obtain ⟨s, -, -, -, ops, hparse, -⟩ := i.parseLine_line
  rw [hparse]
  rfl

/-- Where a listing is assembled. -/
def assembledAt (org : ℕ) : ℤ := if org < 0xA000 ∨ org = 0x10000 then (org : ℤ) else 0

theorem assembledAt_spec (org : ℕ) : 0 ≤ assembledAt org ∧ assembledAt org ≤ org ∧
    (org < 0xA000 → assembledAt org = org) ∧
    (0xA000 ≤ org → org < 0x10000 → assembledAt org = 0) := by
  rw [assembledAt]
  split
  · exact ⟨by omega, Int.le_refl _, fun _ => rfl, by omega⟩
  · exact ⟨Int.le_refl _, by omega, by omega, fun _ _ => rfl⟩

/-- The emitting pass, after the ORG line and the empty line. -/
def Asm.listed (imageSize : ℤ) (org : ℕ) : Asm :=
  { (Asm.init imageSize).startEmitting with pc := assembledAt org, curLine := 2 }

/-- **Assembling a listing** is assembling its instructions, as many of them as are read. -/
theorem umkasm_umkdisAsm (imageSize : ℤ) (h : org ≤ 0x10000) (is : List Instr) :
    umkasm imageSize (umkdisAsm org (code is)) =
      let a := (Asm.listed imageSize org).assembleLines
        ((is.take (MAX_LINES - 2)).map Instr.line)
      if a.errors = [] then some a.image else none := by
  have hblank : parseLine ['\n'] = ⟨none, none⟩ := by
    rw [parseLine]
    exact if_pos (by decide)
  have hnames : ∀ raw ∈ orgLine org :: ['\n'] :: (is.take (MAX_LINES - 2)).map Instr.line,
      (parseLine raw).names = [] := by
    intro raw hraw
    rcases List.mem_cons.mp hraw with rfl | hraw
    · obtain ⟨op, -, hparse⟩ := parseLine_orgLine h
      rw [hparse]
      rfl
    rcases List.mem_cons.mp hraw with rfl | hraw
    · rw [hblank]
      rfl
    · obtain ⟨i, -, rfl⟩ := List.mem_map.mp hraw
      exact names_line i
  obtain ⟨a, ha, hstart⟩ := passLoop_of_names imageSize hnames
  have hempty (b : Asm) : b.nextLine ['\n'] = { b with curLine := b.curLine + 1 } := by
    rw [Asm.nextLine, Asm.assembleLine, hblank]
    rfl
  rw [umkasm, readLines_umkdisAsm h, ha, Option.bind_some, Asm.emitPass, hstart, Asm.assembleLines,
    List.foldl_cons, List.foldl_cons, Asm.nextLine_orgLine rfl h, hempty]
  rfl

/-! ## The round trip -/

/-- **The round trip**: the listing assembles without error, to the bytes it was made from. -/
def RoundTrips (imageSize : ℤ) (org : ℕ) (is : List Instr) : Prop :=
  ∃ image, umkasm imageSize (umkdisAsm org (code is)) = some image ∧
    ∀ k < (code is).length, image (org + k) = (code is).getD k 0

theorem Asm.readable_of_quiet {a : Asm} (hsyms : a.syms = []) (he : a.emitting = true)
    (h : Quiet (a.assembleLines (is.map Instr.line))) : ∀ i ∈ is, i.Readable := by
  induction is generalizing a with
  | nil => exact fun _ hi => absurd hi List.not_mem_nil
  | cons i is ih =>
    rw [List.map_cons, Asm.assembleLines_cons] at h
    obtain ⟨hline, -⟩ := (extends_assembleLines (a.nextLine i.line) _).quiet_left h
    have hsyms' : (a.nextLine i.line).syms = [] := by
      rw [(nextLine_of_names (names_line i)).1, hsyms]
    have he' : (a.nextLine i.line).emitting = true := by
      rw [(extends_nextLine a i.line).emitting, he]
    intro j hj
    rcases List.mem_cons.mp hj with rfl | hj
    · exact Instr.readable_of_quiet hsyms he hline
    · exact ih hsyms' he' h j hj

/-- The bytes that are all FFH are those of RST 7. -/
theorem code_eq_ff_iff : (∀ b ∈ code is, b = 0xFF) ↔ ∀ i ∈ is, i.op = 0xFF := by
  constructor
  · intro h i hi
    exact h i.op (List.mem_flatMap.mpr ⟨i, hi, List.mem_cons_self⟩)
  · intro h b hb
    obtain ⟨i, hi, hb⟩ := List.mem_flatMap.mp hb
    have hlen := i.complete
    rw [h i hi] at hlen
    have hnil : i.operand = [] := List.eq_nil_of_length_eq_zero (Nat.succ.inj hlen)
    rw [Instr.bytes, hnil, List.mem_singleton] at hb
    rw [hb, h i hi]

theorem code_take_append_drop (is : List Instr) (n : ℕ) :
    code is = code (is.take n) ++ code (is.drop n) := by
  rw [code, code, code, ← List.flatMap_append, List.take_append_drop]

/-- **The image of a readable listing**: below A000H the code that is read is at its place, and the
rest of the image is as it was. -/
theorem image_listing {imageSize : ℤ} (hsize : imageSize ≤ 0x10000)
    (hfit : org + (code is).length ≤ imageSize)
    (hread : ∀ i ∈ is.take (MAX_LINES - 2), i.Readable) :
    ∃ image, umkasm imageSize (umkdisAsm org (code is)) = some image ∧
      ∀ k < (code is).length, image (org + k) =
        if org < 0xA000 ∧ k < (code (is.take (MAX_LINES - 2))).length then (code is).getD k 0
        else 0xFF := by
  have horg : org ≤ 0x10000 := by omega
  have hcode := code_take_append_drop is (MAX_LINES - 2)
  have hlen := congrArg List.length hcode
  rw [List.length_append] at hlen
  set read := is.take (MAX_LINES - 2) with hdef
  obtain ⟨hpos, hle, hlow, hhigh⟩ := assembledAt_spec org
  have hpc : (Asm.listed imageSize org).pc = assembledAt org := rfl
  have hread' : (read.flatMap Instr.bytes).length = (code read).length := rfl
  have hwrote := Asm.wrote_assembleLines (a := Asm.listed imageSize org) hread rfl rfl hpos
    (by
      change assembledAt org + (code read).length ≤ imageSize
      omega)
  refine ⟨((Asm.listed imageSize org).assembleLines (read.map Instr.line)).image, ?_,
    fun k hk => ?_⟩
  · rw [umkasm_umkdisAsm imageSize horg is]
    exact if_pos hwrote.errors
  rw [hwrote.image]
  change (if assembledAt org ≤ (org + k : ℕ) ∧
      ((org + k : ℕ) : ℤ) < assembledAt org + (code read).length then
    (code read).getD (((org + k : ℕ) : ℤ) - assembledAt org).toNat 0 else 0xFF) = _
  by_cases hcase : org < 0xA000
  · rw [hlow hcase]
    by_cases hin : k < (code read).length
    · have hindex : (((org + k : ℕ) : ℤ) - org).toNat = k := by omega
      rw [if_pos (by omega), if_pos ⟨hcase, hin⟩, hindex, hcode, List.getD_append _ _ _ _ hin]
    · rw [if_neg (by omega), if_neg fun h => hin h.2]
  · -- the code is at 0, and ends before the origin
    have hzero := hhigh (by omega) (by omega)
    rw [if_neg (by omega), if_neg fun h => hcase h.1]

/-- **The sequences of instructions that survive**: those whose numbers start with a decimal digit,
at an origin that does, and not more of them than are read. What is lost reads as FFH, which only
RST 7 does. The image is an array of 65536 bytes. -/
theorem roundTrips_iff {imageSize : ℤ} (hsize : imageSize ≤ 0x10000)
    (hfit : org + (code is).length ≤ imageSize) :
    RoundTrips imageSize org is ↔ (∀ i ∈ is.take (MAX_LINES - 2), i.Readable) ∧
      (∀ i ∈ is.drop (MAX_LINES - 2), i.op = 0xFF) ∧
      (org < 0xA000 ∨ ∀ i ∈ is, i.op = 0xFF) := by
  have horg : org ≤ 0x10000 := by omega
  have hcode := code_take_append_drop is (MAX_LINES - 2)
  have hlen := congrArg List.length hcode
  rw [List.length_append] at hlen
  constructor
  · rintro ⟨image, hasm, hmatch⟩
    have hread : ∀ i ∈ is.take (MAX_LINES - 2), i.Readable := by
      rw [umkasm_umkdisAsm imageSize horg] at hasm
      have herrors := (Option.ite_none_right_eq_some.mp hasm).1
      refine Asm.readable_of_quiet (a := Asm.listed imageSize org) rfl rfl ⟨?_, herrors⟩
      refine (Asm.assembleLines_of_names fun raw hraw => ?_).2
      obtain ⟨i, -, rfl⟩ := List.mem_map.mp hraw
      exact names_line i
    obtain ⟨image', hasm', himage⟩ := image_listing hsize hfit hread
    rw [hasm] at hasm'
    obtain rfl := Option.some.inj hasm'
    refine ⟨hread, code_eq_ff_iff.mp fun b hb => ?_, ?_⟩
    · obtain ⟨k, hk, rfl⟩ := List.getElem_of_mem hb
      have hnot := himage ((code (is.take (MAX_LINES - 2))).length + k) (by omega)
      rw [if_neg (by omega), hmatch _ (by omega), hcode, List.getD_append_right _ _ _ _ (by omega),
        Nat.add_sub_cancel_left, List.getD_eq_getElem _ _ hk] at hnot
      exact hnot
    · by_cases hlow : org < 0xA000
      · exact Or.inl hlow
      refine Or.inr (code_eq_ff_iff.mp fun b hb => ?_)
      obtain ⟨k, hk, rfl⟩ := List.getElem_of_mem hb
      have hnot := himage k hk
      rw [if_neg fun h => hlow h.1, hmatch k hk, List.getD_eq_getElem _ _ hk] at hnot
      exact hnot
  · rintro ⟨hread, hdrop, hall⟩
    obtain ⟨image, hasm, himage⟩ := image_listing hsize hfit hread
    refine ⟨image, hasm, fun k hk => ?_⟩
    rw [himage k hk]
    by_cases hin : org < 0xA000 ∧ k < (code (is.take (MAX_LINES - 2))).length
    · rw [if_pos hin]
    · rw [if_neg hin]
      rcases hall with hlow | hall
      · have hout : (code (is.take (MAX_LINES - 2))).length ≤ k := by omega
        rw [hcode, List.getD_append_right _ _ _ _ hout, List.getD_eq_getElem _ _ (by omega)]
        exact (code_eq_ff_iff.mpr hdrop _ (List.getElem_mem _)).symm
      · rw [List.getD_eq_getElem _ _ hk]
        exact (code_eq_ff_iff.mpr hall _ (List.getElem_mem _)).symm

/-- Two instructions at 0100H that survive. -/
theorem roundTrips_iff_mvi_jmp : RoundTrips 2048 0x0100
    [⟨0x3E, [0x42], rfl, rfl⟩, ⟨0xC3, [0xFE, 0x01], rfl, rfl⟩] :=
  (roundTrips_iff (by decide) (by decide)).mpr (by decide)

/-- One that does not: `OUT   F8H`, whose operand is taken for a symbol. -/
theorem not_roundTrips_outF8 : ¬ RoundTrips 2048 0 [⟨0xD3, [0xF8], rfl, rfl⟩] := by
  rintro ⟨image, hasm, -⟩
  have hnone : (umkasm 2048 (umkdisAsm 0 (code [⟨0xD3, [0xF8], rfl, rfl⟩]))).isNone = true := by
    decide +kernel
  rw [hasm] at hnone
  cases hnone

end Umk80
