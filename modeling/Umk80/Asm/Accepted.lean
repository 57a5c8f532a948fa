import Umk80.Asm.Encoding

/-!
# Accepted sources

What the statements of a source can be if the assembler writes an image for it. Most statements
report a symbol without a value, but RST, ORG and DS use the value without a look at the flag. And
an instruction reports a register that is missing, but neither an expression that is missing nor
operands that are too many.

## Main definitions

* `Stmt.evaluatedOperands`, `Stmt.uncheckedOperands` — the operands that are evaluated, and those
  of them whose symbols are not checked
* `AllDefined`, `Counted` — every symbol has a value, and every instruction its operands

## Main results

* `Asm.allDefined_iff` — when an image means that every symbol has a value
* `Asm.counted_iff` — when an image means that every instruction has the operands of its format
-/

namespace Umk80

open CString

/-! ## Operands -/

/-- The expressions that a statement evaluates. -/
def Stmt.evaluatedOperands : Stmt → List Ptr
  | .equ _ expr => [expr]
  | .org ops | .ds ops => ops[0]?.toList
  | stmt => stmt.valueOperands

/-- The expressions of which a symbol without a value is not reported. -/
def Stmt.uncheckedOperands : Stmt → List Ptr
  | .org ops | .ds ops => ops[0]?.toList
  | .instr m ops => if m.kind = .rst then ops[0]?.toList else []
  | _ => []

/-- Every symbol in an expression that the source evaluates is in the table. -/
def AllDefined (syms : Symbols) (lines : List (List Char)) : Prop :=
  ∀ raw ∈ lines, ∀ stmt ∈ (parseLine raw).stmt, ∀ op ∈ stmt.evaluatedOperands,
    ∀ name ∈ refsOf op, (syms.find name).isSome

/-- Every symbol in an unchecked expression is defined by the source. -/
def UncheckedDefined (lines : List (List Char)) : Prop :=
  ∀ raw ∈ lines, ∀ stmt ∈ (parseLine raw).stmt, ∀ op ∈ stmt.uncheckedOperands,
    ∀ name ∈ refsOf op, name ∈ definedNames lines

instance (syms : Symbols) (lines : List (List Char)) : Decidable (AllDefined syms lines) :=
  inferInstanceAs (Decidable (∀ raw ∈ lines, ∀ stmt ∈ (parseLine raw).stmt,
    ∀ op ∈ stmt.evaluatedOperands, ∀ name ∈ refsOf op, (syms.find name).isSome))

instance (lines : List (List Char)) : Decidable (UncheckedDefined lines) :=
  inferInstanceAs (Decidable (∀ raw ∈ lines, ∀ stmt ∈ (parseLine raw).stmt,
    ∀ op ∈ stmt.uncheckedOperands, ∀ name ∈ refsOf op, name ∈ definedNames lines))

/-- Every instruction has as many operands as its format. -/
def Counted (lines : List (List Char)) : Prop :=
  ∀ raw ∈ lines, ∀ i ∈ (parseLine raw).instr, i.2.length = i.1.kind.roles.length

/-- No instruction has operands beyond those of its format, and none ends before its
expression. -/
def NotSlack (lines : List (List Char)) : Prop :=
  ∀ raw ∈ lines, ∀ i ∈ (parseLine raw).instr,
    i.2.length ≤ i.1.kind.roles.length ∧ i.1.kind.roles[i.2.length]? ≠ some .value

instance (lines : List (List Char)) : Decidable (Counted lines) :=
  inferInstanceAs (Decidable (∀ raw ∈ lines, ∀ i ∈ (parseLine raw).instr,
    i.2.length = i.1.kind.roles.length))

instance (lines : List (List Char)) : Decidable (NotSlack lines) :=
  inferInstanceAs (Decidable (∀ raw ∈ lines, ∀ i ∈ (parseLine raw).instr,
    i.2.length ≤ i.1.kind.roles.length ∧ i.1.kind.roles[i.2.length]? ≠ some .value))

theorem uncheckedOperands_subset {stmt : Stmt} {op : Ptr} (h : op ∈ stmt.uncheckedOperands) :
    op ∈ stmt.evaluatedOperands := by
  cases stmt with
  | org ops | ds ops => exact h
  | instr m ops =>
    rw [Stmt.uncheckedOperands] at h
    split at h
    · rw [Stmt.evaluatedOperands, Stmt.valueOperands, ‹m.kind = .rst›]
      · exact h
      all_goals
        intros
        contradiction
    · exact absurd h List.not_mem_nil
  | _ => exact absurd h List.not_mem_nil

namespace Asm

variable {imageSize : ℤ} {source : List Char} {a : Asm}

/-- If an image is written, then the emitting pass is quiet. -/
theorem quiet_of_umkasm (hloop : passLoop imageSize (readLines MAX_LINES source) = some a)
    (hfile : (umkasm imageSize source).isSome = true) :
    Quiet (a.emitPass (readLines MAX_LINES source)) ∧ Named (readLines MAX_LINES source) a := by
  have hinit : Named (readLines MAX_LINES source) (Asm.init imageSize) :=
    fun s hs => absurd hs List.not_mem_nil
  obtain ⟨c, hpass, hchanged, hnamed⟩ := passes_spec hloop hinit
  refine ⟨⟨(emitPass_core hpass hchanged).1, ?_⟩, hnamed⟩
  rw [umkasm, hloop, Option.bind_some] at hfile
  by_contra herrors
  rw [if_neg herrors] at hfile
  exact Bool.false_ne_true hfile

/-- **Undefined symbols**: if an image is written, then every symbol in an expression that was
evaluated has a value, exactly if this is so of the operands of RST, ORG and DS. -/
theorem allDefined_iff (imageSize : ℤ) (source : List Char) (a : Asm)
    (hloop : passLoop imageSize (readLines MAX_LINES source) = some a)
    (hfile : (umkasm imageSize source).isSome = true) :
    AllDefined a.syms (readLines MAX_LINES source) ↔
      UncheckedDefined (readLines MAX_LINES source) := by
  obtain ⟨hquiet, hnamed⟩ := quiet_of_umkasm hloop hfile
  constructor
  · intro h raw hraw stmt hstmt op hop name hname
    exact (find_isSome_iff hquiet hnamed name).mp
      (h raw hraw stmt hstmt op (uncheckedOperands_subset hop) name hname)
  · intro h raw hraw stmt hstmt op hop name hname
    obtain ⟨pre, post, hlines⟩ := List.append_of_mem hraw
    obtain ⟨-, -, hequ, hvalue⟩ := holds_of_quiet_emitPass hquiet hlines
    have hunchecked (hop : op ∈ stmt.uncheckedOperands) : (a.syms.find name).isSome = true :=
      (find_isSome_iff hquiet hnamed name).mpr (h raw hraw stmt hstmt op hop name hname)
    have hchecked (hop : op ∈ stmt.valueOperands)
        (hrst : ∀ m ops, stmt = .instr m ops → m.kind ≠ .rst) : (a.syms.find name).isSome = true :=
      hvalue stmt hstmt hrst op hop name hname
    cases stmt with
    | equ n expr =>
      rw [List.mem_singleton.mp hop, ← refs_evaluate ⟨a.syms, (a.emitPass pre).pc⟩] at hname
      exact refs_of_ok (hequ n expr hstmt) name hname
    | org ops | ds ops => exact hunchecked hop
    | instr m ops =>
      by_cases hrst : m.kind = .rst
      · refine hunchecked ?_
        rw [Stmt.uncheckedOperands, if_pos hrst]
        rw [Stmt.evaluatedOperands, Stmt.valueOperands, hrst] at hop
        · exact hop
        all_goals
          intros
          contradiction
      · exact hchecked hop fun m' ops' heq => by cases heq; exact hrst
    | db ops | dw ops => exact hchecked hop fun m' ops' heq => by cases heq
    | finish | unknown mnemonic => exact absurd hop List.not_mem_nil

/-- An origin, a gap and a restart that refer to an EQU. -/
def definedOrigin : List Char := "N EQU 2\n ORG N\n DS N\n RST N\n".toList

theorem allDefined_iff_definedOrigin : ∃ a,
    passLoop 2048 (readLines MAX_LINES definedOrigin) = some a ∧
      AllDefined a.syms (readLines MAX_LINES definedOrigin) := by
  have hfile : (umkasm 2048 definedOrigin).isSome = true := by decide +kernel
  have hloop : (passLoop 2048 (readLines MAX_LINES definedOrigin)).isSome = true := by
    decide +kernel
  obtain ⟨a, ha⟩ := Option.isSome_iff_exists.mp hloop
  exact ⟨a, ha, (allDefined_iff 2048 definedOrigin a ha hfile).mpr (by decide +kernel)⟩

/-- A gap of undefined length is accepted. -/
theorem not_allDefined_dsX : ∃ a, passLoop 2048 (readLines MAX_LINES " DS X\n".toList) = some a ∧
    (umkasm 2048 " DS X\n".toList).isSome = true ∧
      ¬ AllDefined a.syms (readLines MAX_LINES " DS X\n".toList) := by
  have hsyms : (passLoop 2048 (readLines MAX_LINES " DS X\n".toList)).map Asm.syms = some [] := by
    decide +kernel
  obtain ⟨a, ha, hnil⟩ := Option.map_eq_some_iff.mp hsyms
  refine ⟨a, ha, by decide +kernel, ?_⟩
  rw [hnil]
  decide +kernel

/-! ## Numbers of operands -/

/-- A register that has been read is there. -/
theorem Reads.lt_length {stmtPc : ℤ} {m : Mnem} {ops : List Ptr} {rs : List ℕ} {v : ℤ}
    (h : a.Reads stmtPc m ops rs v) {i : ℕ} {role : Role} (hi : m.kind.roles[i]? = some role)
    (hrole : role ≠ .value) : i < ops.length := by
  by_contra hlong
  have hnone : ops[i]? = none := List.getElem?_eq_none (by omega)
  cases role with
  | reg =>
    obtain ⟨r, hr, -⟩ := h.reg i hi
    rw [hnone] at hr
    cases hr
  | pair stack =>
    obtain ⟨r, hr, -⟩ := h.pair stack i hi
    rw [hnone] at hr
    cases hr
  | value => exact hrole rfl

/-- The operands of an instruction in a quiet emitting pass have been read. -/
theorem exists_reads_of_quiet {lines : List (List Char)} (hquiet : Quiet (a.emitPass lines))
    {raw : List Char} (hraw : raw ∈ lines) {m : Mnem} {ops : List Ptr}
    (hstmt : (parseLine raw).stmt = some (.instr m ops)) :
    ∃ b stmtPc rs v, Reads b stmtPc m ops rs v := by
  obtain ⟨pre, post, hlines⟩ := List.append_of_mem hraw
  obtain ⟨hline, -, hemit⟩ := quiet_prefix hquiet hlines
  have hlabel := (a.emitPass pre).extends_defineLabel (parseLine raw)
  have hexec : Quiet (((a.emitPass pre).defineLabel (parseLine raw)).execLine
    (a.emitPass pre).pc (parseLine raw)) := ⟨hline.changed, hline.errors⟩
  have hdefined := ((extends_execLine _ _ _).quiet_left hexec).1
  rw [execLine, hstmt] at hexec
  obtain ⟨rs, v, hreads, -⟩ := exists_reads (by rw [hlabel.emitting, hemit])
    (by rw [hdefined.errors]; exact hexec.errors)
  exact ⟨_, _, rs, v, hreads⟩

/-- **Numbers of operands**: if an image is written, then every instruction has the operands of its
format, exactly if none has more of them and none ends before its expression. -/
theorem counted_iff (imageSize : ℤ) (source : List Char) (a : Asm)
    (hloop : passLoop imageSize (readLines MAX_LINES source) = some a)
    (hfile : (umkasm imageSize source).isSome = true) :
    Counted (readLines MAX_LINES source) ↔ NotSlack (readLines MAX_LINES source) := by
  obtain ⟨hquiet, -⟩ := quiet_of_umkasm hloop hfile
  constructor
  · intro h raw hraw i hi
    have hlen := h raw hraw i hi
    refine ⟨hlen.le, ?_⟩
    rw [hlen, List.getElem?_eq_none (Nat.le_refl _)]
    nofun
  · rintro h raw hraw ⟨m, ops⟩ hi
    obtain ⟨hle, hexpr⟩ := h raw hraw _ hi
    obtain ⟨b, stmtPc, rs, v, hreads⟩ := exists_reads_of_quiet hquiet hraw (stmt_of_instr hi)
    dsimp only at hle hexpr ⊢
    by_contra hne
    have hlt : ops.length < m.kind.roles.length := by omega
    have hrole := List.getElem?_eq_getElem hlt
    have hgiven := hreads.lt_length hrole fun hvalue => hexpr (hvalue ▸ hrole)
    omega

/-- An instruction for each format. -/
def everyFormat : List Char :=
  (" NOP\n INR B\n ADD M\n MOV A,B\n MVI C,1\n LXI SP,2\n INX H\n PUSH PSW\n".toList ++
    " STAX D\n ADI 3\n JMP 4\n RST 5\n OUT 6\n".toList)

theorem counted_iff_everyFormat : Counted (readLines MAX_LINES everyFormat) := by
  have hfile : (umkasm 2048 everyFormat).isSome = true := by decide +kernel
  have hloop : (passLoop 2048 (readLines MAX_LINES everyFormat)).isSome = true := by
    decide +kernel
  obtain ⟨a, ha⟩ := Option.isSome_iff_exists.mp hloop
  exact (counted_iff 2048 everyFormat a ha hfile).mpr (by decide +kernel)

/-- A jump without a target is accepted, and so is an operand of an instruction without any. -/
theorem not_counted_jmp : (umkasm 2048 " JMP\n".toList).isSome = true ∧
    ¬ Counted (readLines MAX_LINES " JMP\n".toList) ∧
    (umkasm 2048 " NOP 1\n".toList).isSome = true ∧
    ¬ Counted (readLines MAX_LINES " NOP 1\n".toList) := by
  decide +kernel

end Asm

end Umk80
