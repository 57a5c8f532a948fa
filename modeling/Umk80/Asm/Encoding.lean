import Umk80.Asm.RoundTrip

/-!
# Instructions and what the disassembler makes of them

An instruction that is assembled without a message consists of its opcode, with the numbers of its
registers in it, and of the low bytes of its value. The disassembler decodes independently of the
assembler's table. For every mnemonic and all registers it finds the mnemonic and the registers
again, except in one case: `MOV M,M` has the opcode of `HLT`. That opcode apart, a statement comes
back if it has the operands of its format, since the assembler looks neither for a missing
expression nor for operands that are too many.

## Main definitions

* `Role`, `Kind.roles` — the operands of a format
* `Mnem.code` — the opcode with the registers in it
* `Asm.bytesBetween` — the bytes that a statement has emitted
* `Disassembles` — the text for these bytes is that of the statement

## Main results

* `code_spec` — the text for an opcode names its mnemonic and its registers
* `Asm.exists_reads` — what an instruction emits if nothing is reported
* `Asm.disassembles_iff` — which instructions come back
-/

namespace Umk80

open CString

/-! ## Formats -/

/-- What an operand is read as. -/
inductive Role
  | reg
  | pair (stack : Bool)
  | value
deriving DecidableEq

/-- The operands of a format. -/
def Kind.roles : Kind → List Role
  | .none => []
  | .r8d | .r8s => [.reg]
  | .mov => [.reg, .reg]
  | .mvi => [.reg, .value]
  | .lxi => [.pair false, .value]
  | .rp | .ax => [.pair false]
  | .stk => [.pair true]
  | .imm8 | .addr | .rst | .port => [.value]

/-- The number behind the opcode. -/
def Kind.arg : Kind → Arg
  | .mvi | .imm8 | .port => .imm8
  | .lxi | .addr => .imm16
  | _ => .none

/-- The numbers that an opcode of the format can hold. -/
def Kind.codes : Kind → List (List ℕ)
  | .none | .imm8 | .addr | .port => [[]]
  | .r8d | .r8s | .mvi | .rst => (List.range 8).map ([·])
  | .mov => (List.range 8).flatMap fun r => (List.range 8).map ([r, ·])
  | .lxi | .rp | .stk => (List.range 4).map ([·])
  | .ax => (List.range 2).map ([·])

/-- The opcode with these numbers in it. -/
def Mnem.code (m : Mnem) (rs : List ℕ) : U8 :=
  let r := rs.getD 0 0
  match m.kind with
  | .none | .imm8 | .addr | .port => m.base
  | .r8d | .mvi => Asm.opcode m r 3
  | .r8s => Asm.opcode m r 0
  | .mov => 0x40 + BitVec.ofNat 8 (r <<< 3) + BitVec.ofNat 8 (rs.getD 1 0)
  | .lxi => 0x01 + BitVec.ofNat 8 (r <<< 4)
  | .rp | .stk | .ax => Asm.opcode m r 4
  | .rst => 0xC7 + BitVec.ofInt 8 (r % 8 * 8)

/-- The low bytes of a value. -/
def Arg.bytes (arg : Arg) (v : ℤ) : List U8 :=
  match arg with
  | .none => []
  | .imm8 => [BitVec.ofInt 8 v]
  | .imm16 => [BitVec.ofInt 8 v, BitVec.ofInt 8 (v >>> (8 : ℕ))]

/-! ## The text for an opcode -/

/-- The parts of a text that starts with a mnemonic. -/
def Mnem.spelling (m : Mnem) (f : Format) : Spelling :=
  let rest := f.text.drop m.name.length
  let gap := (rest.takeWhile (· == ' ')).length
  ⟨m, gap, (commaPieces false (rest.drop gap)).filter (· ≠ []), f.arg⟩

/-- The number that an operand of a text stands for. -/
def Role.code (role : Role) (t : List Char) : Option ℕ :=
  match role with
  | .reg => reg8 (some (t ++ [NUL]))
  | .pair stack => regpair stack (some (t ++ [NUL]))
  | .value => some (number t).toNat

/-- The text for an opcode is the mnemonic and the numbers that are in it. -/
def Mnem.named (m : Mnem) (rs : List ℕ) : Bool :=
  (disasmFormat (m.code rs)).any fun f =>
    let s := m.spelling f
    s.spells f && s.arg == m.kind.arg && s.regs.length == rs.length &&
      (m.kind.roles.zip s.regs).map (fun x => x.1.code x.2) == rs.map some &&
      I8080.opcodeLength (m.code rs) == m.kind.size

/-- `MOV M,M`. -/
def Mnem.isMovMM (m : Mnem) (rs : List ℕ) : Bool := m.kind == .mov && rs == [6, 6]

theorem named_of_mem : (MNEM.all fun m => m.kind.codes.all fun rs =>
    m.isMovMM rs || m.named rs) = true := by
  decide +kernel

/-- **The text for an opcode** names its mnemonic and its registers, unless it is `MOV M,M`. -/
theorem code_spec {m : Mnem} (hm : m ∈ MNEM) {rs : List ℕ} (hrs : rs ∈ m.kind.codes)
    (hmov : m.isMovMM rs = false) : ∃ (s : Spelling) (f : Format),
      disasmFormat (m.code rs) = some f ∧ s.Fits f ∧ s.mnem = m ∧ s.arg = m.kind.arg ∧
      s.regs.length = rs.length ∧ I8080.opcodeLength (m.code rs) = m.kind.size ∧
      ∀ (i : ℕ) (role : Role) (t : List Char), m.kind.roles[i]? = some role →
        s.regs[i]? = some t → role.code t = rs[i]? := by
  have hnamed := List.all_eq_true.mp (List.all_eq_true.mp named_of_mem m hm) rs hrs
  rw [hmov, Bool.false_or, Mnem.named] at hnamed
  obtain ⟨f, hf, hcheck⟩ := (Option.any_eq_true _ _).mp hnamed
  simp only [Bool.and_eq_true, beq_iff_eq] at hcheck
  obtain ⟨⟨⟨⟨hspells, harg⟩, hlen⟩, hzip⟩, hsize⟩ := hcheck
  refine ⟨m.spelling f, f, hf, Spelling.fits_of_spells hspells, rfl, harg, hlen, hsize, ?_⟩
  intro i role t hrole ht
  have hi := congrArg (fun l : List (Option ℕ) => l[i]?) hzip
  have hpair : (m.kind.roles.zip (m.spelling f).regs)[i]? = some (role, t) :=
    List.getElem?_zip_eq_some.mpr ⟨hrole, ht⟩
  simp only [List.getElem?_map, hpair, Option.map_some] at hi
  cases hr : rs[i]? with
  | none =>
    rw [hr] at hi
    cases hi
  | some r =>
    rw [hr] at hi
    exact Option.some.inj hi

/-- The numbers of an opcode are those of its first operands. -/
theorem length_roles (k : Kind) :
    ∀ rs ∈ k.codes, k.roles.length = rs.length + if k.arg = .none then 0 else 1 := by
  cases k
  all_goals decide

/-- A number behind the opcode is the last operand. -/
theorem value_role (k : Kind) (harg : k.arg ≠ .none) :
    ∀ rs ∈ k.codes, k.roles[rs.length]? = some Role.value := by
  cases k
  all_goals first
    | exact absurd rfl harg
    | decide

/-- A value is the last operand. -/
theorem last_of_value {k : Kind} {i : ℕ} (hi : k.roles[i]? = some .value) :
    i + 1 = k.roles.length := by
  rcases i with _ | _ | i
  · cases k with
    | imm8 | addr | rst | port => rfl
    | _ => cases hi
  · cases k with
    | mvi | lxi => rfl
    | _ => cases hi
  · cases k with
    | _ => cases hi

/-- A value comes behind the opcode, except in an RST. -/
theorem index_of_value {k : Kind} {rs : List ℕ} (hrs : rs ∈ k.codes) {i : ℕ}
    (hi : k.roles[i]? = some .value) : i = rs.length ∧ k.arg ≠ .none ∨ i = 0 ∧ k = .rst := by
  have hlen := length_roles k rs hrs
  have hlast := last_of_value hi
  cases k with
  | rst => exact Or.inr ⟨Nat.succ.inj hlast, rfl⟩
  | mvi | lxi | imm8 | addr | port =>
    refine Or.inl ⟨?_, by decide⟩
    rw [hlen] at hlast
    exact Nat.succ.inj hlast
  | none | r8d | r8s | rp | stk | ax | mov =>
    exact absurd (List.mem_of_getElem? hi) (by decide)

theorem reg8_lt {p : Option Ptr} {r : ℕ} (h : reg8 p = some r) : r < 8 := by
  cases p with
  | none => cases h
  | some s =>
    unfold reg8 at h
    dsimp only at h
    split at h
    · cases h
    · split at h
      all_goals first
        | cases h; omega
        | cases h

theorem regpair_lt {p : Option Ptr} {stack : Bool} {r : ℕ} (h : regpair stack p = some r) :
    r < 4 := by
  cases p with
  | none => cases h
  | some s =>
    unfold regpair at h
    dsimp only at h
    repeat' split at h
    all_goals first
      | cases h; omega
      | cases h

/-! ## What is emitted if nothing is reported -/

namespace Asm

variable {a b c : Asm}

/-- If nothing has been reported in the end, then nothing on the way. -/
theorem Extends.silent (h : Extends a b) (h' : Extends b c) (hc : c.errors = a.errors) :
    b.errors = a.errors := by
  have hle := h'.errors.length_le
  rw [hc] at hle
  exact (h.errors.eq_of_length_le hle).symm

theorem report_errors_ne (he : a.emitting = true) (text : List Char) :
    (a.report text).errors ≠ a.errors := by
  rw [report, if_pos he]
  simp [err]

theorem register_of_silent (he : a.emitting = true) {r : Option ℕ} {message : List Char}
    (h : (a.register r message).2.errors = a.errors) :
    ∃ k, r = some k ∧ a.register r message = (k, a) := by
  cases r with
  | none => exact absurd h (report_errors_ne he _)
  | some k => exact ⟨k, rfl, rfl⟩

theorem value_of_silent (he : a.emitting = true) {stmtPc : ℤ} {ops : List Ptr} {i : ℕ} {m : Mnem}
    (h : (a.value stmtPc ops i m).2.errors = a.errors) :
    a.value stmtPc ops i m = ((a.operand stmtPc ops i).1, a) := by
  rw [value] at h ⊢
  split at h
  · simp [*]
  · exact absurd h (report_errors_ne he _)

/-- What the operands of an instruction are read as: the numbers in its opcode, and its value. -/
structure Reads (a : Asm) (stmtPc : ℤ) (m : Mnem) (ops : List Ptr) (rs : List ℕ) (v : ℤ) :
    Prop where
  codes : rs ∈ m.kind.codes
  reg : ∀ i : ℕ, m.kind.roles[i]? = some Role.reg → ∃ r, reg8 ops[i]? = some r ∧ rs[i]? = some r
  pair : ∀ (stack : Bool) (i : ℕ), m.kind.roles[i]? = some (Role.pair stack) →
    ∃ r, regpair stack ops[i]? = some r ∧ rs[i]? = some r
  value : ∀ i : ℕ, m.kind.roles[i]? = some Role.value → (a.operand stmtPc ops i).1 = v
  rst : m.kind = .rst → rs = [(v % 8).toNat]

/-- What an operand is read as: a number in the opcode, or the value. -/
def ReadAs (a : Asm) (stmtPc : ℤ) (ops : List Ptr) (rs : List ℕ) (v : ℤ) (role : Role) (i : ℕ) :
    Prop :=
  match role with
  | .reg => ∃ r, reg8 ops[i]? = some r ∧ rs[i]? = some r
  | .pair stack => ∃ r, regpair stack ops[i]? = some r ∧ rs[i]? = some r
  | .value => (a.operand stmtPc ops i).1 = v

/-- The operands of an instruction are read one by one. -/
theorem reads_of_kind {stmtPc : ℤ} {m : Mnem} {ops : List Ptr} {rs : List ℕ} {v : ℤ} {k : Kind}
    (hkind : m.kind = k) (hcodes : rs ∈ k.codes)
    (hroles : ∀ x ∈ k.roles.zipIdx, a.ReadAs stmtPc ops rs v x.1 x.2)
    (hrst : k = .rst → rs = [(v % 8).toNat]) : Reads a stmtPc m ops rs v := by
  subst hkind
  have hrole (i : ℕ) (role : Role) (hi : m.kind.roles[i]? = some role) :
      a.ReadAs stmtPc ops rs v role i :=
    hroles (role, i) (List.mem_zipIdx_iff_getElem?.mpr hi)
  exact ⟨hcodes, fun i => hrole i .reg, fun stack i => hrole i (.pair stack),
    fun i => hrole i .value, hrst⟩

/-- **What an instruction emits** if nothing is reported: its opcode, and the bytes of its
value. -/
theorem exists_reads (he : a.emitting = true) {stmtPc : ℤ} {m : Mnem} {ops : List Ptr}
    (h : (a.execInstr stmtPc m ops).errors = a.errors) : ∃ rs v, Reads a stmtPc m ops rs v ∧
      a.execInstr stmtPc m ops = a.emitBytes (m.code rs :: m.kind.arg.bytes v) := by
  rw [execInstr] at h ⊢
  dsimp only at h ⊢
  generalize "invalid register in ".toList ++ m.name.toList = badRegister at h ⊢
  generalize "invalid register pair in ".toList ++ m.name.toList = badPair at h ⊢
  generalize m.name.toList ++ " only accepts B or D".toList = onlyBD at h ⊢
  have hreg (r : Option ℕ) (message : List Char) := (a.emits_register r message).extends
  have hbyte (a : Asm) (v : U8) := (a.emits_emitByte v).extends
  have hword (a : Asm) (v : ℤ) := (a.emits_emitWord v).extends
  cases hkind : m.kind with
  | none =>
    refine ⟨[], 0, reads_of_kind hkind ?_ ?_ nofun, ?_⟩
    · simp [Kind.codes]
    · simp [Kind.roles]
    · simp [hkind, Mnem.code, Kind.arg, Arg.bytes, emitBytes]
  | r8d | r8s =>
    rw [hkind] at h
    obtain ⟨r, hr, heq⟩ := register_of_silent he ((hreg _ _).silent (hbyte _ _) h)
    refine ⟨[r], 0, reads_of_kind hkind ?_ ?_ nofun, ?_⟩
    · simp [Kind.codes, reg8_lt hr]
    · simp [Kind.roles, ReadAs, hr]
    · simp [heq, hkind, Mnem.code, Kind.arg, Arg.bytes, emitBytes]
  | mov =>
    rw [hkind] at h
    dsimp only at h
    cases hr : reg8 ops[0]? with
    | none =>
      rw [hr] at h
      exact absurd ((a.emits_report _).extends.silent (hbyte _ _) h) (report_errors_ne he _)
    | some r =>
      cases hr2 : reg8 ops[1]? with
      | none =>
        rw [hr, hr2] at h
        exact absurd ((a.emits_report _).extends.silent (hbyte _ _) h) (report_errors_ne he _)
      | some r2 =>
        refine ⟨[r, r2], 0, reads_of_kind hkind ?_ ?_ nofun, ?_⟩
        · simp [Kind.codes, reg8_lt hr, reg8_lt hr2]
        · simp [Kind.roles, ReadAs, hr, hr2]
        · simp [hkind, Mnem.code, Kind.arg, Arg.bytes, emitBytes]
  | mvi =>
    rw [hkind] at h
    have hsilent := ((hreg _ _).trans (emits_value _ _ _ _ _).extends).silent
      ((hbyte _ _).trans (hbyte _ _)) h
    obtain ⟨r, hr, heq⟩ := register_of_silent he
      ((hreg _ _).silent (emits_value _ _ _ _ _).extends hsilent)
    rw [heq] at hsilent
    have hval := value_of_silent he hsilent
    refine ⟨[r], (a.operand stmtPc ops 1).1, reads_of_kind hkind ?_ ?_ nofun, ?_⟩
    · simp [Kind.codes, reg8_lt hr]
    · simp [Kind.roles, ReadAs, hr]
    · simp [heq, hval, hkind, Mnem.code, Kind.arg, Arg.bytes, emitBytes]
  | lxi =>
    rw [hkind] at h
    have hsilent := ((hreg _ _).trans (emits_value _ _ _ _ _).extends).silent
      ((hbyte _ _).trans (hword _ _)) h
    obtain ⟨r, hr, heq⟩ := register_of_silent he
      ((hreg _ _).silent (emits_value _ _ _ _ _).extends hsilent)
    rw [heq] at hsilent
    have hval := value_of_silent he hsilent
    refine ⟨[r], (a.operand stmtPc ops 1).1, reads_of_kind hkind ?_ ?_ nofun, ?_⟩
    · simp [Kind.codes, regpair_lt hr]
    · simp [Kind.roles, ReadAs, hr]
    · simp [heq, hval, hkind, Mnem.code, Kind.arg, Arg.bytes, emitBytes, emitWord]
  | rp | stk =>
    rw [hkind] at h
    obtain ⟨r, hr, heq⟩ := register_of_silent he ((hreg _ _).silent (hbyte _ _) h)
    refine ⟨[r], 0, reads_of_kind hkind ?_ ?_ nofun, ?_⟩
    · simp [Kind.codes, regpair_lt hr]
    · simp [Kind.roles, ReadAs, hr]
    · simp [heq, hkind, Mnem.code, Kind.arg, Arg.bytes, emitBytes]
  | ax =>
    rw [hkind] at h
    obtain ⟨r, hr, heq⟩ := register_of_silent he ((hreg _ _).silent (hbyte _ _) h)
    obtain ⟨hr, hle⟩ := Option.filter_eq_some_iff.mp hr
    refine ⟨[r], 0, reads_of_kind hkind ?_ ?_ nofun, ?_⟩
    · simpa [Kind.codes, Nat.lt_succ_iff] using hle
    · simp [Kind.roles, ReadAs, hr]
    · simp [heq, hkind, Mnem.code, Kind.arg, Arg.bytes, emitBytes]
  | imm8 | port =>
    rw [hkind] at h
    have hval := value_of_silent he ((emits_value _ _ _ _ _).extends.silent
      ((hbyte _ _).trans (hbyte _ _)) h)
    refine ⟨[], (a.operand stmtPc ops 0).1, reads_of_kind hkind ?_ ?_ nofun, ?_⟩
    · simp [Kind.codes]
    · simp [Kind.roles, ReadAs]
    · simp [hval, hkind, Mnem.code, Kind.arg, Arg.bytes, emitBytes]
  | addr =>
    rw [hkind] at h
    have hval := value_of_silent he ((emits_value _ _ _ _ _).extends.silent
      ((hbyte _ _).trans (hword _ _)) h)
    refine ⟨[], (a.operand stmtPc ops 0).1, reads_of_kind hkind ?_ ?_ nofun, ?_⟩
    · simp [Kind.codes]
    · simp [Kind.roles, ReadAs]
    · simp [hval, hkind, Mnem.code, Kind.arg, Arg.bytes, emitBytes, emitWord]
  | rst =>
    refine ⟨[((a.operand stmtPc ops 0).1 % 8).toNat], (a.operand stmtPc ops 0).1,
      reads_of_kind hkind ?_ ?_ fun _ => rfl, ?_⟩
    · simp [Kind.codes]
      omega
    · simp [Kind.roles, ReadAs]
    · have hmod : (((a.operand stmtPc ops 0).1 % 8).toNat : ℤ) % 8 =
          (a.operand stmtPc ops 0).1 % 8 := by omega
      simp only [Mnem.code, hkind, Kind.arg, Arg.bytes, List.getD_cons_zero, hmod]
      rfl

/-- An emission without a message lies inside the image. -/
theorem wrote_of_silent (he : a.emitting = true) {bs : List U8} (hne : bs ≠ [])
    (h : (a.emitBytes bs).errors = a.errors) : 0 ≤ a.pc ∧ a.Wrote bs (a.emitBytes bs) := by
  have hfit : 0 ≤ a.pc ∧ a.pc + bs.length ≤ a.imageSize := by
    induction bs generalizing a with
    | nil => exact absurd rfl hne
    | cons v bs ih =>
      have hbyte := a.emits_emitByte v
      have hfirst := hbyte.extends.silent (emits_emitBytes _ bs).extends h
      have hin : ¬ (a.pc < 0 ∨ a.imageSize ≤ a.pc) := by
        intro hout
        rw [emitByte, emit, if_pos hout] at hfirst
        exact report_errors_ne he _ hfirst
      rw [List.length_cons]
      by_cases hbs : bs = []
      · simp only [hbs, List.length_nil]
        omega
      · have hrest := ih (a := a.emitByte v) (by rw [hbyte.emitting, he]) hbs
          (by rw [hfirst]; exact h)
        rw [hbyte.pc, hbyte.imageSize] at hrest
        omega
  exact ⟨hfit.1, wrote_emitBytes he hfit.1 hfit.2⟩

/-- The bytes that are emitted from `a` to `b`. -/
def bytesBetween (a b : Asm) : List U8 :=
  (List.range (b.pc - a.pc).toNat).map fun k => b.image (a.pc.toNat + k)

theorem Wrote.bytesBetween {bs : List U8} (h : a.Wrote bs b) (h0 : 0 ≤ a.pc) :
    a.bytesBetween b = bs := by
  have hlen : (b.pc - a.pc).toNat = bs.length := by
    rw [h.pc]
    omega
  rw [Asm.bytesBetween, hlen]
  refine List.ext_getElem (by simp) fun k hk hk' => ?_
  rw [List.length_map, List.length_range] at hk
  rw [List.getElem_map, List.getElem_range, h.image, if_pos (by omega)]
  have hindex : (((a.pc.toNat + k : ℕ) : ℤ) - a.pc).toNat = k := by omega
  rw [hindex, List.getD_eq_getElem _ _ hk']

end Asm

/-! ## What comes back -/

/-- The mnemonic of a text. -/
def mnemonicOf (text : List Char) : List Char := text.takeWhile (· != ' ')

/-- The operands of a text. -/
def operandsOf (text : List Char) : List (List Char) :=
  (commaPieces false ((text.dropWhile (· != ' ')).dropWhile (· == ' '))).filter (· ≠ [])

/-- The operand of a statement and that of a text are the same register, register pair or
number. -/
def Role.Same (env : Env) (role : Role) (op : Ptr) (t : List Char) : Prop :=
  match role with
  | .reg => ∃ r, reg8 (some op) = some r ∧ reg8 (some (t ++ [NUL])) = some r
  | .pair stack => ∃ r, regpair stack (some op) = some r ∧
      regpair stack (some (t ++ [NUL])) = some r
  | .value => (evaluate env op).1 = number t

/-- What `umk_disasm` makes of the bytes of an instruction. -/
def disassembly (bytes : List U8) : List Char × ℕ :=
  umkDisasm (fun k => bytes.getD k 0) 0 bytes.length

/-- **The bytes of a statement are disassembled to the statement.** -/
structure Disassembles (env : Env) (m : Mnem) (ops : List Ptr) (bytes : List U8) : Prop where
  length : (disassembly bytes).2 = bytes.length
  mnemonic : mnemonicOf (disassembly bytes).1 = m.name.toList
  count : (operandsOf (disassembly bytes).1).length = ops.length
  same : ∀ (i : ℕ) (role : Role) (op : Ptr) (t : List Char), m.kind.roles[i]? = some role →
    ops[i]? = some op → (operandsOf (disassembly bytes).1)[i]? = some t → role.Same env op t

/-- The text of a spelling is taken apart into its mnemonic and its operands. -/
theorem parts_of_fits {s : Spelling} {f : Format} (h : s.Fits f) (num : List Char)
    (hnone : s.arg = .none → num = []) (hnum : s.arg ≠ .none → Piece num ∧ num.length ≤ 5) :
    mnemonicOf (f.text ++ num) = s.mnem.name.toList ∧
      operandsOf (f.text ++ num) = s.operands num := by
  have hjoined := h.joined num hnone hnum
  have hname : ∀ c ∈ s.mnem.name.toList, (c != ' ') = true := by
    intro c hc
    refine bne_iff_ne.mpr ?_
    rintro rfl
    exact absurd (h.name.alnum ' ' hc) (by decide)
  obtain ⟨text, htext⟩ : ∃ text, text = s.prefixText ++ num := ⟨_, rfl⟩
  obtain ⟨gap, hgap⟩ : ∃ gap, gap = List.replicate s.gap ' ' := ⟨_, rfl⟩
  have hsplit : f.text ++ num = s.mnem.name.toList ++ (gap ++ text) := by
    rw [h.text, htext, hgap, List.append_assoc, List.append_assoc]
  rw [← htext] at hjoined
  -- the text goes on with a blank, or not at all
  have hstop : gap ++ text = [] ∨ ∃ rest, gap ++ text = ' ' :: rest := by
    cases hg : s.gap with
    | zero =>
      obtain ⟨hregs, harg⟩ := h.gap_iff.mp hg
      refine Or.inl ?_
      rw [hgap, hg, hjoined.nil_iff.mpr (by simp [Spelling.operands, hregs, harg])]
      rfl
    | succ k => exact Or.inr ⟨_, by rw [hgap, hg, List.replicate_succ, List.cons_append]⟩
  have hblank : (gap ++ text).dropWhile (· == ' ') = text := by
    have hall : ∀ c ∈ gap, (c == ' ') = true := by
      intro c hc
      rw [hgap] at hc
      simp [List.eq_of_mem_replicate hc]
    rw [List.dropWhile_append_of_pos hall]
    refine List.dropWhile_eq_self_iff.mpr fun hpos => ?_
    have hplain := hjoined.plain _ (List.getElem_mem hpos)
    intro hspace
    rw [eq_of_beq hspace] at hplain
    exact absurd hplain (by decide)
  rw [mnemonicOf, operandsOf, hsplit, List.takeWhile_append_of_pos hname,
    List.dropWhile_append_of_pos hname]
  have hpieces : (commaPieces false text).filter (· ≠ []) = s.operands num := by
    by_cases hops : s.operands num = []
    · rw [hjoined.nil_iff.mpr hops, hops]
      rfl
    · rw [hjoined.pieces hops, List.filter_eq_self]
      intro r hr
      exact decide_eq_true (hjoined.piece r hr).ne
  rcases hstop with hnil | ⟨rest, hrest⟩
  · rw [hnil] at hblank ⊢
    rw [← hpieces, ← hblank]
    exact ⟨by simp, rfl⟩
  · rw [hrest] at hblank ⊢
    refine ⟨by simp, ?_⟩
    rw [List.dropWhile_cons_of_neg (by decide), hblank, hpieces]

/-- The largest value of a format. -/
def Kind.limit (k : Kind) : ℤ :=
  if k = .rst then 7
  else if k.arg = .imm16 then 65535
  else 255

theorem Kind.limit_nonneg (k : Kind) : 0 ≤ k.limit := by
  cases k
  all_goals decide

/-- The expression of a statement has a value, and it fits. -/
def ValueInRange (env : Env) (m : Mnem) (ops : List Ptr) : Prop :=
  ∀ op ∈ (Stmt.instr m ops).valueOperands, (evaluate env op).2.ok = true ∧
    0 ≤ (evaluate env op).1 ∧ (evaluate env op).1 ≤ m.kind.limit

instance (env : Env) (m : Mnem) (ops : List Ptr) : Decidable (ValueInRange env m ops) :=
  inferInstanceAs (Decidable (∀ op ∈ (Stmt.instr m ops).valueOperands,
    (evaluate env op).2.ok = true ∧ 0 ≤ (evaluate env op).1 ∧ (evaluate env op).1 ≤ m.kind.limit))

theorem number_nonneg (buf : List Char) : 0 ≤ number buf := by
  have hstrtol (base : ℕ) (s : List Char) : 0 ≤ strtol base s := by
    rw [strtol]
    omega
  unfold number
  dsimp only
  repeat' split
  all_goals exact hstrtol _ _

/-- The number that is printed for a value. -/
def Arg.text (arg : Arg) (v : ℤ) : List Char :=
  arg.print (BitVec.ofInt 8 v) (BitVec.ofInt 16 v)

/-- A hexadecimal number that has all its digits. -/
theorem number_hex {w n : ℕ} (hn : n < 16 ^ (w + 1)) (hw : w ≤ 3) :
    Piece (hex (w + 1) n ++ ['H']) ∧ (hex (w + 1) n ++ ['H']).length ≤ 5 ∧
      number (hex (w + 1) n ++ ['H']) = n := by
  rw [hex_eq_hexLow (Nat.succ_pos w) hn]
  refine ⟨(evaluate_hexLow hn (by omega)).1, ?_, number_hexLow hn (by omega)⟩
  rw [List.length_append, length_hexLow, List.length_singleton]
  omega

theorem number_text {k : Kind} {v : ℤ} (h0 : 0 ≤ v) (hv : v ≤ k.limit) (harg : k.arg ≠ .none) :
    Piece (k.arg.text v) ∧ (k.arg.text v).length ≤ 5 ∧ number (k.arg.text v) = v := by
  have hrst : k ≠ .rst := by
    rintro rfl
    exact harg rfl
  obtain ⟨n, rfl⟩ := Int.eq_ofNat_of_zero_le h0
  have htoNat {w : ℕ} (hn : n < 2 ^ w) : (BitVec.ofInt w (n : ℤ)).toNat = n := by
    rw [BitVec.ofInt_natCast, BitVec.toNat_ofNat]
    exact Nat.mod_eq_of_lt hn
  rw [Kind.limit, if_neg hrst] at hv
  cases hk : k.arg with
  | none => exact absurd hk harg
  | imm8 =>
    rw [hk, if_neg (by decide)] at hv
    have hn : n < 2 ^ 8 := by omega
    rw [Arg.text, Arg.print, htoNat hn]
    exact number_hex (w := 1) hn (by decide)
  | imm16 =>
    rw [hk, if_pos rfl] at hv
    have hn : n < 2 ^ 16 := by omega
    rw [Arg.text, Arg.print, htoNat hn]
    exact number_hex (w := 3) hn (by decide)

/-- The bytes of an instruction are disassembled to the text for its opcode and its value. -/
theorem disassembly_eq {op : U8} {f : Format} (hf : disasmFormat op = some f) (v : ℤ) :
    disassembly (op :: f.arg.bytes v) = (f.text ++ f.arg.text v, I8080.opcodeLength op) := by
  have hword : word (BitVec.ofInt 8 (v >>> (8 : ℕ))) (BitVec.ofInt 8 v) = BitVec.ofInt 16 v := by
    rw [← hiByte_ofInt, ← loByte_ofInt, word_hiByte_loByte]
  rw [disassembly, umkDisasm, List.getD_cons_zero, hf]
  dsimp only
  rw [Format.print, Arg.text]
  cases harg : f.arg with
  | none => rfl
  | imm8 => rfl
  | imm16 =>
    rw [Arg.print, Arg.print, ← hword]
    rfl

/-- The instruction of a line, if its statement is one. -/
def Line.instr (line : Line) : Option (Mnem × List Ptr) :=
  match line.stmt with
  | some (.instr m ops) => some (m, ops)
  | _ => none

theorem stmt_of_instr {line : Line} {m : Mnem} {ops : List Ptr} (h : line.instr = some (m, ops)) :
    line.stmt = some (.instr m ops) := by
  rw [Line.instr] at h
  split at h
  · cases h
    assumption
  · cases h

theorem mem_of_parseStatement {s : Ptr} {m : Mnem} {ops : List Ptr}
    (h : parseStatement s = .instr m ops) : m ∈ MNEM := by
  unfold parseStatement statementOf at h
  dsimp only at h
  repeat' split at h
  all_goals first
    | cases h; exact List.mem_of_find?_eq_some ‹_›
    | cases h

/-- An instruction statement has an entry of the table. -/
theorem mem_of_parseLine {raw : List Char} {m : Mnem} {ops : List Ptr}
    (h : (parseLine raw).stmt = some (.instr m ops)) : m ∈ MNEM := by
  have hrest (s : Ptr) (hs : parseRest s = some (.instr m ops)) : m ∈ MNEM := by
    unfold parseRest at hs
    split at hs
    · cases hs
    · exact mem_of_parseStatement (Option.some.inj hs)
  unfold parseLine at h
  dsimp only at h
  repeat' split at h
  all_goals first
    | exact hrest _ h
    | cases h

namespace Asm

variable {a : Asm}

/-- The value of an instruction is in its range, also where there is no operand for it. -/
theorem Reads.range {stmtPc : ℤ} {m : Mnem} {ops : List Ptr} {rs : List ℕ} {v : ℤ}
    (h : a.Reads stmtPc m ops rs v) (hrange : ValueInRange ⟨a.syms, stmtPc⟩ m ops) {i : ℕ}
    (hi : m.kind.roles[i]? = some Role.value) : 0 ≤ v ∧ v ≤ m.kind.limit := by
  rw [← h.value i hi, operand]
  cases hop : ops[i]? with
  | none =>
    exact ⟨Int.le_refl 0, m.kind.limit_nonneg⟩
  | some op =>
    refine (hrange op ?_).2
    rw [Stmt.valueOperands]
    have hlast := last_of_value hi
    cases hkind : m.kind with
    | mvi | lxi =>
      rw [hkind] at hlast
      obtain rfl : i = 1 := Nat.succ.inj hlast
      exact Option.mem_toList.mpr hop
    | imm8 | addr | rst | port =>
      rw [hkind] at hlast
      obtain rfl : i = 0 := Nat.succ.inj hlast
      exact Option.mem_toList.mpr hop
    | none | r8d | r8s | rp | stk | ax | mov =>
      rw [hkind] at hi
      exact absurd (List.mem_of_getElem? hi) (by decide)

/-- Which instruction is `MOV M,M`, by its operands. -/
theorem Reads.isMovMM_iff {stmtPc : ℤ} {m : Mnem} {ops : List Ptr} {rs : List ℕ} {v : ℤ}
    (h : a.Reads stmtPc m ops rs v) : m.isMovMM rs = true ↔
      m.kind = .mov ∧ reg8 ops[0]? = some 6 ∧ reg8 ops[1]? = some 6 := by
  have hiff : m.isMovMM rs = true ↔ m.kind = .mov ∧ rs = [6, 6] := by simp [Mnem.isMovMM]
  rw [hiff]
  refine and_congr_right fun hkind => ?_
  obtain ⟨r, hr, hrs⟩ := h.reg 0 (by simp [hkind, Kind.roles])
  obtain ⟨r2, hr2, hrs2⟩ := h.reg 1 (by simp [hkind, Kind.roles])
  have hlen := length_roles m.kind rs h.codes
  rw [hkind] at hlen
  match rs, hlen with
  | [x, y], _ =>
    cases hrs
    cases hrs2
    simp [hr, hr2]

/-- What the disassembler makes of an instruction whose operands have been read. -/
theorem disassembles_of_reads {stmtPc : ℤ} {m : Mnem} (hm : m ∈ MNEM) {ops : List Ptr}
    {rs : List ℕ} {v : ℤ} (h : a.Reads stmtPc m ops rs v)
    (hrange : ValueInRange ⟨a.syms, stmtPc⟩ m ops) :
    Disassembles ⟨a.syms, stmtPc⟩ m ops (m.code rs :: m.kind.arg.bytes v) ↔
      ops.length = m.kind.roles.length ∧
        ¬ (m.kind = .mov ∧ reg8 ops[0]? = some 6 ∧ reg8 ops[1]? = some 6) := by
  rw [← h.isMovMM_iff]
  cases hmov : m.isMovMM rs with
  | true =>
    refine iff_of_false (fun hdis => ?_) fun hand => hand.2 rfl
    obtain ⟨hkind, hrs⟩ : m.kind = .mov ∧ rs = [6, 6] := by simpa [Mnem.isMovMM] using hmov
    have hname : ∀ m ∈ MNEM, m.kind = .mov → m.name.toList ≠ "HLT".toList := by decide
    refine hname m hm hkind ?_
    rw [← hdis.mnemonic, Mnem.code, hkind, hrs]
    change mnemonicOf (disassembly [0x76]).1 = "HLT".toList
    decide
  | false =>
    obtain ⟨s, f, hf, hfits, hs, harg, hregs, hsize, hcode⟩ := code_spec hm h.codes hmov
    obtain ⟨num, hnumeq⟩ : ∃ num, num = m.kind.arg.text v := ⟨_, rfl⟩
    have hlen := length_roles m.kind rs h.codes
    have hnum (hne : m.kind.arg ≠ .none) : Piece num ∧ num.length ≤ 5 ∧ number num = v := by
      have hv := h.range hrange (value_role m.kind hne rs h.codes)
      rw [hnumeq]
      exact number_text hv.1 hv.2 hne
    have hdis : disassembly (m.code rs :: m.kind.arg.bytes v) = (f.text ++ num, m.kind.size) := by
      have heq := disassembly_eq hf v
      rw [hfits.arg, harg, hsize, ← hnumeq] at heq
      exact heq
    obtain ⟨hmnem, hops⟩ := parts_of_fits hfits num
      (fun hnone => by rw [hnumeq, ← harg, hnone]; rfl)
      fun hne => ⟨(hnum (harg ▸ hne)).1, (hnum (harg ▸ hne)).2.1⟩
    rw [Spelling.operands, harg] at hops
    have hcount : (operandsOf (f.text ++ num)).length = m.kind.roles.length := by
      rw [hops, hlen, ← hregs]
      split
      · rfl
      · simp
    refine ⟨fun hd => ⟨?_, Bool.false_ne_true⟩, fun hand => ⟨?_, ?_, ?_, ?_⟩⟩
    · have hd := hd.count
      rw [hdis, hcount] at hd
      exact hd.symm
    · rw [hdis]
      cases m.kind
      all_goals rfl
    · rw [hdis, hmnem, hs]
    · rw [hdis, hcount, hand.1]
    · intro i role op t hrole hop ht
      rw [hdis, hops] at ht
      -- a register of the text is the one that the assembler has read
      have hfound {r : ℕ} (hr : rs[i]? = some r) (hne : role ≠ .value) :
          role.code t = some r := by
        have hlt : i < s.regs.length := hregs ▸ (List.getElem?_eq_some_iff.mp hr).1
        have ht' : s.regs[i]? = some t := by
          split at ht
          · exact ht
          · rw [List.getElem?_append_left hlt] at ht
            exact ht
        rw [hcode i role t hrole ht', hr]
      cases role with
      | reg =>
        obtain ⟨r, hr, hrs⟩ := h.reg i hrole
        rw [hop] at hr
        exact ⟨r, hr, hfound hrs (by decide)⟩
      | pair stack =>
        obtain ⟨r, hr, hrs⟩ := h.pair stack i hrole
        rw [hop] at hr
        exact ⟨r, hr, hfound hrs (by simp)⟩
      | value =>
        have hv := h.value i hrole
        rw [operand, hop] at hv
        change (evaluate ⟨a.syms, stmtPc⟩ op).1 = v at hv
        rw [Role.Same, hv]
        rcases index_of_value h.codes hrole with ⟨hi, hne⟩ | ⟨hi, hrst⟩
        · rw [if_neg hne, hi, ← hregs, List.getElem?_concat_length] at ht
          rw [← Option.some.inj ht, (hnum hne).2.2]
        · have hlimit := h.range hrange hrole
          rw [hrst, Kind.limit, if_pos rfl] at hlimit
          rw [hrst, if_pos (show Kind.rst.arg = .none from rfl)] at ht
          have hdigit := hcode i .value t hrole ht
          rw [h.rst hrst, hi, List.getElem?_cons_zero] at hdigit
          have hnat : (number t).toNat = (v % 8).toNat := Option.some.inj hdigit
          have hpos := number_nonneg t
          omega

/-- **The instructions that come back.** A line of the emitting pass with an instruction, about
which nothing is reported and whose value fits, is disassembled to its statement exactly if it has
as many operands as its format and is not `MOV M,M`. -/
theorem disassembles_iff {raw : List Char} {m : Mnem} {ops : List Ptr}
    (hparse : (parseLine raw).stmt = some (.instr m ops)) (he : a.emitting = true)
    (hsilent : (a.assembleLine raw).errors = a.errors)
    (hrange : ValueInRange ⟨(a.defineLabel (parseLine raw)).syms, a.pc⟩ m ops) :
    Disassembles ⟨(a.defineLabel (parseLine raw)).syms, a.pc⟩ m ops
        (a.bytesBetween (a.assembleLine raw)) ↔
      ops.length = m.kind.roles.length ∧
        ¬ (m.kind = .mov ∧ reg8 ops[0]? = some 6 ∧ reg8 ops[1]? = some 6) := by
  have hline : a.assembleLine raw =
      (a.defineLabel (parseLine raw)).execInstr a.pc m ops := by
    rw [assembleLine, execLine, hparse]
    rfl
  have hlabel := a.extends_defineLabel (parseLine raw)
  have hpc := a.defineLabel_pc (parseLine raw)
  rw [hline] at hsilent ⊢
  have hdefine := hlabel.silent (emits_execInstr _ _ _ _).extends hsilent
  have hemit : (a.defineLabel (parseLine raw)).emitting = true := by rw [hlabel.emitting, he]
  rw [← hdefine] at hsilent
  obtain ⟨rs, v, hreads, heq⟩ := exists_reads hemit hsilent
  rw [heq] at hsilent ⊢
  obtain ⟨h0, hwrote⟩ := wrote_of_silent hemit (List.cons_ne_nil _ _) hsilent
  have hbetween := hwrote.bytesBetween h0
  rw [bytesBetween, hpc] at hbetween
  rw [bytesBetween, hbetween]
  exact disassembles_of_reads (mem_of_parseLine hparse) hreads hrange

/-- The start of the emitting pass of a source without symbols. -/
def fresh : Asm := (Asm.init 2048).startEmitting

theorem disassembles_iff_lxi : ∃ m ops,
    (parseLine "  LXI SP,17D0H".toList).stmt = some (.instr m ops) ∧
      Disassembles ⟨[], 0⟩ m ops (fresh.bytesBetween (fresh.assembleLine "  LXI SP,17D0H".toList))
    := by
  have hcheck : ((parseLine "  LXI SP,17D0H".toList).instr.any fun i =>
      decide ((fresh.assembleLine "  LXI SP,17D0H".toList).errors = [] ∧
        (parseLine "  LXI SP,17D0H".toList).label = none ∧
        ValueInRange ⟨[], 0⟩ i.1 i.2 ∧ i.2.length = i.1.kind.roles.length ∧
        i.1.kind ≠ .mov)) = true := by
    decide +kernel
  obtain ⟨⟨m, ops⟩, hinstr, hcheck⟩ := (Option.any_eq_true _ _).mp hcheck
  obtain ⟨hsilent, hlabel, hrange, hcount, hmov⟩ := of_decide_eq_true hcheck
  have hstmt := stmt_of_instr hinstr
  have hsame : fresh.defineLabel (parseLine "  LXI SP,17D0H".toList) = fresh := by
    rw [defineLabel, hlabel]
  have hiff := disassembles_iff (a := fresh) hstmt rfl hsilent (by rw [hsame]; exact hrange)
  rw [hsame] at hiff
  exact ⟨m, ops, hstmt, hiff.mpr ⟨hcount, fun h => hmov h.1⟩⟩

/-- `MOV M,M` is assembled without a message, and comes back as `HLT`. -/
theorem not_disassembles_movMM : ∃ m ops,
    (parseLine "  MOV M,M".toList).stmt = some (.instr m ops) ∧
      (fresh.assembleLine "  MOV M,M".toList).errors = [] ∧ ValueInRange ⟨[], 0⟩ m ops ∧
      ops.length = m.kind.roles.length ∧
      ¬ Disassembles ⟨[], 0⟩ m ops (fresh.bytesBetween (fresh.assembleLine "  MOV M,M".toList))
    := by
  have hcheck : ((parseLine "  MOV M,M".toList).instr.any fun i =>
      decide ((fresh.assembleLine "  MOV M,M".toList).errors = [] ∧
        ValueInRange ⟨[], 0⟩ i.1 i.2 ∧ i.2.length = i.1.kind.roles.length ∧
        mnemonicOf (disassembly
          (fresh.bytesBetween (fresh.assembleLine "  MOV M,M".toList))).1 ≠
            i.1.name.toList)) = true := by
    decide +kernel
  obtain ⟨⟨m, ops⟩, hinstr, hcheck⟩ := (Option.any_eq_true _ _).mp hcheck
  obtain ⟨hsilent, hrange, hcount, hname⟩ := of_decide_eq_true hcheck
  exact ⟨m, ops, stmt_of_instr hinstr, hsilent, hrange, hcount, fun h => hname h.mnemonic⟩

end Asm

end Umk80
