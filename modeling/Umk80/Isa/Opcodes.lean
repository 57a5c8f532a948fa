import Umk80.I8080Step
import Umk80.Isa.Spec
import Umk80.MultiByte

/-!
# The opcodes

`Isa.exec` says in numbers and flags what an instruction does, and `execute` computes it with flag
bytes, masks and an exclusive or that brings out the carries. `Runs` relates processor code to what
it does to the programmer's view. It is closed under sequencing, so each helper of the interpreter
is described once, and the opcodes are put together from these descriptions.

## Main definitions

* `Isa.Bus.handler` — memory and ports as a bus
* `Isa.Runs` — processor code does this to the programmer's view

## Main results

* `Isa.runs_execute` — every documented opcode but DI, EI and HLT
* `Isa.execute_canonical` — the undocumented ones
-/

namespace Umk80

namespace Isa

open I8080 Interaction

variable {σ : Type}

/-- Memory and ports as a bus. -/
def Bus.handler (E : Bus σ) : Handler BusOp BusOp.Ans σ
  | .read a _, s => (E.read s a, s)
  | .write a v _, s => ((), E.write s a v)
  | .input port, s => (E.input s port, s)
  | .output port v, s => ((), E.output s port v)

/-- The registers as the interpreter holds them. -/
def Cpu.regs (s : Cpu) : Regs :=
  ⟨s.a, s.flags.byte, s.b, s.c, s.d, s.e, s.h, s.l, s.sp, s.pc⟩

/-- A processor with the registers of `s`. -/
def State.cpu (s : State σ) (int : IntState) (tr : McTrace) (cycles : U64) : I8080 :=
  ⟨s.toCpu.regs, int, tr, cycles⟩

/-- Started in the view `s`, processor code returns `x` and leaves the view `s'`. The trace of
machine cycles is not in the view. -/
def Runs {α : Type} (E : Bus σ) (p : CpuM α) (s : State σ) (x : α) (s' : State σ) : Prop :=
  ∀ int tr cycles, ∃ tr', (p.run (s.cpu int tr cycles)).run E.handler s.env =
    ((x, s'.cpu int tr' cycles), s'.env)

variable {E : Bus σ} {α β : Type} {s s' s'' : State σ} {x : α} {y : β} {p : CpuM α}
  {f : α → CpuM β}

/-! ## Rules -/

namespace Runs

theorem pure (x : α) : Runs E (Pure.pure x) s x s := fun _ tr _ => ⟨tr, rfl⟩

theorem bind (hp : Runs E p s x s') (hf : Runs E (f x) s' y s'') : Runs E (p >>= f) s y s'' := by
  intro int tr cycles
  obtain ⟨tr', hp⟩ := hp int tr cycles
  obtain ⟨tr'', hf⟩ := hf int tr' cycles
  refine ⟨tr'', ?_⟩
  rw [StateT.run_bind, Prog.run_bind, hp]
  exact hf

/-- The same run, with the result written differently. -/
theorem cast (hp : Runs E p s x s') (hs : s' = s'') : Runs E p s x s'' := hs ▸ hp

theorem regs : Runs E I8080.regs s s.toCpu.regs s := fun _ tr _ => ⟨tr, rfl⟩

/-- A change of registers, if it is one of the view. -/
theorem modifyRegs {g : Regs → Regs} (hg : g s.toCpu.regs = s'.toCpu.regs) (henv : s'.env = s.env) :
    Runs E (I8080.modifyRegs g) s () s' := by
  intro int tr cycles
  refine ⟨tr, ?_⟩
  change (((), (⟨g s.toCpu.regs, int, tr, cycles⟩ : I8080)), s.env) = _
  rw [hg, henv]
  rfl

theorem busRd (a : U16) (st : U8) : Runs E (I8080.busRd a st) s (E.read s.env a) s :=
  fun _ _ _ => ⟨_, rfl⟩

theorem busWr (a : U16) (v st : U8) :
    Runs E (I8080.busWr a v st) s () { s with env := E.write s.env a v } := fun _ _ _ => ⟨_, rfl⟩

theorem busIn (port : U8) : Runs E (I8080.busIn port) s (E.input s.env port) s :=
  fun _ _ _ => ⟨_, rfl⟩

theorem busOut (port v : U8) :
    Runs E (I8080.busOut port v) s () { s with env := E.output s.env port v } :=
  fun _ _ _ => ⟨_, rfl⟩

/-- The operand byte after an opcode. -/
theorem fetch8 : Runs E I8080.fetch8 (s.skip 1) (E.read s.env (s.pc + 1)) (s.skip 2) := by
  have htwo : s.skip 2 = { s with pc := s.pc + 1 + 1 } := by
    rw [State.skip, show s.pc + BitVec.ofNat 16 2 = s.pc + 1 + 1 by bv_omega]
  rw [htwo]
  exact fun _ _ _ => ⟨_, rfl⟩

/-- The operand word after an opcode. -/
theorem fetch16 : Runs E I8080.fetch16 (s.skip 1)
    (word (E.read s.env (s.pc + 2)) (E.read s.env (s.pc + 1))) (s.skip 3) := by
  have hthree : s.skip 3 = { s with pc := s.pc + 1 + 1 + 1 } := by
    rw [State.skip, show s.pc + BitVec.ofNat 16 3 = s.pc + 1 + 1 + 1 by bv_omega]
  rw [hthree, show s.pc + 2 = s.pc + 1 + 1 by bv_omega]
  exact fun _ _ _ => ⟨_, rfl⟩

theorem push16 (v : U16) : Runs E (I8080.push16 v) s () (push E s v) := fun _ _ _ => ⟨_, rfl⟩

theorem pop16 : Runs E I8080.pop16 s (top E s) (drop s) := fun _ _ _ => ⟨_, rfl⟩

theorem regGet (o : Operand) : Runs E (I8080.regGet o.code) s (get E s o) s := by
  intro int tr cycles
  cases o
  all_goals exact ⟨_, rfl⟩

theorem regSet (o : Operand) (v : U8) : Runs E (I8080.regSet o.code v) s () (set E s v o) := by
  intro int tr cycles
  cases o
  all_goals exact ⟨_, rfl⟩

end Runs

/-! ## Flags -/

section Flags

variable (r : Cpu) (fl : Flags)

theorem byte_bits : ∀ sign zero aux parity carry : Bool,
    let f := (Flags.mk sign zero aux parity carry).byte
    (f &&& F_S != 0) = sign ∧ (f &&& F_Z != 0) = zero ∧ (f &&& F_AC != 0) = aux ∧
      (f &&& F_P != 0) = parity ∧ (f &&& F_C != 0) = carry := by
  decide

theorem ofByte_byte : Flags.ofByte fl.byte = fl := by
  obtain ⟨hs, hz, ha, hp, hc⟩ := byte_bits fl.sign fl.zero fl.aux fl.parity fl.carry
  rw [Flags.ofByte, hs, hz, ha, hp, hc]

theorem byte_ofByte : ∀ f : U8, (Flags.ofByte f).byte = f &&& F_MASK ||| F_ONE := by
  decide +kernel

theorem normalised_byte : Normalised fl.byte := by
  have key : ∀ sign zero aux parity carry : Bool,
      Normalised (Flags.mk sign zero aux parity carry).byte := by
    unfold Normalised
    decide
  exact key _ _ _ _ _

/-- A normalised flag byte holds nothing but the flags. -/
theorem byte_ofByte_of_normalised {f : U8} (h : Normalised f) : (Flags.ofByte f).byte = f := by
  rw [byte_ofByte f, mask_of_normalised h]

theorem getFlag_regs_C : r.regs.getFlag F_C = r.flags.carry :=
  (byte_bits r.flags.sign r.flags.zero r.flags.aux r.flags.parity r.flags.carry).2.2.2.2

theorem getFlag_regs_AC : r.regs.getFlag F_AC = r.flags.aux :=
  (byte_bits r.flags.sign r.flags.zero r.flags.aux r.flags.parity r.flags.carry).2.2.1

theorem setFlag_regs_C (on : Bool) : r.regs.setFlag F_C on =
    ({ r with flags := { r.flags with carry := on } } : Cpu).regs := by
  have key : ∀ on sign zero aux parity carry : Bool,
      let f := (Flags.mk sign zero aux parity carry).byte
      (if on then f ||| F_C else f &&& ~~~F_C) = (Flags.mk sign zero aux parity on).byte := by
    decide
  exact congrArg (fun f : U8 => { r.regs with f := f }) (key on _ _ _ _ _)

theorem setFlag_regs_AC (on : Bool) : r.regs.setFlag F_AC on =
    ({ r with flags := { r.flags with aux := on } } : Cpu).regs := by
  have key : ∀ on sign zero aux parity carry : Bool,
      let f := (Flags.mk sign zero aux parity carry).byte
      (if on then f ||| F_AC else f &&& ~~~F_AC) = (Flags.mk sign zero on parity carry).byte := by
    decide
  exact congrArg (fun f : U8 => { r.regs with f := f }) (key on _ _ _ _ _)

theorem parity8_eq : ∀ v : U8, Regs.parity8 v = evenParity v := by
  decide +kernel

/-- A mask of one bit asks for that bit. -/
theorem and_twoPow_bne (v : U8) {i : ℕ} (hi : i < 8) :
    (v &&& BitVec.twoPow 8 i != 0) = v.getLsbD i := by
  have hne : BitVec.twoPow 8 i ≠ 0 := by
    intro h
    have hbit := congrArg (BitVec.getLsbD · i) h
    simp [hi] at hbit
  rw [BitVec.and_twoPow]
  cases v.getLsbD i with
  | false => rfl
  | true => exact bne_iff_ne.mpr hne

theorem bit0_eq (v : U8) : (v &&& 0x01 != 0) = v.getLsbD 0 := and_twoPow_bne v (i := 0) (by decide)

theorem bit3_eq (v : U8) : (v &&& 0x08 != 0) = v.getLsbD 3 := and_twoPow_bne v (i := 3) (by decide)

theorem sign_eq (v : U8) : (v &&& 0x80 != 0) = v.msb := and_twoPow_bne v (i := 7) (by decide)

theorem setSzp_regs (v : U8) : r.regs.setSzp v =
    ({ r with flags := r.flags.result v } : Cpu).regs := by
  have key : ∀ s' z' p' sign zero aux parity carry : Bool,
      let f := (Flags.mk sign zero aux parity carry).byte
      let f := f &&& ~~~(F_S ||| F_Z ||| F_P)
      let f := if s' then f ||| F_S else f
      let f := if z' then f ||| F_Z else f
      let f := if p' then f ||| F_P else f
      f &&& F_MASK ||| F_ONE = (Flags.mk s' z' aux p' carry).byte := by
    decide +kernel
  have h := key v.msb (v == 0) (evenParity v) r.flags.sign r.flags.zero r.flags.aux r.flags.parity
    r.flags.carry
  rw [← sign_eq, ← parity8_eq] at h
  calc r.regs.setSzp v
      = { r.regs with f :=
          (Flags.mk (v &&& 0x80 != 0) (v == 0) r.flags.aux (Regs.parity8 v) r.flags.carry).byte } :=
        congrArg (fun f : U8 => { r.regs with f := f }) h
    _ = ({ r with flags := r.flags.result v } : Cpu).regs := by
        rw [sign_eq, parity8_eq]
        rfl

theorem condTrue_regs (cc : Cond) : r.regs.condTrue cc.code = cc.holds r.flags := by
  obtain ⟨hs, hz, -, hp, hc⟩ := byte_bits r.flags.sign r.flags.zero r.flags.aux r.flags.parity
    r.flags.carry
  cases cc with
  | nz => exact congrArg not hz
  | z => exact hz
  | nc => exact congrArg not hc
  | c => exact hc
  | po => exact congrArg not hp
  | pe => exact hp
  | p => exact congrArg not hs
  | m => exact hs

end Flags

/-! ## Arithmetic -/

theorem aluAdd_regs (s : State σ) (v : U8) (cy : Bool) :
    s.toCpu.regs.aluAdd v cy = (sum s v cy).toCpu.regs := by
  have hcarry : Regs.carryOut 8 s.a v cy = decide (256 ≤ s.a.toNat + v.toNat + cy.toNat) := by
    rw [Regs.carryOut_eq (Nat.le_refl 8)]
    have ha := s.a.isLt
    have hv := v.isLt
    simp only [Nat.mod_eq_of_lt ha, Nat.mod_eq_of_lt hv]
    rfl
  have haux : Regs.carryOut 4 s.a v cy =
      decide (16 ≤ s.a.toNat % 16 + v.toNat % 16 + cy.toNat) := Regs.carryOut_eq (by decide) _ _ _
  have ha : s.toCpu.regs.a = s.a := rfl
  rw [Regs.aluAdd, ha, hcarry, haux, ← ofNat_sum, setFlag_regs_C, setFlag_regs_AC, setSzp_regs]
  rfl

/-- A difference is the sum with the complement, its last carry inverted. -/
theorem sum_not (s : State σ) (v : U8) (cy : Bool) : sum s (~~~v) (!cy) =
    { difference s v cy with flags := { (difference s v cy).flags with
      carry := !(difference s v cy).flags.carry } } := by
  have ha := s.a.isLt
  have hv := v.isLt
  have hnot : (~~~v).toNat = 255 - v.toNat := BitVec.toNat_not
  have hcy : (!cy).toNat = 1 - cy.toNat ∧ cy.toNat ≤ 1 := by
    cases cy
    all_goals decide
  have hres : BitVec.ofNat 8 (s.a.toNat + (~~~v).toNat + (!cy).toNat) =
      s.a - v - BitVec.ofNat 8 cy.toNat := by
    refine BitVec.eq_of_toNat_eq ?_
    rw [BitVec.toNat_ofNat, BitVec.toNat_sub, BitVec.toNat_sub, BitVec.toNat_ofNat]
    omega
  have haux : decide (16 ≤ s.a.toNat % 16 + (~~~v).toNat % 16 + (!cy).toNat) =
      decide (v.toNat % 16 + cy.toNat ≤ s.a.toNat % 16) := decide_eq_decide.mpr (by omega)
  have hcarry : decide (256 ≤ s.a.toNat + (~~~v).toNat + (!cy).toNat) =
      !decide (s.a.toNat < v.toNat + cy.toNat) := by
    rw [← decide_not]
    exact decide_eq_decide.mpr (by omega)
  rw [sum, hres, haux, hcarry]
  rfl

theorem aluSub_regs (s : State σ) (v : U8) (cy : Bool) :
    s.toCpu.regs.aluSub v cy = (difference s v cy).toCpu.regs := by
  rw [Regs.aluSub, aluAdd_regs, sum_not]
  dsimp only
  rw [getFlag_regs_C, Bool.not_not, setFlag_regs_C]

theorem aluCmp_regs (s : State σ) (v : U8) :
    s.toCpu.regs.aluCmp v = (accumulate s v .cmp).toCpu.regs := by
  rw [Regs.aluCmp, aluSub_regs]
  rfl

/-- ANA, XRA and ORA: the result, and the carries set afterwards. -/
theorem bitwise_regs (s : State σ) (res : U8) (aux : Bool) :
    ((({ s.toCpu.regs with a := res } : Regs).setSzp res).setFlag F_C false).setFlag F_AC aux =
      (bitwise s res aux).toCpu.regs := by
  have ha : ({ s.toCpu.regs with a := res } : Regs) = ({ s.toCpu with a := res } : Cpu).regs := rfl
  rw [ha, setSzp_regs, setFlag_regs_C, setFlag_regs_AC]
  rfl

theorem aluOp_regs (s : State σ) (op : Alu) (v : U8) :
    s.toCpu.regs.aluOp op.code v = (accumulate s v op).toCpu.regs := by
  cases op with
  | add => exact aluAdd_regs s v false
  | adc =>
    change s.toCpu.regs.aluAdd v (s.toCpu.regs.getFlag F_C) = _
    rw [getFlag_regs_C]
    exact aluAdd_regs s v _
  | sub => exact aluSub_regs s v false
  | sbb =>
    change s.toCpu.regs.aluSub v (s.toCpu.regs.getFlag F_C) = _
    rw [getFlag_regs_C]
    exact aluSub_regs s v _
  | ana =>
    rw [accumulate, ← bit3_eq]
    exact bitwise_regs s _ _
  | xra => exact bitwise_regs s _ _
  | ora => exact bitwise_regs s _ _
  | cmp => exact aluCmp_regs s v

theorem aluDaa_regs (s : State σ) : s.toCpu.regs.aluDaa = (adjust s).toCpu.regs := by
  have key : ∀ a : U8, ∀ aux carry : Bool,
      let lsb := a &&& 0x0F
      let msb := a >>> 4
      let low := aux || 9 < lsb
      let cy := carry || 9 < msb || (9 ≤ msb && 9 < lsb)
      let corr : U8 := if low then 0x06 else 0
      let high := carry || decide (0x99 < a.toNat)
      (if cy then corr + 0x60 else corr) =
          BitVec.ofNat 8 ((if aux || decide (9 < a.toNat % 16) then 6 else 0) +
            if high then 0x60 else 0) ∧ cy = high := by
    decide +kernel
  obtain ⟨hcorr, hcy⟩ := key s.a s.flags.aux s.flags.carry
  have ha : s.toCpu.regs.a = s.a := rfl
  rw [Regs.aluDaa]
  rw [getFlag_regs_AC, getFlag_regs_C, ha, hcorr, hcy, aluAdd_regs, setFlag_regs_C]
  rfl

theorem aluDad_regs (s : State σ) (p : Pair) :
    s.toCpu.regs.aluDad (getPair s p) = (act E s (.dad p)).toCpu.regs := by
  have key (x y : U16) : (x.setWidth 32 + y.setWidth 32 : U32).setWidth 16 = x + y ∧
      (((x.setWidth 32 + y.setWidth 32 : U32) &&& 0x10000) != 0) =
        decide (65536 ≤ x.toNat + y.toNat) := by
    have hx := x.isLt
    have hy := y.isLt
    have hsum : (x.setWidth 32 + y.setWidth 32 : U32).toNat = x.toNat + y.toNat := by
      rw [BitVec.toNat_add, BitVec.toNat_setWidth, BitVec.toNat_setWidth]
      omega
    refine ⟨?_, ?_⟩
    · refine BitVec.eq_of_toNat_eq ?_
      rw [BitVec.toNat_setWidth, hsum, BitVec.toNat_add]
    · have hmask : (0x10000 : U32) = BitVec.twoPow 32 16 := rfl
      have hbit : (x.setWidth 32 + y.setWidth 32 : U32).getLsbD 16 =
          decide (65536 ≤ x.toNat + y.toNat) := by
        rw [BitVec.getLsbD, hsum, Nat.testBit_eq_decide_div_mod_eq]
        exact decide_eq_decide.mpr (by omega)
      rw [hmask, BitVec.and_twoPow, hbit]
      cases decide (65536 ≤ x.toNat + y.toNat)
      all_goals decide
  have hhl : s.toCpu.regs.getHl = s.hl := rfl
  obtain ⟨hres, hcy⟩ := key s.hl (getPair s p)
  rw [Regs.aluDad]
  rw [hhl, hcy, hres, setFlag_regs_C]
  rfl

/-! ## Opcodes -/

/-- The instruction of which `i` is the opcode, with its operand bytes from memory. -/
abbrev atPc (E : Bus σ) (s : State σ) (i : Insn) : Insn :=
  i.withArgs (E.read s.env (s.pc + 1)) (E.read s.env (s.pc + 2))

/-- Code that fetches nothing, returns and touches only registers. -/
theorem runs_registers {g : Regs → Regs} {cyc : ℕ} (hg : g s.toCpu.regs = s'.toCpu.regs)
    (henv : s'.env = s.env) :
    Runs E (do modifyRegs g; return cyc) s cyc s' :=
  (Runs.modifyRegs hg henv).bind (.pure cyc)

theorem runs_mov (dst src : Operand) (h : dst ≠ .m ∨ src ≠ .m) :
    Runs E (execute (Insn.mov dst src).opcode) (s.skip 1) ((Insn.mov dst src).cost s.flags)
      (exec E s (.mov dst src)) := by
  have hcode : ∀ dst src : Operand, dst ≠ .m ∨ src ≠ .m →
      execute (Insn.mov dst src).opcode = (do
        regSet dst.code (← regGet src.code); return (Insn.mov dst src).cost s.flags) := by
    intro dst src h
    cases dst
    all_goals cases src
    all_goals first
      | rfl
      | exact absurd h (by decide)
  rw [hcode dst src h]
  exact (Runs.regGet src).bind ((Runs.regSet dst _).bind (.pure _))

theorem runs_alu (op : Alu) (src : Operand) :
    Runs E (execute (Insn.alu op src).opcode) (s.skip 1) ((Insn.alu op src).cost s.flags)
      (exec E s (.alu op src)) := by
  have hcode : execute (Insn.alu op src).opcode = (do
      let v ← regGet src.code
      modifyRegs (·.aluOp op.code v)
      return (Insn.alu op src).cost s.flags) := by
    cases op
    all_goals cases src
    all_goals rfl
  rw [hcode]
  refine (Runs.regGet src).bind (runs_registers ?_ ?_)
  · exact aluOp_regs (s.skip 1) op _
  · cases op
    all_goals rfl

theorem runs_alui (op : Alu) :
    Runs E (execute (Insn.alui op 0).opcode) (s.skip 1) 7 (exec E s (atPc E s (.alui op 0))) := by
  have hcode : execute (Insn.alui op 0).opcode = (do
      let v ← I8080.fetch8
      modifyRegs (·.aluOp op.code v)
      return 7) := by
    cases op
    all_goals rfl
  rw [hcode]
  refine Runs.fetch8.bind (runs_registers ?_ ?_)
  · exact aluOp_regs (s.skip 2) op _
  · cases op
    all_goals rfl

theorem runs_mvi (dst : Operand) :
    Runs E (execute (Insn.mvi dst 0).opcode) (s.skip 1) ((Insn.mvi dst 0).cost s.flags)
      (exec E s (atPc E s (.mvi dst 0))) := by
  have hcode : execute (Insn.mvi dst 0).opcode = (do
      let v ← I8080.fetch8
      I8080.regSet dst.code v
      return (Insn.mvi dst 0).cost s.flags) := by
    cases dst
    all_goals rfl
  rw [hcode]
  exact Runs.fetch8.bind ((Runs.regSet dst _).bind (.pure _))

/-- INR and DCR: the flags are set between reading the operand and writing it. -/
theorem runs_step (o : Operand) (aux : U8 → Bool) (res : U8 → U8) (cyc : ℕ) (v : U8)
    (hv : v = res (get E s o)) :
    Runs E (do
        let v ← I8080.regGet o.code
        I8080.modifyRegs fun r => (r.setFlag F_AC (aux (res v))).setSzp (res v)
        I8080.regSet o.code (res v)
        return cyc) s cyc
      (set E { s with flags := Flags.result { s.flags with aux := aux v } v } v o) := by
  subst hv
  refine (Runs.regGet o).bind (.bind (.modifyRegs ?_ ?_) ((Runs.regSet o _).bind (.pure cyc)))
  · rw [setFlag_regs_AC, setSzp_regs]
  · rfl

/-- The low digit of a byte. -/
theorem toNat_low (v : U8) : (v &&& 0x0F).toNat = v.toNat % 16 := by
  rw [BitVec.toNat_and]
  exact Nat.and_two_pow_sub_one_eq_mod _ 4

theorem low_eq_zero (v : U8) : (v &&& 0x0F == 0) = (v.toNat % 16 == 0) := by
  rw [← toNat_low, Bool.eq_iff_iff, beq_iff_eq, beq_iff_eq]
  exact BitVec.toNat_inj.symm

theorem low_ne_ones (v : U8) : (v &&& 0x0F != 0x0F) = (v.toNat % 16 != 15) := by
  rw [← toNat_low, Bool.eq_iff_iff, bne_iff_ne, bne_iff_ne]
  exact BitVec.toNat_inj.symm.not

theorem runs_inr (o : Operand) :
    Runs E (execute (Insn.inr o).opcode) (s.skip 1) ((Insn.inr o).cost s.flags)
      (exec E s (.inr o)) := by
  have hcode : execute (Insn.inr o).opcode = (do
      let v ← I8080.regGet o.code
      I8080.modifyRegs fun r => (r.setFlag F_AC (v + 1 &&& 0x0F == 0)).setSzp (v + 1)
      I8080.regSet o.code (v + 1)
      return (Insn.inr o).cost s.flags) := by
    cases o
    all_goals rfl
  rw [hcode]
  simp only [low_eq_zero]
  exact runs_step o (fun v => v.toNat % 16 == 0) (· + 1) _ _ rfl

theorem runs_dcr (o : Operand) :
    Runs E (execute (Insn.dcr o).opcode) (s.skip 1) ((Insn.dcr o).cost s.flags)
      (exec E s (.dcr o)) := by
  have hcode : execute (Insn.dcr o).opcode = (do
      let v ← I8080.regGet o.code
      I8080.modifyRegs fun r => (r.setFlag F_AC (v - 1 &&& 0x0F != 0x0F)).setSzp (v - 1)
      I8080.regSet o.code (v - 1)
      return (Insn.dcr o).cost s.flags) := by
    cases o
    all_goals rfl
  rw [hcode]
  simp only [low_ne_ones]
  exact runs_step o (fun v => v.toNat % 16 != 15) (· - 1) _ _ rfl

/-! ### Pairs of registers -/

theorem runs_lxi (p : Pair) :
    Runs E (execute (Insn.lxi p 0).opcode) (s.skip 1) 10 (exec E s (atPc E s (.lxi p 0))) := by
  cases p
  all_goals exact Runs.fetch16.bind (runs_registers rfl rfl)

theorem runs_inx (p : Pair) :
    Runs E (execute (Insn.inx p).opcode) (s.skip 1) 5 (exec E s (.inx p)) := by
  cases p
  all_goals exact runs_registers rfl rfl

theorem runs_dcx (p : Pair) :
    Runs E (execute (Insn.dcx p).opcode) (s.skip 1) 5 (exec E s (.dcx p)) := by
  cases p
  all_goals exact runs_registers rfl rfl

theorem runs_dad (p : Pair) :
    Runs E (execute (Insn.dad p).opcode) (s.skip 1) 10 (exec E s (.dad p)) := by
  have h := aluDad_regs (E := E) (s.skip 1) p
  cases p
  all_goals exact runs_registers h rfl

/-- A PUSH writes the flag byte as it is: its constant bits are right already. -/
theorem runs_push (p : Saved) :
    Runs E (execute (Insn.push p).opcode) (s.skip 1) 11 (exec E s (.push p)) := by
  cases p with
  | bc => exact Runs.regs.bind ((Runs.push16 _).bind (.pure _))
  | de => exact Runs.regs.bind ((Runs.push16 _).bind (.pure _))
  | hl => exact Runs.regs.bind ((Runs.push16 _).bind (.pure _))
  | psw =>
    have hf : (s.skip 1).flags.byte &&& F_MASK ||| F_ONE = s.flags.byte :=
      mask_of_normalised (normalised_byte s.flags)
    refine Runs.regs.bind (Runs.regs.bind ?_)
    change Runs E (do I8080.push16 (word s.a ((s.skip 1).flags.byte &&& F_MASK ||| F_ONE)); _) _ _ _
    rw [hf]
    exact (Runs.push16 _).bind (.pure _)

theorem runs_pop (p : Saved) :
    Runs E (execute (Insn.pop p).opcode) (s.skip 1) 10 (exec E s (.pop p)) := by
  cases p with
  | bc => exact Runs.pop16.bind (runs_registers rfl rfl)
  | de => exact Runs.pop16.bind (runs_registers rfl rfl)
  | hl => exact Runs.pop16.bind (runs_registers rfl rfl)
  | psw =>
    refine Runs.pop16.bind (runs_registers ?_ rfl)
    rw [← byte_ofByte]
    rfl

/-! ### Memory and ports -/

theorem runs_staxB : Runs E (execute 0x02) (s.skip 1) 7 (exec E s .staxB) :=
  Runs.regs.bind (Runs.regs.bind ((Runs.busWr _ _ _).bind (.pure _)))

theorem runs_staxD : Runs E (execute 0x12) (s.skip 1) 7 (exec E s .staxD) :=
  Runs.regs.bind (Runs.regs.bind ((Runs.busWr _ _ _).bind (.pure _)))

theorem runs_ldaxB : Runs E (execute 0x0A) (s.skip 1) 7 (exec E s .ldaxB) :=
  Runs.regs.bind ((Runs.busRd _ _).bind (runs_registers rfl rfl))

theorem runs_ldaxD : Runs E (execute 0x1A) (s.skip 1) 7 (exec E s .ldaxD) :=
  Runs.regs.bind ((Runs.busRd _ _).bind (runs_registers rfl rfl))

theorem runs_shld :
    Runs E (execute 0x22) (s.skip 1) 16 (exec E s (atPc E s (.shld 0))) :=
  Runs.fetch16.bind (Runs.regs.bind ((Runs.busWr _ _ _).bind
    (Runs.regs.bind ((Runs.busWr _ _ _).bind (.pure _)))))

theorem runs_lhld :
    Runs E (execute 0x2A) (s.skip 1) 16 (exec E s (atPc E s (.lhld 0))) := by
  let a := word (E.read s.env (s.pc + 2)) (E.read s.env (s.pc + 1))
  have hl : Runs E (I8080.modifyRegs fun r => { r with l := E.read s.env a }) (s.skip 3) ()
      { s.skip 3 with l := E.read s.env a } := .modifyRegs rfl rfl
  exact Runs.fetch16.bind ((Runs.busRd _ _).bind (hl.bind ((Runs.busRd _ _).bind
    (runs_registers rfl rfl))))

theorem runs_sta :
    Runs E (execute 0x32) (s.skip 1) 13 (exec E s (atPc E s (.sta 0))) :=
  Runs.fetch16.bind (Runs.regs.bind ((Runs.busWr _ _ _).bind (.pure _)))

theorem runs_lda :
    Runs E (execute 0x3A) (s.skip 1) 13 (exec E s (atPc E s (.lda 0))) :=
  Runs.fetch16.bind ((Runs.busRd _ _).bind (runs_registers rfl rfl))

theorem runs_inp :
    Runs E (execute 0xDB) (s.skip 1) 10 (exec E s (atPc E s (.inp 0))) :=
  Runs.fetch8.bind ((Runs.busIn _).bind (runs_registers rfl rfl))

theorem runs_out :
    Runs E (execute 0xD3) (s.skip 1) 10 (exec E s (atPc E s (.out 0))) :=
  Runs.fetch8.bind (Runs.regs.bind ((Runs.busOut _ _).bind (.pure _)))

theorem runs_xthl : Runs E (execute 0xE3) (s.skip 1) 18 (exec E s .xthl) :=
  Runs.pop16.bind (Runs.regs.bind ((Runs.push16 _).bind (runs_registers rfl rfl)))

/-! ### The accumulator and the carry -/

/-- RLC brings the bit that falls out in on the right. -/
theorem rlc_eq (v : U8) :
    v <<< 1 ||| (if v &&& 0x80 != 0 then 1 else 0 : U8) = v.rotateLeft 1 := by
  have hbit : (if v.msb then 1 else 0 : U8) = v >>> 7 := by
    refine BitVec.eq_of_toNat_eq ?_
    have hv := v.isLt
    have hmsb : v.msb = decide (128 ≤ v.toNat) := BitVec.msb_eq_decide v
    rw [hmsb, BitVec.toNat_ushiftRight, Nat.shiftRight_eq_div_pow]
    split
    · simp only [decide_eq_true_eq] at *
      change 1 = _
      omega
    · simp only [decide_eq_true_eq] at *
      change 0 = _
      omega
  rw [sign_eq, hbit]
  rfl

/-- RRC brings it in on the left. -/
theorem rrc_eq (v : U8) :
    v >>> 1 ||| (if v &&& 0x01 != 0 then 0x80 else 0 : U8) = v.rotateRight 1 := by
  have hbit : (if v.getLsbD 0 then 0x80 else 0 : U8) = v <<< 7 := by
    refine BitVec.eq_of_toNat_eq ?_
    have hodd : v.getLsbD 0 = decide (v.toNat % 2 = 1) := Nat.testBit_zero _
    rw [hodd, BitVec.toNat_shiftLeft, Nat.shiftLeft_eq]
    split
    · simp only [decide_eq_true_eq] at *
      change 128 = _
      omega
    · simp only [decide_eq_true_eq] at *
      change 0 = _
      omega
  rw [bit0_eq, hbit]
  rfl

/-- RAL brings the carry in on the right. -/
theorem carry_low (c : Bool) : (if c then 1 else 0 : U8) = (BitVec.ofBool c).setWidth 8 := by
  cases c
  all_goals rfl

/-- RAR brings it in on the left. -/
theorem carry_high (c : Bool) :
    (if c then 0x80 else 0 : U8) = (BitVec.ofBool c).setWidth 8 <<< 7 := by
  cases c
  all_goals rfl

/-- A new accumulator, then a new carry. -/
theorem runs_rotate {v v' : U8} {c c' : Bool} (hv : v' = v) (hc : c' = c) :
    Runs E (do
        I8080.modifyRegs fun r => { r with a := v' }
        I8080.modifyRegs (·.setFlag F_C c')
        return 4) s 4 { s with a := v, flags := { s.flags with carry := c } } := by
  subst hv hc
  have ha : Runs E (I8080.modifyRegs fun r => { r with a := v' }) s () { s with a := v' } :=
    .modifyRegs rfl rfl
  exact ha.bind (runs_registers (setFlag_regs_C _ _) rfl)

/-! ### Jumps -/

theorem runs_jcc (cc : Cond) :
    Runs E (execute (Insn.jcc cc 0).opcode) (s.skip 1) 10 (exec E s (atPc E s (.jcc cc 0))) := by
  have hcode : execute (Insn.jcc cc 0).opcode = (do
      let a ← I8080.fetch16
      if (← I8080.regs).condTrue cc.code then
        I8080.modifyRegs fun r => { r with pc := a }
      return 10) := by
    cases cc
    all_goals rfl
  rw [hcode]
  refine Runs.fetch16.bind (Runs.regs.bind ?_)
  rw [condTrue_regs]
  change Runs E _ _ _ (if cc.holds (s.skip 3).flags then _ else _)
  cases cc.holds (s.skip 3).flags with
  | true => exact runs_registers rfl rfl
  | false => exact .pure 10

/-- A call to the word `a` from the state behind the instruction. -/
theorem runs_enter (a : U16) (cyc : ℕ) : Runs E (do
    I8080.push16 (← I8080.regs).pc
    I8080.modifyRegs fun r => { r with pc := a }
    return cyc) s cyc (jump (push E s s.pc) a) :=
  Runs.regs.bind ((Runs.push16 _).bind (runs_registers rfl rfl))

theorem runs_leave (cyc : ℕ) : Runs E (do
    let a ← I8080.pop16
    I8080.modifyRegs fun r => { r with pc := a }
    return cyc) s cyc (jump (drop s) (top E s)) :=
  Runs.pop16.bind (runs_registers rfl rfl)

theorem runs_ccc (cc : Cond) :
    Runs E (execute (Insn.ccc cc 0).opcode) (s.skip 1) ((Insn.ccc cc 0).cost s.flags)
      (exec E s (atPc E s (.ccc cc 0))) := by
  have hcode : execute (Insn.ccc cc 0).opcode = (do
      let a ← I8080.fetch16
      if (← I8080.regs).condTrue cc.code then
        I8080.push16 (← I8080.regs).pc
        I8080.modifyRegs fun r => { r with pc := a }
        return 17
      else return 11) := by
    cases cc
    all_goals rfl
  rw [hcode]
  refine Runs.fetch16.bind (Runs.regs.bind ?_)
  rw [condTrue_regs]
  change Runs E _ _ (if cc.holds (s.skip 3).flags then 17 else 11)
    (if cc.holds (s.skip 3).flags then _ else _)
  cases cc.holds (s.skip 3).flags with
  | true => exact runs_enter _ _
  | false => exact .pure 11

theorem runs_rcc (cc : Cond) :
    Runs E (execute (Insn.rcc cc).opcode) (s.skip 1) ((Insn.rcc cc).cost s.flags)
      (exec E s (.rcc cc)) := by
  have hcode : execute (Insn.rcc cc).opcode = (do
      if (← I8080.regs).condTrue cc.code then
        let a ← I8080.pop16
        I8080.modifyRegs fun r => { r with pc := a }
        return 11
      else return 5) := by
    cases cc
    all_goals rfl
  rw [hcode]
  refine Runs.regs.bind ?_
  rw [condTrue_regs]
  change Runs E _ _ (if cc.holds (s.skip 1).flags then 11 else 5)
    (if cc.holds (s.skip 1).flags then _ else _)
  cases cc.holds (s.skip 1).flags with
  | true => exact runs_leave _
  | false => exact .pure 5

theorem runs_rst (n : Fin 8) :
    Runs E (execute (Insn.rst n).opcode) (s.skip 1) 11 (exec E s (.rst n)) := by
  have hcode : ∀ n : Fin 8, execute (Insn.rst n).opcode = (do
      I8080.push16 (← I8080.regs).pc
      I8080.modifyRegs fun r => { r with pc := BitVec.ofNat 16 (8 * n) }
      return 11) := by
    intro n
    match n with
    | 0 | 1 | 2 | 3 | 4 | 5 | 6 | 7 => rfl
  rw [hcode n]
  exact runs_enter _ _

/-! ### Every opcode -/

/-- **Every instruction but DI, EI and HLT**, which are about interrupts. There is no `MOV M, M`:
its opcode would be that of HLT. -/
theorem runs_execute {i : Insn} (hdi : i ≠ .di) (hei : i ≠ .ei) (hhlt : i ≠ .hlt)
    (hmov : i ≠ .mov .m .m) :
    Runs E (execute i.opcode) (s.skip 1) (i.cost s.flags) (exec E s (atPc E s i)) := by
  cases i with
  | nop => exact .pure 4
  | hlt => exact absurd rfl hhlt
  | di => exact absurd rfl hdi
  | ei => exact absurd rfl hei
  | mov dst src =>
    refine runs_mov dst src ?_
    by_contra h
    obtain ⟨rfl, rfl⟩ : dst = .m ∧ src = .m := by tauto
    exact hmov rfl
  | mvi dst v => exact runs_mvi dst
  | lxi p v => exact runs_lxi p
  | alu op src => exact runs_alu op src
  | alui op v => exact runs_alui op
  | inr o => exact runs_inr o
  | dcr o => exact runs_dcr o
  | inx p => exact runs_inx p
  | dcx p => exact runs_dcx p
  | dad p => exact runs_dad p
  | ldaxB => exact runs_ldaxB
  | ldaxD => exact runs_ldaxD
  | staxB => exact runs_staxB
  | staxD => exact runs_staxD
  | lhld a => exact runs_lhld
  | shld a => exact runs_shld
  | lda a => exact runs_lda
  | sta a => exact runs_sta
  | rlc => exact Runs.regs.bind (runs_rotate (rlc_eq s.a) (sign_eq s.a))
  | rrc => exact Runs.regs.bind (runs_rotate (rrc_eq s.a) (bit0_eq s.a))
  | ral =>
    refine Runs.regs.bind (Runs.regs.bind ?_)
    simp only [getFlag_regs_C]
    exact runs_rotate (congrArg (s.a <<< 1 ||| ·) (carry_low s.flags.carry)) (sign_eq s.a)
  | rar =>
    refine Runs.regs.bind (Runs.regs.bind ?_)
    simp only [getFlag_regs_C]
    exact runs_rotate (congrArg (s.a >>> 1 ||| ·) (carry_high s.flags.carry)) (bit0_eq s.a)
  | daa => exact runs_registers (aluDaa_regs (s.skip 1)) rfl
  | cma => exact runs_registers rfl rfl
  | stc => exact runs_registers (setFlag_regs_C _ _) rfl
  | cmc =>
    refine runs_registers ?_ rfl
    rw [getFlag_regs_C, setFlag_regs_C]
    rfl
  | xchg => exact runs_registers rfl rfl
  | xthl => exact runs_xthl
  | sphl => exact runs_registers rfl rfl
  | pchl => exact runs_registers rfl rfl
  | push p => exact runs_push p
  | pop p => exact runs_pop p
  | inp port => exact runs_inp
  | out port => exact runs_out
  | jmp a => exact Runs.fetch16.bind (runs_registers rfl rfl)
  | jcc cc a => exact runs_jcc cc
  | call a => exact Runs.fetch16.bind (runs_enter _ _)
  | ccc cc a => exact runs_ccc cc
  | ret => exact runs_leave _
  | rcc cc => exact runs_rcc cc
  | rst n => exact runs_rst n

/-! ## Undocumented opcodes -/

/-- The documented opcode that does the same. -/
def canonical (op : U8) : U8 :=
  if op &&& 0xC7 = 0 then 0x00
  else if op = 0xCB then 0xC3
  else if op = 0xD9 then 0xC9
  else if op = 0xDD ∨ op = 0xED ∨ op = 0xFD then 0xCD
  else op

theorem opcode_decodeOp : ∀ op : U8, (decodeOp op).opcode = canonical op := by
  decide +kernel

theorem opcode_withArgs (i : Insn) (v v' : U8) : (i.withArgs v v').opcode = i.opcode := by
  cases i
  all_goals rfl

theorem opcode_decode (op v v' : U8) : (decode op v v').opcode = canonical op := by
  rw [decode, opcode_withArgs, opcode_decodeOp]

/-- Twelve opcodes stand for another. -/
theorem canonical_cases : ∀ op : U8, canonical op = op ∨
    op ∈ [0x08#8, 0x10#8, 0x18#8, 0x20#8, 0x28#8, 0x30#8, 0x38#8, 0xCB#8, 0xD9#8, 0xDD#8, 0xED#8,
      0xFD#8] := by
  decide +kernel

theorem execute_canonical (op : U8) : execute (canonical op) = execute op := by
  rcases canonical_cases op with h | h
  · rw [h]
  · fin_cases h
    all_goals rfl

end Isa

end Umk80
