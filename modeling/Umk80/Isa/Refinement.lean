import Umk80.Isa.Opcodes

/-!
# The interpreter implements the instruction set

The processor of `core/src/i8080.c` and the instruction set, side by side. `view` is what a
programmer sees of the processor: registers, flags, the interrupt input, and whatever lies on the
bus. A step of the interpreter does to the view what a step of the instruction set does, and takes
as many T states. It does so for every opcode, the undocumented ones included, whether it is fetched
or jammed by the interrupting logic.

The view loses nothing as long as the flag byte is normalised and the grace counter of EI is a
switch. Both hold from reset on, so whole runs agree.

## Main definitions

* `Isa.view` — the programmer's view of the processor
* `Isa.Regular` — the states in which it loses nothing

## Main results

* `Isa.refined_step` — every step
* `Isa.view_run`, `Isa.view_runActs` — every run of steps and interrupt requests
-/

namespace Umk80

namespace Isa

open I8080 Interaction

variable {σ : Type} {E : Bus σ}

/-! ## The interrupt state -/

/-- DI, EI and HLT apart, an instruction leaves the interrupt state alone. -/
theorem act_frame (s : State σ) {i : Insn} (hdi : i ≠ .di) (hei : i ≠ .ei) (hhlt : i ≠ .hlt) :
    (act E s i).inte = s.inte ∧ (act E s i).halted = s.halted := by
  cases i with
  | di => exact absurd rfl hdi
  | ei => exact absurd rfl hei
  | hlt => exact absurd rfl hhlt
  | mov | mvi | inr | dcr => exact ⟨set_inte _ _ _ _, set_halted _ _ _ _⟩
  | lxi p v => cases p <;> exact ⟨rfl, rfl⟩
  | inx p => cases p <;> exact ⟨rfl, rfl⟩
  | dcx p => cases p <;> exact ⟨rfl, rfl⟩
  | pop p => cases p <;> exact ⟨rfl, rfl⟩
  | alu op src => cases op <;> exact ⟨rfl, rfl⟩
  | alui op v => cases op <;> exact ⟨rfl, rfl⟩
  | jcc cc a => cases h : cc.holds s.flags <;> simp [act, h, jump]
  | ccc cc a => cases h : cc.holds s.flags <;> simp [act, h, jump, push]
  | rcc cc => cases h : cc.holds s.flags <;> simp [act, h, jump, drop]
  | _ => exact ⟨rfl, rfl⟩

/-- The opcodes that DI, EI and HLT are decoded from. -/
theorem decode_interrupts (op v v' : U8) : (decode op v v' = .di ↔ op = 0xF3) ∧
    (decode op v v' = .ei ↔ op = 0xFB) ∧ (decode op v v' = .hlt ↔ op = 0x76) ∧
    decode op v v' ≠ .mov .m .m := by
  have hargs : ∀ i : Insn, (i.withArgs v v' = .di ↔ i = .di) ∧ (i.withArgs v v' = .ei ↔ i = .ei) ∧
      (i.withArgs v v' = .hlt ↔ i = .hlt) ∧ (i.withArgs v v' = .mov .m .m ↔ i = .mov .m .m) := by
    intro i
    cases i
    all_goals simp [Insn.withArgs]
  have hop : ∀ op : U8, (decodeOp op = .di ↔ op = 0xF3) ∧ (decodeOp op = .ei ↔ op = 0xFB) ∧
      (decodeOp op = .hlt ↔ op = 0x76) ∧ decodeOp op ≠ .mov .m .m := by
    decide +kernel
  obtain ⟨hdi, hei, hhlt, hmov⟩ := hop op
  obtain ⟨hdi', hei', hhlt', hmov'⟩ := hargs (decodeOp op)
  rw [decode, hdi', hei', hhlt', hdi, hei, hhlt]
  exact ⟨Iff.rfl, Iff.rfl, Iff.rfl, fun h => hmov (hmov'.mp h)⟩

/-- **Every opcode.** The processor ends up as the instruction says, with the interrupt state that
`intStateAfter` gives. -/
theorem run_execute (op : U8) (s : State σ) {i : Insn}
    (hi : i = decode op (E.read s.env (s.pc + 1)) (E.read s.env (s.pc + 2))) (int : IntState)
    (tr : McTrace) (cycles : U64) :
    ∃ tr', ((execute op).run ((s.skip 1).cpu int tr cycles)).run E.handler s.env =
      ((i.cost s.flags, (exec E s i).cpu (intStateAfter op int) tr' cycles), (exec E s i).env) := by
  obtain ⟨hdi, hei, hhlt, hmov⟩ := decode_interrupts op (E.read s.env (s.pc + 1))
    (E.read s.env (s.pc + 2))
  rw [← hi] at hdi hei hhlt hmov
  by_cases h : i = .di
  · subst h
    rw [hdi.mp rfl]
    exact ⟨tr, rfl⟩
  by_cases h' : i = .ei
  · subst h'
    rw [hei.mp rfl]
    exact ⟨tr, rfl⟩
  by_cases h'' : i = .hlt
  · subst h''
    rw [hhlt.mp rfl]
    exact ⟨tr, rfl⟩
  have hint : intStateAfter op int = int := by
    rw [intStateAfter, if_neg (mt hdi.mpr h), if_neg (mt hei.mpr h'), if_neg (mt hhlt.mpr h'')]
  have hargs : atPc E s i = i := by
    rw [hi, decode]
    cases decodeOp op
    all_goals rfl
  have hrun := runs_execute (E := E) (s := s) h h' h'' hmov
  rw [hargs, hi, opcode_decode, execute_canonical, ← hi] at hrun
  rw [hint]
  exact hrun int tr cycles

/-- The interrupt state of the view after an instruction. -/
theorem intStateAfter_act (s : State σ) (int : IntState) (hinte : int.inte = s.inte)
    (hhalted : int.halted = s.halted) (op v v' : U8) :
    (intStateAfter op int).inte = (act E s (decode op v v')).inte ∧
      (intStateAfter op int).halted = (act E s (decode op v v')).halted := by
  obtain ⟨hdi, hei, hhlt, -⟩ := decode_interrupts op v v'
  rw [intStateAfter]
  split
  · rw [hdi.mpr ‹_›]
    exact ⟨rfl, hhalted⟩
  split
  · rw [hei.mpr ‹_›]
    exact ⟨rfl, hhalted⟩
  split
  · rw [hhlt.mpr ‹_›]
    exact ⟨hinte, rfl⟩
  obtain ⟨hinte', hhalted'⟩ := act_frame (E := E) s (mt hdi.mp ‹_›) (mt hei.mp ‹_›) (mt hhlt.mp ‹_›)
  rw [hinte', hhalted']
  exact ⟨hinte, hhalted⟩

/-! ## Steps -/

/-- The programmer's view of the processor and what lies on its bus. -/
def view (x : I8080 × σ) : Latched σ where
  a := x.1.a
  b := x.1.b
  c := x.1.c
  d := x.1.d
  e := x.1.e
  h := x.1.h
  l := x.1.l
  flags := .ofByte x.1.f
  sp := x.1.sp
  pc := x.1.pc
  inte := x.1.inte
  halted := x.1.halted
  env := x.2
  request := if x.1.intPending then some x.1.intVector else none
  shadow := x.1.intDelay != 0

/-- The view loses nothing: the constant bits of the flag byte are right, and the grace counter is
a switch. Both hold from reset on. -/
structure Regular (x : I8080 × σ) : Prop where
  normalised : Normalised x.1.f
  grace : x.1.intDelay ≤ 1

theorem regs_view {x : I8080 × σ} (h : Regular x) : (view x).toCpu.regs = x.1.toRegs := by
  change (⟨_, (Flags.ofByte x.1.f).byte, _, _, _, _, _, _, _, _⟩ : Regs) = _
  rw [byte_ofByte_of_normalised h.normalised]
  rfl

/-- The view of a processor that holds the registers of `s`. -/
theorem view_cpu (s : State σ) {int : IntState} (hinte : int.inte = s.inte)
    (hhalted : int.halted = s.halted) (tr : McTrace) (cycles : U64) :
    view (s.cpu int tr cycles, s.env) =
      { toState := s
        request := if int.intPending then some int.intVector else none
        shadow := int.intDelay != 0 } := by
  have hfl : Flags.ofByte s.toCpu.regs.f = s.flags := ofByte_byte s.flags
  obtain ⟨⟨a, b, c, d, e, h, l, flags, sp, pc⟩, inte, halted, env⟩ := s
  cases hinte
  cases hhalted
  simp only [view, State.cpu, Cpu.regs] at hfl ⊢
  rw [hfl]
  rfl

theorem regular_cpu (s : State σ) {int : IntState} (h : int.intDelay ≤ 1) (tr : McTrace)
    (cycles : U64) : Regular (s.cpu int tr cycles, s.env) :=
  ⟨normalised_byte s.flags, h⟩

theorem skip_cpu {x : I8080 × σ} (h : Regular x) (n : ℕ) :
    ((view x).toState.skip n).toCpu.regs =
      { x.1.toRegs with pc := x.1.pc + BitVec.ofNat 16 n } := by
  rw [← regs_view h]
  rfl

/-- The processor once a result is charged for. -/
abbrev finish (r : (ℕ × I8080) × σ) (d : U8) : (ℕ × I8080) × σ :=
  ((r.1.1, (r.1.2.consumeGrace d).addCycles r.1.1), r.2)

theorem run_step_of_fetches (bus : Handler BusOp BusOp.Ans σ) {x : I8080 × σ} (h : Fetches x) :
    (step.run x.1).run bus x.2 =
      finish (((execute (opcodeAt bus x)).run (x.1.fetched (opcodeAt bus x))).run bus
        (bus (.read x.1.pc CYC_FETCH) x.2).2) x.1.intDelay := by
  rw [step_run_of_fetch h.1 h.2, Prog.run_bind, Prog.run_bind]
  rfl

/-- **A fetched instruction.** -/
theorem step_run_fetched {x : I8080 × σ} (h : Regular x) (hf : Fetches x) {i : Insn}
    (hi : i = (view x).toState.fetch E) :
    ∃ tr', (step.run x.1).run E.handler x.2 =
      ((i.cost (view x).flags, (exec E (view x).toState i).cpu
        ((intStateAfter (opcodeAt E.handler x) x.1.toIntState).consumeGrace x.1.intDelay) tr'
        (x.1.cycles + BitVec.ofNat 64 (i.cost (view x).flags))),
        (exec E (view x).toState i).env) := by
  have hcpu : x.1.fetched (opcodeAt E.handler x) = ((view x).toState.skip 1).cpu x.1.toIntState
      (McTrace.log { x.1.toMcTrace with mcCount := 0 } CYC_FETCH x.1.pc (opcodeAt E.handler x))
      x.1.cycles := by
    rw [State.cpu, skip_cpu h]
    rfl
  obtain ⟨tr', hrun⟩ := run_execute (opcodeAt E.handler x) (view x).toState hi x.1.toIntState
    (McTrace.log { x.1.toMcTrace with mcCount := 0 } CYC_FETCH x.1.pc (opcodeAt E.handler x))
    x.1.cycles
  refine ⟨tr', ?_⟩
  rw [← hcpu] at hrun
  rw [run_step_of_fetches E.handler hf]
  exact congrArg (finish · x.1.intDelay) hrun

/-- **An acknowledge.** The jammed byte runs as if it stood before the program counter. -/
theorem step_run_acknowledged {x : I8080 × σ} (h : Regular x) (hack : x.1.acknowledges = true)
    {s : State σ} (hs : s = { (view x).toState with inte := false, halted := false }.skip 65535)
    {i : Insn}
    (hi : i = decode x.1.intVector (E.read s.env (s.pc + 1)) (E.read s.env (s.pc + 2))) :
    ∃ tr', (step.run x.1).run E.handler x.2 =
      ((i.cost (view x).flags, (exec E s i).cpu
        (intStateAfter x.1.intVector x.1.acknowledged.toIntState) tr'
        (x.1.cycles + BitVec.ofNat 64 (i.cost (view x).flags))), (exec E s i).env) := by
  have hcpu : x.1.acknowledged = (s.skip 1).cpu x.1.acknowledged.toIntState
      x.1.acknowledged.toMcTrace x.1.cycles := by
    have hregs : (s.skip 1).toCpu.regs = x.1.toRegs := by
      have hpc : (s.skip 1).pc = x.1.pc := by
        rw [hs]
        change x.1.pc + 65535#16 + 1#16 = x.1.pc
        bv_omega
      have hskip : (s.skip 1).toCpu.regs = { (view x).toCpu.regs with pc := (s.skip 1).pc } := by
        rw [hs]
        rfl
      rw [hskip, hpc, regs_view h]
    rw [State.cpu, hregs]
    rfl
  obtain ⟨tr', hrun⟩ := run_execute x.1.intVector s hi x.1.acknowledged.toIntState
    x.1.acknowledged.toMcTrace x.1.cycles
  have henv : s.env = x.2 := by rw [hs]; rfl
  have hflags : s.flags = (view x).flags := by rw [hs]; rfl
  refine ⟨tr', ?_⟩
  rw [← hcpu, henv, hflags] at hrun
  rw [step_run_of_acknowledges hack, Prog.run_bind, hrun]
  rfl

/-! ## The view after a step -/

/-- A step as the view sees it. -/
structure Refined (E : Bus σ) (x : I8080 × σ) (s' : Latched σ) (t : ℕ) : Prop where
  cost : (stepResult E.handler x).1 = t
  regular : Regular (I8080.act E.handler x .step)
  view_eq : view (I8080.act E.handler x .step) = s'
  cycles : (I8080.act E.handler x .step).1.cycles = x.1.cycles + BitVec.ofNat 64 t

theorem refined_of_run {x : I8080 × σ} {s : State σ} (int : IntState) (tr : McTrace) {cost : ℕ}
    (h : (step.run x.1).run E.handler x.2 =
      ((cost, s.cpu int tr (x.1.cycles + BitVec.ofNat 64 cost)), s.env))
    (hinte : int.inte = s.inte) (hhalted : int.halted = s.halted) (hdelay : int.intDelay ≤ 1) :
    Refined E x
      { toState := s
        request := if int.intPending then some int.intVector else none
        shadow := int.intDelay != 0 } cost := by
  have hact : I8080.act E.handler x .step =
      (s.cpu int tr (x.1.cycles + BitVec.ofNat 64 cost), s.env) := by
    obtain ⟨cpu, env⟩ := x
    rw [I8080.act, h]
  refine ⟨?_, ?_, ?_, ?_⟩
  · rw [stepResult, h]
  · rw [hact]
    exact regular_cpu s hdelay _ _
  · rw [hact]
    exact view_cpu s hinte hhalted _ _
  · rw [hact]
    rfl

/-- What the interrupt latch and the grace counter of EI become. -/
theorem intStateAfter_latch (op : U8) (int : IntState) :
    (intStateAfter op int).intPending = int.intPending ∧
      (intStateAfter op int).intVector = int.intVector := by
  unfold intStateAfter
  repeat' split
  all_goals exact ⟨rfl, rfl⟩

theorem consumeGrace_frame (int : IntState) (d : U8) :
    (int.consumeGrace d).inte = int.inte ∧ (int.consumeGrace d).halted = int.halted ∧
      (int.consumeGrace d).intPending = int.intPending ∧
      (int.consumeGrace d).intVector = int.intVector := by
  unfold IntState.consumeGrace
  split
  all_goals exact ⟨rfl, rfl, rfl, rfl⟩

/-- The grace counter is armed by an EI that is not itself in the shadow of another. -/
theorem shadow_after (op : U8) (int : IntState) (h : int.intDelay ≤ 1) :
    (((intStateAfter op int).consumeGrace int.intDelay).intDelay != 0) =
      (decide (op = 0xFB) && !(int.intDelay != 0)) := by
  have hcases : int.intDelay = 0 ∨ int.intDelay = 1 := by bv_omega
  by_cases hei : op = 0xFB
  · subst hei
    obtain h | h := hcases
    all_goals simp [intStateAfter, IntState.consumeGrace, h]
  rw [decide_eq_false hei, Bool.false_and]
  have hdelay : (intStateAfter op int).intDelay = int.intDelay ∨
      (intStateAfter op int).intDelay = 0 := by
    unfold intStateAfter
    rw [if_neg hei]
    split
    · exact .inr rfl
    · split
      all_goals exact .inl rfl
  obtain h | h := hcases
  all_goals
    rw [h] at hdelay ⊢
    obtain h' | h' := hdelay
    all_goals simp [IntState.consumeGrace, h']

theorem refined_fetches {x : I8080 × σ} (h : Regular x) (hf : Fetches x) :
    Refined E x ((view x).proceed E) ((view x).toState.cost E) := by
  obtain ⟨tr', hrun⟩ := step_run_fetched h hf (E := E) rfl
  obtain ⟨hinte, hhalted⟩ := intStateAfter_act (E := E)
    ((view x).toState.skip ((view x).toState.fetch E).length) x.1.toIntState rfl rfl
    (opcodeAt E.handler x) (E.read x.2 (x.1.pc + 1)) (E.read x.2 (x.1.pc + 2))
  obtain ⟨hgi, hgh, hgp, hgv⟩ := consumeGrace_frame
    (intStateAfter (opcodeAt E.handler x) x.1.toIntState) x.1.intDelay
  obtain ⟨hpending, hvector⟩ := intStateAfter_latch (opcodeAt E.handler x) x.1.toIntState
  rw [← hgi] at hinte
  rw [← hgh] at hhalted
  have hrefined := refined_of_run _ _ hrun hinte hhalted
    (intDelay_consumeGrace_le (intDelay_intStateAfter_le h.grace) _)
  have hhlt : (view x).halted = false := hf.2
  have hei : decide ((view x).toState.fetch E = .ei) = decide (opcodeAt E.handler x = 0xFB) :=
    decide_eq_decide.mpr (decode_interrupts _ _ _).2.1
  rw [hgp, hgv, hpending, hvector, shadow_after _ _ h.grace] at hrefined
  rw [Latched.proceed, State.step, State.cost, hhlt, if_neg Bool.false_ne_true,
    if_neg Bool.false_ne_true, if_neg Bool.false_ne_true, hei]
  exact hrefined

theorem refined_halted {x : I8080 × σ} (h : Regular x) (hack : x.1.acknowledges = false)
    (hh : x.1.halted = true) :
    Refined E x ((view x).proceed E) ((view x).toState.cost E) := by
  have hrun := step_run_of_halted hack hh
  have hhlt : (view x).halted = true := hh
  rw [Latched.proceed, State.step, State.cost, hhlt, if_pos rfl, if_pos rfl, if_pos rfl]
  have hidled : x.1.idled = (view x).toState.cpu x.1.toIntState x.1.idled.toMcTrace
      (x.1.cycles + BitVec.ofNat 64 4) := by
    rw [State.cpu, regs_view h]
    rfl
  refine refined_of_run x.1.toIntState x.1.idled.toMcTrace ?_ rfl rfl h.grace
  rw [hrun, hidled]
  rfl

theorem skip_skip (s : State σ) (m n : ℕ) : (s.skip m).skip n = s.skip (m + n) := by
  have hpc : s.pc + BitVec.ofNat 16 m + BitVec.ofNat 16 n = s.pc + BitVec.ofNat 16 (m + n) := by
    rw [BitVec.ofNat_add, BitVec.add_assoc]
  exact congrArg (fun pc => { s with pc := pc }) hpc

theorem length_pos (i : Insn) : 0 < i.length := Nat.succ_pos _

theorem delay_of_acknowledges {cpu : I8080} (h : cpu.acknowledges = true) : cpu.intDelay = 0 := by
  simp only [acknowledges, Bool.and_eq_true, beq_iff_eq] at h
  exact h.2

/-- Nothing is held off while a byte is accepted. -/
theorem delay_jammed (op : U8) {int : IntState} (h : int.intDelay = 0) :
    ((intStateAfter op int).intDelay != 0) = decide (op = 0xFB) := by
  have hshadow := shadow_after op int (by rw [h]; decide)
  have hgrace : (intStateAfter op int).consumeGrace 0 = intStateAfter op int :=
    if_neg fun hlt => absurd hlt.1 (by decide)
  rw [h, hgrace] at hshadow
  rw [hshadow]
  exact Bool.and_true _

theorem refined_acknowledges {x : I8080 × σ} (h : Regular x) (hack : x.1.acknowledges = true) :
    Refined E x ((view x).acknowledge E x.1.intVector)
      (((view x).jammed E x.1.intVector).cost (view x).flags) := by
  let s : State σ := { (view x).toState with inte := false, halted := false }.skip 65535
  have hpc : s.pc + 1 = x.1.pc ∧ s.pc + 2 = x.1.pc + 1 := by
    change x.1.pc + 65535#16 + 1 = x.1.pc ∧ x.1.pc + 65535#16 + 2 = x.1.pc + 1
    bv_omega
  have hi : (view x).jammed E x.1.intVector =
      decode x.1.intVector (E.read s.env (s.pc + 1)) (E.read s.env (s.pc + 2)) := by
    rw [hpc.1, hpc.2]
    rfl
  have hexec : exec E s ((view x).jammed E x.1.intVector) =
      ((view x).acknowledge E x.1.intVector).toState := by
    have hpos := length_pos ((view x).jammed E x.1.intVector)
    rw [exec, skip_skip, Latched.acknowledge]
    congr 1
    refine congrArg (fun pc => { s with pc := pc }) (congrArg (x.1.pc + ·) ?_)
    refine BitVec.eq_of_toNat_eq ?_
    simp only [BitVec.toNat_ofNat]
    omega
  obtain ⟨tr', hrun⟩ := step_run_acknowledged h hack (s := s) rfl hi
  rw [hexec] at hrun
  obtain ⟨hpending, -⟩ := intStateAfter_latch x.1.intVector x.1.acknowledged.toIntState
  obtain ⟨hinte, hhalted⟩ := intStateAfter_act (E := E)
    ({ (view x).toState with inte := false, halted := false }.skip
      (((view x).jammed E x.1.intVector).length - 1)) x.1.acknowledged.toIntState rfl rfl
    x.1.intVector (E.read x.2 x.1.pc) (E.read x.2 (x.1.pc + 1))
  have hrefined := refined_of_run _ _ hrun hinte hhalted (intDelay_intStateAfter_le h.grace)
  have hei : ((intStateAfter x.1.intVector x.1.acknowledged.toIntState).intDelay != 0) =
      decide ((view x).jammed E x.1.intVector = .ei) := by
    have hvec : decide ((view x).jammed E x.1.intVector = .ei) = decide (x.1.intVector = 0xFB) :=
      decide_eq_decide.mpr (decode_interrupts _ _ _).2.1
    have hdelay : x.1.intDelay = 0 := delay_of_acknowledges hack
    rw [hvec]
    exact delay_jammed _ hdelay
  rw [hpending, hei] at hrefined
  exact hrefined

theorem accepted_of_acknowledges {x : I8080 × σ} (hack : x.1.acknowledges = true) :
    (view x).accepted = some x.1.intVector := by
  obtain ⟨⟨hpending, hinte⟩, hdelay⟩ : (x.1.intPending = true ∧ x.1.inte = true) ∧
      x.1.intDelay = 0 := by
    simpa [acknowledges] using hack
  simp [Latched.accepted, view, hpending, hinte, hdelay]

theorem accepted_of_not_acknowledges {x : I8080 × σ} (hack : x.1.acknowledges = false) :
    (view x).accepted = none := by
  cases hpending : x.1.intPending with
  | false => simp [Latched.accepted, view, hpending]
  | true =>
    have hoff : (x.1.inte && !(x.1.intDelay != 0)) = false := by
      simpa [acknowledges, hpending] using hack
    simp only [Latched.accepted, view, hoff, Bool.false_eq_true, if_false]

/-- **Every step**, with its T states. -/
theorem refined_step {x : I8080 × σ} (h : Regular x) :
    Refined E x ((view x).step E) ((view x).cost E) := by
  rw [Latched.step, Latched.cost]
  cases hack : x.1.acknowledges with
  | true =>
    rw [accepted_of_acknowledges hack]
    exact refined_acknowledges h hack
  | false =>
    rw [accepted_of_not_acknowledges hack]
    cases hh : x.1.halted with
    | true => exact refined_halted h hack hh
    | false => exact refined_fetches h ⟨hack, hh⟩

/-! ## Runs -/

/-- What a request or a step does to the view. -/
def Latched.act (E : Bus σ) (s : Latched σ) : Action → Latched σ
  | .request v => { s with request := some v }
  | .step => s.step E

/-- The T states of a run. -/
def Latched.time (E : Bus σ) : Latched σ → List Action → ℕ
  | _, [] => 0
  | s, .request v :: as => Latched.time E (s.act E (.request v)) as
  | s, .step :: as => s.cost E + Latched.time E (s.act E .step) as

/-- **Every run.** Whatever steps and requests follow each other, the view of the processor is the
one that the instruction set computes, and the T states are the ones it counts. -/
theorem view_run {x : I8080 × σ} (h : Regular x) (as : List Action) :
    Regular (as.foldl (I8080.act E.handler) x) ∧
      view (as.foldl (I8080.act E.handler) x) = as.foldl (Latched.act E) (view x) ∧
      (as.foldl (I8080.act E.handler) x).1.cycles =
        x.1.cycles + BitVec.ofNat 64 ((view x).time E as) := by
  induction as generalizing x with
  | nil => exact ⟨h, rfl, (BitVec.add_zero _).symm⟩
  | cons a as ih =>
    cases a with
    | request v =>
      have h' : Regular (I8080.act E.handler x (.request v)) := ⟨h.normalised, h.grace⟩
      exact ih h'
    | step =>
      have hstep := refined_step (E := E) h
      obtain ⟨hreg, hview, hcycles⟩ := ih hstep.regular
      rw [hstep.view_eq] at hview hcycles
      refine ⟨hreg, hview, ?_⟩
      rw [List.foldl_cons, hcycles, hstep.cycles, BitVec.add_assoc, ← BitVec.ofNat_add]
      rfl

/-- The processor after a reset. -/
def Latched.start (env : σ) : Latched σ :=
  ⟨⟨⟨0, 0, 0, 0, 0, 0, 0, ⟨false, false, false, false, false⟩, 0, 0⟩, false, false, env⟩,
    none, false⟩

/-- **The interpreter implements the instruction set**, from reset on, with memory and ports of the
kind that `Bus` describes. -/
theorem view_runActs (E : Bus σ) (env : σ) (as : List Action) :
    view (runActs E.handler env as) = as.foldl (Latched.act E) (.start env) ∧
      (runActs E.handler env as).1.cycles = BitVec.ofNat 64 ((Latched.start env).time E as) := by
  have hreset : Regular (reset, env) :=
    ⟨show Normalised F_ONE by unfold Normalised; decide, show (0 : U8) ≤ 1 by decide⟩
  have hstart : view (reset, env) = .start env := by
    have hflags : Flags.ofByte F_ONE = ⟨false, false, false, false, false⟩ := by decide
    simp only [view, reset, hflags]
    rfl
  obtain ⟨-, hview, hcycles⟩ := view_run (E := E) hreset as
  rw [hstart] at hview hcycles
  refine ⟨hview, ?_⟩
  rw [runActs, hcycles]
  exact BitVec.zero_add _

end Isa

end Umk80
