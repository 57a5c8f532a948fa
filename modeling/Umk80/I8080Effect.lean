import Mathlib.Tactic.Common
import Mathlib.Tactic.FinCases
import Umk80.I8080

/-!
# What an opcode does

The interpreter describes an opcode three times: in the T-state table, in the length table, and in
the code that runs it. `Effect` is the description that the three have to agree on. It says how
many T states an opcode takes beyond three for each machine cycle, which bytes it reads and in
which order, where it leaves the program counter, what a call pushes, and that the flag byte stays
normalised.

`execute_effect` walks the 256 opcodes once against it. The opcodes with a case of their own are
evaluated; the regular blocks are proved from the fields of the opcode.

## Main definitions

* `I8080.slack` — T states beyond three for each machine cycle
* `I8080.Source`, `I8080.Flow` — where an opcode reads data, and where it leads
* `I8080.Effect` — what a run of `execute` does

## Main results

* `I8080.execute_effect` — every opcode, on every path
-/

namespace Umk80

open Interaction

/-! ## Memory accesses -/

/-- The memory reads among some bus calls: addresses and status words. -/
def memReads (es : List BusEvent) : List (U16 × U8) :=
  es.filterMap fun
    | ⟨.read a st, _⟩ => some (a, st)
    | _ => none

/-- The memory writes among some bus calls: addresses, values and status words. -/
def memWrites (es : List BusEvent) : List (U16 × U8 × U8) :=
  es.filterMap fun
    | ⟨.write a v st, _⟩ => some (a, v, st)
    | _ => none

/-- A bus call of a stack cycle. -/
def BusEvent.isStack : BusEvent → Bool
  | ⟨.read _ st, _⟩ => st == CYC_STACKR
  | ⟨.write _ _ st, _⟩ => st == CYC_STACKW
  | _ => false

namespace I8080

/-- The operand word, from the answers to the first two reads. -/
def operandWord : List BusEvent → U16
  | ⟨.read _ _, lo⟩ :: ⟨.read _ _, hi⟩ :: _ => word hi lo
  | _ => 0

/-- The reads of the operand bytes, from the address after the opcode. -/
def operandReads : ℕ → U16 → List BusOp
  | 2, pc => [.read pc CYC_MEMR]
  | 3, pc => [.read pc CYC_MEMR, .read (pc + 1) CYC_MEMR]
  | _, _ => []

/-- The address after the operand. -/
def afterOperand : ℕ → U16 → U16
  | 2, pc => pc + 1
  | 3, pc => pc + 1 + 1
  | _, pc => pc

/-! ## The classes of opcodes -/

/-- T states beyond three for each machine cycle. -/
def slack (op : U8) : ℕ :=
  if 0x40 ≤ op ∧ op ≤ 0x7F ∧ op &&& 7 ≠ 6 ∧ field3 op ≠ 6 then 2    -- MOV between registers
  else if op &&& 0xC6 = 0x04 ∧ field3 op ≠ 6 then 2                 -- INR and DCR of a register
  else if op &&& 0xC7 = 0x03 then 2                                 -- INX and DCX
  else if op = 0xE9 ∨ op = 0xF9 then 2                              -- PCHL and SPHL
  else if op &&& 0xCF = 0xC5 ∨ op &&& 0xC7 = 0xC7 then 2            -- PUSH and RST
  else if op &&& 0xCF = 0xCD then 2                                 -- CALL
  else if op &&& 0xC7 = 0xC4 ∨ op &&& 0xC7 = 0xC0 then 2            -- conditional CALL and RET
  else if op = 0xE3 then 3                                          -- XTHL
  else if op &&& 0xCF = 0x09 then 7                                 -- DAD
  else if op = 0x76 then 4                                          -- HLT
  else 1

/-- Where an opcode reads data: through a register pair, at its operand, or from the stack. -/
inductive Source
  | none
  | bc
  | de
  | hl
  | direct
  | direct16
  | stack
  | stackIf (cc : U8)
deriving DecidableEq

def source (op : U8) : Source :=
  if op = 0x0A then .bc
  else if op = 0x1A then .de
  else if op = 0x3A then .direct
  else if op = 0x2A then .direct16
  else if op &&& 0xCF = 0xC1 ∨ op = 0xE3 ∨ op &&& 0xEF = 0xC9 then .stack
  else if op &&& 0xC7 = 0xC0 then .stackIf (field3 op)
  else if 0x40 ≤ op ∧ op ≤ 0xBF ∧ op &&& 7 = 6 ∧ op ≠ 0x76 then .hl
  else if op = 0x34 ∨ op = 0x35 then .hl
  else .none

/-- The data reads, with the registers before the instruction and the operand. -/
def Source.reads (r : Regs) (w : U16) : Source → List (U16 × U8)
  | .none => []
  | .bc => [(r.getBc, CYC_MEMR)]
  | .de => [(r.getDe, CYC_MEMR)]
  | .hl => [(r.getHl, CYC_MEMR)]
  | .direct => [(w, CYC_MEMR)]
  | .direct16 => [(w, CYC_MEMR), (w + 1, CYC_MEMR)]
  | .stack => [(r.sp, CYC_STACKR), (r.sp + 1, CYC_STACKR)]
  | .stackIf cc => if r.condTrue cc then [(r.sp, CYC_STACKR), (r.sp + 1, CYC_STACKR)] else []

/-- Where an opcode leads: on, elsewhere, or elsewhere with a return address pushed. -/
inductive Flow
  | next
  | jump
  | jumpIf (cc : U8)
  | call
  | callIf (cc : U8)
deriving DecidableEq

def flow (op : U8) : Flow :=
  if op &&& 0xF7 = 0xC3 ∨ op = 0xE9 ∨ op &&& 0xEF = 0xC9 then .jump      -- JMP, PCHL, RET
  else if op &&& 0xCF = 0xCD ∨ op &&& 0xC7 = 0xC7 then .call             -- CALL, RST
  else if op &&& 0xC7 = 0xC2 ∨ op &&& 0xC7 = 0xC0 then .jumpIf (field3 op)
  else if op &&& 0xC7 = 0xC4 then .callIf (field3 op)
  else .next

/-- Whether the program goes elsewhere. -/
def Flow.transfers (r : Regs) : Flow → Bool
  | .next => false
  | .jump => true
  | .call => true
  | .jumpIf cc => r.condTrue cc
  | .callIf cc => r.condTrue cc

/-- Whether a return address is pushed. -/
def Flow.pushes (r : Regs) : Flow → Bool
  | .call => true
  | .callIf cc => r.condTrue cc
  | _ => false

/-- The condition of a conditional CALL or RET. -/
def stackCondition (op : U8) : Option U8 :=
  if op &&& 0xC7 = 0xC4 ∨ op &&& 0xC7 = 0xC0 then some (field3 op) else none

/-- Bit 1 of the flag byte is 1, bits 3 and 5 are 0. -/
def Normalised (f : U8) : Prop := f &&& 0x2A = 0x02

/-- The writes that push a word. -/
def pushWrites (sp v : U16) : List (U16 × U8 × U8) :=
  [(sp - 1, hiByte v, CYC_STACKW), (sp - 2, loByte v, CYC_STACKW)]

/-- What `execute` does with an opcode that has just been fetched or jammed: the bus calls made,
the T states returned, and the processor afterwards. -/
structure Effect (op : U8) (cpu : I8080) (es : List BusEvent) (r : ℕ × I8080) : Prop where
  cost : r.1 = 3 * (es.length + 1) + slack op
  operand : (es.take (opcodeLength op - 1)).map Sigma.fst = operandReads (opcodeLength op) cpu.pc
  data : memReads (es.drop (opcodeLength op - 1)) =
    (source op).reads cpu.toRegs (operandWord es)
  pc : (flow op).transfers cpu.toRegs = false → r.2.pc = afterOperand (opcodeLength op) cpu.pc
  pushed : (flow op).pushes cpu.toRegs = true →
    memWrites es = pushWrites cpu.sp (afterOperand (opcodeLength op) cpu.pc)
  taken : ∀ cc ∈ stackCondition op, r.1 = opcodeCycles op + 3 * es.countP BusEvent.isStack ∧
    es.countP BusEvent.isStack = if cpu.condTrue cc then 2 else 0
  psw : Normalised cpu.f → Normalised r.2.f

variable {op : U8} {cpu : I8080}

/-! ## The shape of an opcode -/

/-- What the tables say of an opcode without a condition: where it leads, how many bus calls it
makes, how many instruction bytes it has, and where it reads data. -/
structure Shape (op : U8) (fl : Flow) (n len : ℕ) (src : Source) : Prop where
  flow : flow op = fl
  fixed : fl = .next ∨ fl = .jump ∨ fl = .call
  cond : stackCondition op = none
  length : opcodeLength op = len
  source : source op = src
  cost : opcodeCycles op = 3 * (n + 1) + slack op

instance {fl : Flow} {n len : ℕ} {src : Source} : Decidable (Shape op fl n len src) :=
  decidable_of_iff (I8080.flow op = fl ∧ (fl = .next ∨ fl = .jump ∨ fl = .call) ∧
    stackCondition op = none ∧ opcodeLength op = len ∧ I8080.source op = src ∧
    opcodeCycles op = 3 * (n + 1) + slack op)
    ⟨fun ⟨h₁, h₂, h₃, h₄, h₅, h₆⟩ => ⟨h₁, h₂, h₃, h₄, h₅, h₆⟩,
      fun ⟨h₁, h₂, h₃, h₄, h₅, h₆⟩ => ⟨h₁, h₂, h₃, h₄, h₅, h₆⟩⟩

/-- A run of such an opcode. -/
structure Follows (op : U8) (fl : Flow) (n len : ℕ) (src : Source) (cpu : I8080)
    (es : List BusEvent) (r : ℕ × I8080) : Prop where
  cost : r.1 = opcodeCycles op
  length : es.length = n
  operand : (es.take (len - 1)).map Sigma.fst = operandReads len cpu.pc
  data : memReads (es.drop (len - 1)) = src.reads cpu.toRegs (operandWord es)
  pc : fl = .next → r.2.pc = afterOperand len cpu.pc
  pushed : fl = .call → memWrites es = pushWrites cpu.sp (afterOperand len cpu.pc)
  psw : Normalised cpu.f → Normalised r.2.f

theorem Shape.effect {fl : Flow} {n len : ℕ} {src : Source} {es : List BusEvent} {r : ℕ × I8080}
    (h : Shape op fl n len src) (hr : Follows op fl n len src cpu es r) : Effect op cpu es r := by
  refine ⟨?_, ?_, ?_, fun ht => ?_, fun hp => ?_, fun cc hcc => ?_, hr.psw⟩
  · rw [hr.cost, hr.length]
    exact h.cost
  · rw [h.length]
    exact hr.operand
  · rw [h.length, h.source]
    exact hr.data
  · rw [h.flow] at ht
    rw [h.length]
    rcases h.fixed with hfl | hfl | hfl
    · exact hr.pc hfl
    · rw [hfl] at ht
      cases ht
    · rw [hfl] at ht
      cases ht
  · rw [h.flow] at hp
    rw [h.length]
    rcases h.fixed with hfl | hfl | hfl
    · rw [hfl] at hp
      cases hp
    · rw [hfl] at hp
      cases hp
    · exact hr.pushed hfl
  · rw [h.cond] at hcc
    cases hcc

theorem Shape.wp (fl : Flow) (n len : ℕ) (src : Source) {p : CpuM ℕ} (h : Shape op fl n len src)
    (hp : (p.run cpu).wp (Follows op fl n len src cpu)) : (p.run cpu).wp (Effect op cpu) :=
  Prog.wp_mono (fun _ _ => h.effect) hp

/-! ## The flag byte -/

/-- What the writes of the interpreter make of the flag byte. -/
theorem normalised_writes : ∀ f : U8, Normalised (f &&& F_MASK ||| F_ONE) ∧
    (Normalised f → f &&& F_MASK ||| F_ONE = f ∧ ∀ on : Bool,
      Normalised (if on then f ||| F_C else f &&& ~~~F_C) ∧
        Normalised (if on then f ||| F_AC else f &&& ~~~F_AC)) := by
  unfold Normalised
  decide +kernel

theorem normalised_mask (f : U8) : Normalised (f &&& F_MASK ||| F_ONE) := (normalised_writes f).1

theorem mask_of_normalised {f : U8} (h : Normalised f) : f &&& F_MASK ||| F_ONE = f :=
  ((normalised_writes f).2 h).1

theorem normalised_setSzp (r : Regs) (v : U8) : Normalised (r.setSzp v).f := normalised_mask _

theorem normalised_setFlag_C {r : Regs} {on : Bool} (h : Normalised r.f) :
    Normalised (r.setFlag F_C on).f :=
  (((normalised_writes r.f).2 h).2 on).1

theorem normalised_setFlag_AC {r : Regs} {on : Bool} (h : Normalised r.f) :
    Normalised (r.setFlag F_AC on).f :=
  (((normalised_writes r.f).2 h).2 on).2

theorem normalised_aluAdd (r : Regs) (val : U8) (cy : Bool) : Normalised (r.aluAdd val cy).f :=
  normalised_setSzp _ _

/-- The accumulator operations normalise the flag byte. -/
theorem normalised_aluOp (r : Regs) (o val : U8) : Normalised (r.aluOp o val).f := by
  have hlogic (r : Regs) (v : U8) (ac : Bool) :
      Normalised (((r.setSzp v).setFlag F_C false).setFlag F_AC ac).f :=
    normalised_setFlag_AC (normalised_setFlag_C (normalised_setSzp r v))
  unfold Regs.aluOp
  split
  · exact normalised_aluAdd _ _ _
  · exact normalised_aluAdd _ _ _
  · exact normalised_setFlag_C (normalised_aluAdd _ _ _)
  · exact normalised_setFlag_C (normalised_aluAdd _ _ _)
  · exact hlogic _ _ _
  · exact hlogic _ _ _
  · exact hlogic _ _ _
  · exact normalised_setFlag_C (normalised_aluAdd _ _ _)

theorem normalised_aluDaa (r : Regs) : Normalised r.aluDaa.f :=
  normalised_setFlag_C (normalised_aluAdd _ _ _)

/-- Nor do they move the program counter. -/
theorem pc_aluOp (r : Regs) (o val : U8) : (r.aluOp o val).pc = r.pc := by
  unfold Regs.aluOp
  split
  all_goals rfl

/-! ## The regular blocks -/

theorem memReads_append (es es' : List BusEvent) :
    memReads (es ++ es') = memReads es ++ memReads es' := List.filterMap_append

/-- A register operand: one read through HL if it is M, and otherwise no call. -/
theorem wp_regGet {i : U8} {Q : List BusEvent → U8 × I8080 → Prop}
    (h : ∀ es v cpu', memReads es = (if i = 6 then [(cpu.getHl, CYC_MEMR)] else []) →
      es.length = (if i = 6 then 1 else 0) → cpu'.toRegs = cpu.toRegs → Q es (v, cpu')) :
    ((regGet i).run cpu).wp Q := by
  rw [regGet, StateT.run_bind, Prog.wp_bind]
  by_cases hi : i = 6
  · subst hi
    exact fun v => h _ _ _ rfl rfl rfl
  · rw [if_neg hi, if_neg hi] at h
    split
    all_goals first
      | exact absurd rfl hi
      | exact h _ _ _ rfl rfl rfl

/-- A register destination: one write through HL if it is M, and otherwise no call. Neither the
flags nor the program counter change. -/
theorem wp_regSet {i v : U8} {Q : List BusEvent → Unit × I8080 → Prop}
    (h : ∀ es u cpu', memReads es = [] → es.length = (if i = 6 then 1 else 0) →
      cpu'.f = cpu.f → cpu'.pc = cpu.pc → Q es (u, cpu')) : ((regSet i v).run cpu).wp Q := by
  by_cases hi : i = 6
  · subst hi
    exact fun _ => h _ _ _ rfl rfl rfl rfl
  · rw [if_neg hi] at h
    unfold regSet
    split
    all_goals first
      | exact absurd rfl hi
      | exact h _ _ _ rfl rfl rfl rfl

theorem wp_fetch8 {Q : List BusEvent → U8 × I8080 → Prop}
    (h : ∀ v cpu', cpu'.toRegs = { cpu.toRegs with pc := cpu.pc + 1 } →
      Q [⟨.read cpu.pc CYC_MEMR, v⟩] (v, cpu')) : (fetch8.run cpu).wp Q :=
  fun v => h v _ rfl

theorem wp_fetch16 {Q : List BusEvent → U16 × I8080 → Prop}
    (h : ∀ lo hi cpu', cpu'.toRegs = { cpu.toRegs with pc := cpu.pc + 1 + 1 } →
      Q [⟨.read cpu.pc CYC_MEMR, lo⟩, ⟨.read (cpu.pc + 1) CYC_MEMR, hi⟩] (word hi lo, cpu')) :
    (fetch16.run cpu).wp Q :=
  fun lo hi => h lo hi _ rfl

/-- A test of a condition. -/
theorem wp_condTrue {α : Type} {cc : U8} {p q : CpuM α} {Q : List BusEvent → α × I8080 → Prop}
    (ht : cpu.condTrue cc = true → (p.run cpu).wp Q)
    (hf : cpu.condTrue cc = false → (q.run cpu).wp Q) :
    ((do if (← regs).condTrue cc then p else q : CpuM α).run cpu).wp Q := by
  change Prog.wp (StateT.run (if cpu.condTrue cc then p else q) cpu) Q
  cases hc : cpu.condTrue cc with
  | true => exact ht hc
  | false => exact hf hc

theorem Source.reads_ite (m : Prop) [Decidable m] (r : Regs) (w : U16) :
    (if m then Source.hl else .none).reads r w = if m then [(r.getHl, CYC_MEMR)] else [] := by
  split
  · rfl
  · rfl

/-- The opcodes of a block that goes on to the next instruction: `len` instruction bytes, a read
through HL if `m` holds, and one more call if `m'` does. -/
abbrev Block (op : U8) (len : ℕ) (m m' : Prop) [Decidable m] [Decidable m'] : Prop :=
  Shape op .next ((len - 1) + (if m then 1 else 0) + (if m' then 1 else 0)) len
    (if m then .hl else .none)

theorem Block.effect {len : ℕ} {m m' : Prop} [Decidable m] [Decidable m'] (h : Block op len m m')
    {es : List BusEvent} {cpu' : I8080}
    (hlen : es.length = (len - 1) + (if m then 1 else 0) + (if m' then 1 else 0))
    (hoperand : (es.take (len - 1)).map Sigma.fst = operandReads len cpu.pc)
    (hdata : memReads (es.drop (len - 1)) = if m then [(cpu.getHl, CYC_MEMR)] else [])
    (hpc : cpu'.pc = afterOperand len cpu.pc) (hpsw : Normalised cpu.f → Normalised cpu'.f) :
    Effect op cpu es (opcodeCycles op, cpu') :=
  Shape.effect h ⟨rfl, hlen, hoperand, by rw [Source.reads_ite]; exact hdata, fun _ => hpc, nofun,
    hpsw⟩

theorem effect_mov (h : Block op 1 (op &&& 7 = 6) (field3 op = 6)) :
    ((do regSet (field3 op) (← regGet (op &&& 7)); return opcodeCycles op : CpuM ℕ).run cpu).wp
      (Effect op cpu) := by
  rw [StateT.run_bind, Prog.wp_bind]
  refine wp_regGet fun es v cpu' hr hl hregs => ?_
  rw [StateT.run_bind, Prog.wp_bind]
  refine wp_regSet fun es' u cpu'' hr' hl' hf hpc => ?_
  refine Block.effect h ?_ rfl ?_ ?_ ?_
  · rw [List.append_nil, List.length_append, hl, hl']
    omega
  · change memReads (es ++ (es' ++ [])) = _
    rw [memReads_append, memReads_append, hr, hr']
    exact List.append_nil _
  · rw [hpc, hregs]
    rfl
  · rw [hf, hregs]
    exact id

theorem effect_alu (h : Block op 1 (op &&& 7 = 6) False) :
    ((do let v ← regGet (op &&& 7); modifyRegs (·.aluOp (field3 op) v); return opcodeCycles op :
      CpuM ℕ).run cpu).wp (Effect op cpu) := by
  rw [StateT.run_bind, Prog.wp_bind]
  refine wp_regGet fun es v cpu' hr hl hregs => ?_
  change Effect op cpu (es ++ []) _
  rw [List.append_nil]
  have hpc : (cpu'.aluOp (field3 op) v).pc = cpu'.pc := pc_aluOp _ _ _
  refine Block.effect h ?_ rfl ?_ ?_ fun _ => normalised_aluOp _ _ _
  · rw [hl, if_neg not_false]
    omega
  · exact hr
  · change (cpu'.aluOp (field3 op) v).pc = cpu.pc
    rw [hpc, hregs]

/-- INR and DCR read their register, set the flags, and write it back. -/
theorem effect_step (h : Block op 1 (field3 op = 6) (field3 op = 6)) (f : U8 → U8)
    (g : U8 → Regs → Regs) (hg : ∀ v r, (g v r).pc = r.pc ∧ Normalised (g v r).f) :
    (((do let v ← regGet (field3 op); modifyRegs (g v); regSet (field3 op) (f v) : CpuM Unit) >>=
      fun _ => pure (opcodeCycles op)).run cpu).wp (Effect op cpu) := by
  rw [StateT.run_bind, Prog.wp_bind, StateT.run_bind, Prog.wp_bind]
  refine wp_regGet fun es v cpu' hr hl hregs => ?_
  change Prog.wp ((regSet (field3 op) (f v)).run { cpu' with toRegs := g v cpu'.toRegs }) _
  refine wp_regSet fun es' u cpu'' hr' hl' hf hpc => ?_
  change Effect op cpu (es ++ es' ++ []) _
  rw [List.append_nil]
  refine Block.effect h ?_ rfl ?_ ?_ ?_
  · rw [List.length_append, hl, hl']
    omega
  · change memReads (es ++ es') = _
    rw [memReads_append, hr, hr']
    exact List.append_nil _
  · rw [hpc]
    calc (g v cpu'.toRegs).pc = cpu'.toRegs.pc := (hg v cpu'.toRegs).1
      _ = cpu.pc := congrArg Regs.pc hregs
  · rw [hf]
    exact fun _ => (hg v cpu'.toRegs).2

theorem effect_mvi (h : Block op 2 False (field3 op = 6)) :
    ((do let imm ← fetch8; regSet (field3 op) imm; return opcodeCycles op : CpuM ℕ).run cpu).wp
      (Effect op cpu) := by
  rw [StateT.run_bind, Prog.wp_bind]
  refine wp_fetch8 fun imm cpu' hregs => ?_
  rw [StateT.run_bind, Prog.wp_bind]
  refine wp_regSet fun es u cpu'' hr hl hf hpc => ?_
  change Effect op cpu (⟨.read cpu.pc CYC_MEMR, imm⟩ :: (es ++ [])) _
  rw [List.append_nil]
  refine Block.effect h ?_ rfl ?_ ?_ ?_
  · rw [List.length_cons, hl, if_neg not_false]
    omega
  · exact hr
  · rw [hpc, hregs]
    rfl
  · rw [hf, hregs]
    exact id

theorem effect_aluImmediate (h : Block op 2 False False) :
    ((do let v ← fetch8; modifyRegs (·.aluOp (field3 op) v); return opcodeCycles op :
      CpuM ℕ).run cpu).wp (Effect op cpu) :=
  fun _ => Block.effect h rfl rfl rfl (pc_aluOp _ _ _) fun _ => normalised_aluOp _ _ _

/-- The tables, for RST and for the conditional jumps, calls and returns. -/
theorem control_table : ∀ op : U8,
    (op &&& 0xC7 = 0xC7 → flow op = .call ∧ stackCondition op = none ∧
      opcodeLength op = 1 ∧ source op = .none ∧ opcodeCycles op = 3 * 3 + slack op) ∧
    (op &&& 0xC7 = 0xC2 → flow op = .jumpIf (field3 op) ∧ stackCondition op = none ∧
      opcodeLength op = 3 ∧ source op = .none ∧ opcodeCycles op = 3 * 3 + slack op) ∧
    (op &&& 0xC7 = 0xC4 → flow op = .callIf (field3 op) ∧
      stackCondition op = some (field3 op) ∧ opcodeLength op = 3 ∧ source op = .none ∧
      opcodeCycles op = 11 ∧ slack op = 2) ∧
    (op &&& 0xC7 = 0xC0 → flow op = .jumpIf (field3 op) ∧
      stackCondition op = some (field3 op) ∧ opcodeLength op = 1 ∧
      source op = .stackIf (field3 op) ∧ opcodeCycles op = 5 ∧ slack op = 2) := by
  decide +kernel

theorem effect_rst (hop : op &&& 0xC7 = 0xC7) : ((do
      push16 (← regs).pc
      modifyRegs fun r => { r with pc := (op &&& 0x38).setWidth 16 }
      return opcodeCycles op : CpuM ℕ).run cpu).wp (Effect op cpu) := by
  obtain ⟨hflow, hcond, hlen, hsource, hcost⟩ := (control_table op).1 hop
  intro u u'
  refine ⟨hcost, ?_, ?_, ?_, ?_, ?_, id⟩
  · rw [hlen]
    rfl
  · rw [hlen, hsource]
    rfl
  · rw [hflow]
    exact fun h => absurd h Bool.false_ne_true.symm
  · rw [hlen]
    exact fun _ => rfl
  · rw [hcond]
    exact fun _ h => absurd h (Option.not_mem_none _)

theorem effect_jumpIf (hop : op &&& 0xC7 = 0xC2) : ((do
      let a ← fetch16
      if (← regs).condTrue (field3 op) then modifyRegs fun r => { r with pc := a }
      return opcodeCycles op : CpuM ℕ).run cpu).wp (Effect op cpu) := by
  obtain ⟨hflow, hcond, hlen, hsource, hcost⟩ := (control_table op).2.1 hop
  rw [StateT.run_bind, Prog.wp_bind]
  refine wp_fetch16 fun lo hi cpu' hregs => ?_
  have hcc : cpu'.condTrue (field3 op) = cpu.condTrue (field3 op) := by rw [hregs]; rfl
  have heffect (cpu'' : I8080) (hpc : cpu.condTrue (field3 op) = false → cpu''.pc = cpu'.pc)
      (hf : cpu''.f = cpu'.f) : Effect op cpu
        [⟨.read cpu.pc CYC_MEMR, lo⟩, ⟨.read (cpu.pc + 1) CYC_MEMR, hi⟩]
        (opcodeCycles op, cpu'') := by
    refine ⟨hcost, ?_, ?_, ?_, ?_, ?_, ?_⟩
    · rw [hlen]
      rfl
    · rw [hlen, hsource]
      rfl
    · rw [hflow, hlen]
      intro h
      rw [hpc h]
      exact congrArg Regs.pc hregs
    · rw [hflow]
      exact fun h => absurd h Bool.false_ne_true
    · rw [hcond]
      exact fun _ h => absurd h (Option.not_mem_none _)
    · rw [hf, hregs]
      exact id
  refine wp_condTrue (fun hc => ?_) (fun _ => heffect _ (fun _ => rfl) rfl)
  exact heffect _ (fun h => absurd (by rw [← hcc, hc]) (h ▸ Bool.false_ne_true)) rfl

/-- What a conditional opcode pays for its condition. -/
theorem taken_of_condition {cc : U8} {cyc n : ℕ} (hcond : stackCondition op = some cc)
    (hcyc : cyc = opcodeCycles op + 3 * n) (hn : n = if cpu.condTrue cc then 2 else 0) :
    ∀ c ∈ stackCondition op, cyc = opcodeCycles op + 3 * n ∧
      n = if cpu.condTrue c then 2 else 0 := by
  intro c hc
  rw [hcond] at hc
  cases hc
  exact ⟨hcyc, hn⟩

theorem effect_callIf (hop : op &&& 0xC7 = 0xC4) : ((do
      let a ← fetch16
      if (← regs).condTrue (field3 op) then
        push16 (← regs).pc
        modifyRegs fun r => { r with pc := a }
        return 17
      else return opcodeCycles op : CpuM ℕ).run cpu).wp (Effect op cpu) := by
  obtain ⟨hflow, hcond, hlen, hsource, hcost, hslack⟩ := (control_table op).2.2.1 hop
  rw [StateT.run_bind, Prog.wp_bind]
  refine wp_fetch16 fun lo hi cpu' hregs => ?_
  have hcc : cpu'.condTrue (field3 op) = cpu.condTrue (field3 op) := by rw [hregs]; rfl
  have hpc : cpu'.pc = cpu.pc + 1 + 1 := by rw [hregs]
  have hsp : cpu'.sp = cpu.sp := by rw [hregs]
  refine wp_condTrue (fun hc => ?_) (fun hc => ?_)
  · intro u u'
    refine ⟨?_, ?_, ?_, ?_, ?_, ?_, ?_⟩
    · rw [hslack]
      rfl
    · rw [hlen]
      rfl
    · rw [hlen, hsource]
      rfl
    · rw [hflow]
      rw [hcc] at hc
      exact fun h => absurd hc (ne_true_of_eq_false h)
    · rw [hlen, ← hsp]
      change _ → pushWrites cpu'.sp cpu'.pc = _
      rw [hpc]
      exact fun _ => rfl
    · exact taken_of_condition hcond (hcost ▸ rfl) (if_pos (by rw [← hcc, hc])).symm
    · change _ → Normalised cpu'.f
      rw [hregs]
      exact id
  · refine ⟨?_, ?_, ?_, ?_, ?_, ?_, ?_⟩
    · rw [hslack]
      exact hcost
    · rw [hlen]
      rfl
    · rw [hlen, hsource]
      rfl
    · rw [hlen]
      exact fun _ => hpc
    · rw [hflow]
      rw [hcc] at hc
      exact fun h => absurd h (ne_true_of_eq_false hc)
    · exact taken_of_condition hcond rfl
        (if_neg (ne_true_of_eq_false (by rw [← hcc, hc]))).symm
    · change _ → Normalised cpu'.f
      rw [hregs]
      exact id

theorem effect_retIf (hop : op &&& 0xC7 = 0xC0) : ((do
      if (← regs).condTrue (field3 op) then
        let a ← pop16
        modifyRegs fun r => { r with pc := a }
        return 11
      else return opcodeCycles op : CpuM ℕ).run cpu).wp (Effect op cpu) := by
  obtain ⟨hflow, hcond, hlen, hsource, hcost, hslack⟩ := (control_table op).2.2.2 hop
  refine wp_condTrue (fun hc => ?_) (fun hc => ?_)
  · intro lo hi
    refine ⟨?_, ?_, ?_, ?_, ?_, ?_, id⟩
    · rw [hslack]
      rfl
    · rw [hlen]
      rfl
    · rw [hlen, hsource, Source.reads, if_pos hc]
      rfl
    · rw [hflow]
      exact fun h => absurd hc (ne_true_of_eq_false h)
    · rw [hflow]
      exact fun h => absurd h Bool.false_ne_true
    · exact taken_of_condition hcond (hcost ▸ rfl) (if_pos hc).symm
  · refine ⟨?_, ?_, ?_, ?_, ?_, ?_, id⟩
    · rw [hslack]
      exact hcost
    · rw [hlen]
      rfl
    · rw [hlen, hsource, Source.reads, if_neg (ne_true_of_eq_false hc)]
      rfl
    · rw [hlen]
      exact fun _ => rfl
    · rw [hflow]
      exact fun h => absurd h Bool.false_ne_true
    · exact taken_of_condition hcond rfl (if_neg (ne_true_of_eq_false hc)).symm

/-- The opcodes of the regular blocks. -/
def regular (op : U8) : Bool :=
  (0x40 ≤ op && op ≤ 0xBF && op != 0x76) ||
    [0x04, 0x05, 0x06, 0xC6, 0xC7, 0xC2, 0xC4, 0xC0].contains (op &&& 0xC7)

/-- **The regular blocks.** -/
theorem executeBlock_effect (hop : regular op = true) :
    ((executeBlock op (opcodeCycles op)).run cpu).wp (Effect op cpu) := by
  rw [executeBlock]
  by_cases hmov : 0x40#8 ≤ op ∧ op ≤ 0x7F#8
  · have htable : ∀ op : U8, regular op = true → 0x40#8 ≤ op ∧ op ≤ 0x7F#8 →
        Block op 1 (op &&& 7 = 6) (field3 op = 6) := by decide +kernel
    rw [if_pos hmov]
    exact effect_mov (htable op hop hmov)
  by_cases halu : 0x80#8 ≤ op ∧ op ≤ 0xBF#8
  · have htable : ∀ op : U8, 0x80#8 ≤ op ∧ op ≤ 0xBF#8 → Block op 1 (op &&& 7 = 6) False := by
      decide +kernel
    rw [if_neg hmov, if_pos halu]
    exact effect_alu (htable op halu)
  rw [if_neg hmov, if_neg halu]
  by_cases hinr : op &&& 0xC7#8 = 0x04#8
  · have htable : ∀ op : U8, op &&& 0xC7#8 = 0x04#8 →
        Block op 1 (field3 op = 6) (field3 op = 6) := by decide +kernel
    rw [if_pos hinr]
    exact effect_step (htable op hinr) (· + 1)
      (fun v r => (r.setFlag F_AC (v + 1 &&& 0x0F == 0x00)).setSzp (v + 1))
      fun v r => ⟨rfl, normalised_setSzp _ _⟩
  rw [if_neg hinr]
  by_cases hdcr : op &&& 0xC7#8 = 0x05#8
  · have htable : ∀ op : U8, op &&& 0xC7#8 = 0x05#8 →
        Block op 1 (field3 op = 6) (field3 op = 6) := by decide +kernel
    rw [if_pos hdcr]
    exact effect_step (htable op hdcr) (· - 1)
      (fun v r => (r.setFlag F_AC (v - 1 &&& 0x0F != 0x0F)).setSzp (v - 1))
      fun v r => ⟨rfl, normalised_setSzp _ _⟩
  rw [if_neg hdcr]
  by_cases hmvi : op &&& 0xC7#8 = 0x06#8
  · have htable : ∀ op : U8, op &&& 0xC7#8 = 0x06#8 → Block op 2 False (field3 op = 6) := by
      decide +kernel
    rw [if_pos hmvi]
    exact effect_mvi (htable op hmvi)
  rw [if_neg hmvi]
  by_cases halui : op &&& 0xC7#8 = 0xC6#8
  · have htable : ∀ op : U8, op &&& 0xC7#8 = 0xC6#8 → Block op 2 False False := by decide +kernel
    rw [if_pos halui]
    exact effect_aluImmediate (htable op halui)
  rw [if_neg halui]
  by_cases hrst : op &&& 0xC7#8 = 0xC7#8
  · rw [if_pos hrst]
    exact effect_rst hrst
  rw [if_neg hrst]
  by_cases hjcc : op &&& 0xC7#8 = 0xC2#8
  · rw [if_pos hjcc]
    exact effect_jumpIf hjcc
  rw [if_neg hjcc]
  by_cases hccc : op &&& 0xC7#8 = 0xC4#8
  · rw [if_pos hccc]
    exact effect_callIf hccc
  rw [if_neg hccc]
  by_cases hrcc : op &&& 0xC7#8 = 0xC0#8
  · rw [if_pos hrcc]
    exact effect_retIf hrcc
  · have htable : ∀ op : U8, regular op = true → 0x40#8 ≤ op ∧ op ≤ 0x7F#8 ∨
        0x80#8 ≤ op ∧ op ≤ 0xBF#8 ∨ op &&& 0xC7#8 = 0x04#8 ∨ op &&& 0xC7#8 = 0x05#8 ∨
        op &&& 0xC7#8 = 0x06#8 ∨ op &&& 0xC7#8 = 0xC6#8 ∨ op &&& 0xC7#8 = 0xC7#8 ∨
        op &&& 0xC7#8 = 0xC2#8 ∨ op &&& 0xC7#8 = 0xC4#8 ∨ op &&& 0xC7#8 = 0xC0#8 := by
      decide +kernel
    have := htable op hop
    tauto

/-! ## The opcodes with a case of their own -/

/-- INX and DCX, CMA, XCHG, SPHL, DI and EI, HLT, NOP. -/
def registerOps : List U8 :=
  [0x03, 0x13, 0x23, 0x33, 0x0B, 0x1B, 0x2B, 0x3B, 0x2F, 0xEB, 0xF9, 0xF3, 0xFB, 0x76, 0x00, 0x08,
    0x10, 0x18, 0x20, 0x28, 0x30, 0x38]

theorem effect_registers (hop : op ∈ registerOps) :
    ((execute op).run cpu).wp (Effect op cpu) := by
  fin_cases hop
  all_goals exact Shape.wp .next 0 1 .none (by decide) ⟨rfl, rfl, rfl, rfl, fun _ => rfl, nofun, id⟩

/-- DAD, the rotates, STC and CMC move the carry flag only; DAA is an addition. -/
def flagOps : List U8 := [0x09, 0x19, 0x29, 0x39, 0x07, 0x0F, 0x17, 0x1F, 0x37, 0x3F, 0x27]

theorem effect_flags (hop : op ∈ flagOps) : ((execute op).run cpu).wp (Effect op cpu) := by
  fin_cases hop
  iterate 10
    exact Shape.wp .next 0 1 .none (by decide)
      ⟨rfl, rfl, rfl, rfl, fun _ => rfl, nofun, normalised_setFlag_C⟩
  · exact Shape.wp .next 0 1 .none (by decide)
      ⟨rfl, rfl, rfl, rfl, fun _ => rfl, nofun, fun _ => normalised_aluDaa _⟩

/-- STAX and LDAX, LXI, SHLD and LHLD, STA and LDA. -/
def memoryOps : List U8 :=
  [0x02, 0x12, 0x0A, 0x1A, 0x01, 0x11, 0x21, 0x31, 0x22, 0x2A, 0x32, 0x3A]

theorem effect_memory (hop : op ∈ memoryOps) : ((execute op).run cpu).wp (Effect op cpu) := by
  fin_cases hop
  · exact Shape.wp .next 1 1 .none (by decide)
      fun _ => ⟨rfl, rfl, rfl, rfl, fun _ => rfl, nofun, id⟩
  · exact Shape.wp .next 1 1 .none (by decide)
      fun _ => ⟨rfl, rfl, rfl, rfl, fun _ => rfl, nofun, id⟩
  · exact Shape.wp .next 1 1 .bc (by decide) fun _ => ⟨rfl, rfl, rfl, rfl, fun _ => rfl, nofun, id⟩
  · exact Shape.wp .next 1 1 .de (by decide) fun _ => ⟨rfl, rfl, rfl, rfl, fun _ => rfl, nofun, id⟩
  iterate 4
    exact Shape.wp .next 2 3 .none (by decide)
      fun _ _ => ⟨rfl, rfl, rfl, rfl, fun _ => rfl, nofun, id⟩
  · exact Shape.wp .next 4 3 .none (by decide)
      fun _ _ _ _ => ⟨rfl, rfl, rfl, rfl, fun _ => rfl, nofun, id⟩
  · exact Shape.wp .next 4 3 .direct16 (by decide)
      fun _ _ _ _ => ⟨rfl, rfl, rfl, rfl, fun _ => rfl, nofun, id⟩
  · exact Shape.wp .next 3 3 .none (by decide)
      fun _ _ _ => ⟨rfl, rfl, rfl, rfl, fun _ => rfl, nofun, id⟩
  · exact Shape.wp .next 3 3 .direct (by decide)
      fun _ _ _ => ⟨rfl, rfl, rfl, rfl, fun _ => rfl, nofun, id⟩

/-- POP and PUSH, XTHL, IN and OUT. -/
def stackOps : List U8 := [0xC1, 0xD1, 0xE1, 0xF1, 0xC5, 0xD5, 0xE5, 0xF5, 0xE3, 0xDB, 0xD3]

theorem effect_stack (hop : op ∈ stackOps) : ((execute op).run cpu).wp (Effect op cpu) := by
  fin_cases hop
  iterate 3
    exact Shape.wp .next 2 1 .stack (by decide)
      fun _ _ => ⟨rfl, rfl, rfl, rfl, fun _ => rfl, nofun, id⟩
  · exact Shape.wp .next 2 1 .stack (by decide)
      fun _ _ => ⟨rfl, rfl, rfl, rfl, fun _ => rfl, nofun, fun _ => normalised_mask _⟩
  iterate 4
    exact Shape.wp .next 2 1 .none (by decide)
      fun _ _ => ⟨rfl, rfl, rfl, rfl, fun _ => rfl, nofun, id⟩
  · exact Shape.wp .next 4 1 .stack (by decide)
      fun _ _ _ _ => ⟨rfl, rfl, rfl, rfl, fun _ => rfl, nofun, id⟩
  iterate 2
    exact Shape.wp .next 2 2 .none (by decide)
      fun _ _ => ⟨rfl, rfl, rfl, rfl, fun _ => rfl, nofun, id⟩

/-- PCHL, JMP, RET and CALL. -/
def jumpOps : List U8 := [0xE9, 0xC3, 0xCB, 0xC9, 0xD9, 0xCD, 0xDD, 0xED, 0xFD]

theorem effect_jumps (hop : op ∈ jumpOps) : ((execute op).run cpu).wp (Effect op cpu) := by
  fin_cases hop
  · exact Shape.wp .jump 0 1 .none (by decide) ⟨rfl, rfl, rfl, rfl, nofun, nofun, id⟩
  iterate 2
    exact Shape.wp .jump 2 3 .none (by decide) fun _ _ => ⟨rfl, rfl, rfl, rfl, nofun, nofun, id⟩
  iterate 2
    exact Shape.wp .jump 2 1 .stack (by decide) fun _ _ => ⟨rfl, rfl, rfl, rfl, nofun, nofun, id⟩
  iterate 4
    exact Shape.wp .call 4 3 .none (by decide)
      fun _ _ _ _ => ⟨rfl, rfl, rfl, rfl, nofun, fun _ => rfl, id⟩

/-! ## Every opcode -/

theorem execute_of_regular (hop : regular op = true) :
    execute op = executeBlock op (opcodeCycles op) := by
  unfold execute
  split
  all_goals first
    | exact absurd hop (by decide)
    | rfl

/-- **What every opcode does.** -/
theorem execute_effect (op : U8) (cpu : I8080) : ((execute op).run cpu).wp (Effect op cpu) := by
  by_cases hop : regular op = true
  · rw [execute_of_regular hop]
    exact executeBlock_effect hop
  · have hlists : ∀ op : U8, regular op ≠ true → op ∈ registerOps ∨ op ∈ flagOps ∨
        op ∈ memoryOps ∨ op ∈ stackOps ∨ op ∈ jumpOps := by decide +kernel
    rcases hlists op hop with h | h | h | h | h
    · exact effect_registers h
    · exact effect_flags h
    · exact effect_memory h
    · exact effect_stack h
    · exact effect_jumps h

end I8080

end Umk80
