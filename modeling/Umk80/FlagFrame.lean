import Umk80.Psw

/-!
# Which flags an instruction changes

The helpers behind the flag byte write more of it than some of their callers may change: `set_szp`
rewrites the whole byte, and `alu_add` serves CMP and DAA too. Programs rely on what is left alone.
A sum of several bytes keeps its carry in the flag byte while INX moves a pointer, DCR counts down
and MOV loads the next byte.

`flagsOf` gives for each opcode the flags that it may change. Leaving the other flags alone is
closed under sequencing, so one walk over the interpreter shows it of every opcode, and one
induction of every run.

## Main definitions

* `I8080.flagsOf` — the flags that an opcode may change
* `I8080.Framed`, `I8080.Frames` — the flag byte is the same outside a mask
* `I8080.FlagFrame` — what an instruction leaves alone

## Main results

* `I8080.frames_execute` — every opcode changes its own flags only
* `I8080.flagFrame` — every step, on every bus
* `I8080.framed_run`, `I8080.carry_run` — what survives a run
-/

namespace Umk80

open Interaction Runs

namespace I8080

/-! ## The flags of an opcode -/

/-- INR and DCR, of a register or of memory. -/
def isInrDcr (op : U8) : Bool := op &&& 0xC6 == 0x04

/-- DAD; RLC, RRC, RAL and RAR; STC and CMC. -/
def isCarryOp (op : U8) : Bool :=
  op &&& 0xCF == 0x09 || op &&& 0xE7 == 0x07 || op &&& 0xF7 == 0x37

/-- The eight operations on A, with a register, with memory or immediate. -/
def isAlu (op : U8) : Bool := op &&& 0xC0 == 0x80 || op &&& 0xC7 == 0xC6

/-- CMP and CPI. -/
def isCompare (op : U8) : Bool := op &&& 0xF8 == 0xB8 || op == 0xFE

/-- The flags that an opcode may change. -/
def flagsOf (op : U8) : U8 :=
  if isInrDcr op then F_S ||| F_Z ||| F_P ||| F_AC
  else if isCarryOp op then F_C
  else if isAlu op || op == 0x27 || op == 0xF1 then F_MASK    -- 27H is DAA, F1H is POP PSW
  else 0

example : ∀ op : U8,
    isInrDcr op = [0x04#8, 0x0C, 0x14, 0x1C, 0x24, 0x2C, 0x34, 0x3C, 0x05, 0x0D, 0x15, 0x1D, 0x25,
      0x2D, 0x35, 0x3D].contains op ∧
    isCarryOp op = [0x09#8, 0x19, 0x29, 0x39, 0x07, 0x0F, 0x17, 0x1F, 0x37, 0x3F].contains op := by
  decide +kernel

theorem flagsOf_carryOp : ∀ op : U8, isCarryOp op = true → flagsOf op = F_C := by decide +kernel

theorem flagsOf_other : ∀ op : U8, isInrDcr op = false → isCarryOp op = false → isAlu op = false →
    op ≠ 0x27 → op ≠ 0xF1 → flagsOf op = 0 := by
  decide +kernel

variable {α β : Type} {m m' f f' f'' : U8}

/-! ## A flag byte outside a mask -/

/-- A normalised flag byte stays normalised, and the same outside `m`. -/
def Framed (m f f' : U8) : Prop := Normalised f → Normalised f' ∧ f' &&& ~~~m = f &&& ~~~m

theorem Framed.refl (m f : U8) : Framed m f f := fun h => ⟨h, rfl⟩

theorem Framed.trans (h : Framed m f f') (h' : Framed m f' f'') : Framed m f f'' := by
  intro hf
  obtain ⟨hf', heq⟩ := h hf
  obtain ⟨hf'', heq'⟩ := h' hf'
  exact ⟨hf'', by rw [heq', heq]⟩

/-- What holds outside a mask holds outside a wider one. -/
theorem Framed.mono (h : Framed m f f') (hm : m ||| m' = m') : Framed m' f f' := by
  intro hf
  obtain ⟨hf', heq⟩ := h hf
  refine ⟨hf', ?_⟩
  rw [← hm, BitVec.not_or, ← BitVec.and_assoc, heq, BitVec.and_assoc]

/-- Flags that a mask leaves out. -/
theorem and_eq_of_frame (h : f' &&& ~~~m = f &&& ~~~m) {k : U8} (hk : ~~~m &&& k = k) :
    f' &&& k = f &&& k := by
  rw [← hk, ← BitVec.and_assoc, ← BitVec.and_assoc, h]

/-- Any normalised byte, outside the flags that exist. -/
theorem framed_of_normalised (h : Normalised f') : Framed F_MASK f f' :=
  fun hf => ⟨h, calc
    f' &&& ~~~F_MASK = 0x02 := h
    _ = f &&& ~~~F_MASK := hf.symm⟩

theorem framed_setFlag_C (r : Regs) (on : Bool) : Framed F_C r.f (r.setFlag F_C on).f := by
  have key : ∀ (f : U8) (on : Bool),
      (if on then f ||| F_C else f &&& ~~~F_C) &&& ~~~F_C = f &&& ~~~F_C := by
    decide +kernel
  exact fun hf => ⟨normalised_setFlag_C hf, key r.f on⟩

theorem framed_setFlag_AC (r : Regs) (on : Bool) : Framed F_AC r.f (r.setFlag F_AC on).f := by
  have key : ∀ (f : U8) (on : Bool),
      (if on then f ||| F_AC else f &&& ~~~F_AC) &&& ~~~F_AC = f &&& ~~~F_AC := by
    decide +kernel
  exact fun hf => ⟨normalised_setFlag_AC hf, key r.f on⟩

/-- `set_szp` rewrites the whole byte, but a normalised one only at S, Z and P. -/
theorem framed_setSzp (r : Regs) (v : U8) : Framed (F_S ||| F_Z ||| F_P) r.f (r.setSzp v).f := by
  have key : ∀ f : U8, f &&& 0x2A = 0x02 → ∀ sign zero parity : Bool,
      let f₁ := f &&& ~~~(F_S ||| F_Z ||| F_P)
      let f₂ := if sign then f₁ ||| F_S else f₁
      let f₃ := if zero then f₂ ||| F_Z else f₂
      let f₄ := if parity then f₃ ||| F_P else f₃
      (f₄ &&& F_MASK ||| F_ONE) &&& ~~~(F_S ||| F_Z ||| F_P) = f &&& ~~~(F_S ||| F_Z ||| F_P) := by
    decide +kernel
  exact fun hf => ⟨normalised_setSzp r v, key r.f hf (v &&& 0x80 != 0) (v == 0) (Regs.parity8 v)⟩

/-! ## Code that frames the flags -/

/-- Code that leaves the flags outside `m` alone. -/
def Frames (m : U8) (p : CpuM α) : Prop :=
  ∀ cpu : I8080, (p.run cpu).wp fun _ r => Framed m cpu.f r.2.f

theorem frames_pure (a : α) : Frames m (pure a : CpuM α) := fun _ => Framed.refl _ _

theorem frames_regs : Frames m regs := fun _ => Framed.refl _ _

theorem frames_modify {g : I8080 → I8080} (hg : ∀ cpu, Framed m cpu.f (g cpu).f) :
    Frames m (modify g : CpuM Unit) := hg

theorem frames_modifyRegs {g : Regs → Regs} (hg : ∀ r, Framed m r.f (g r).f) :
    Frames m (modifyRegs g) := fun cpu => hg cpu.toRegs

theorem frames_bind {p : CpuM α} {k : α → CpuM β} (hp : Frames m p) (hk : ∀ a, Frames m (k a)) :
    Frames m (p >>= k) := by
  intro cpu
  rw [StateT.run_bind, Prog.wp_bind]
  refine Prog.wp_mono (fun es r hr => ?_) (hp cpu)
  exact Prog.wp_mono (fun es' r' hr' => hr.trans hr') (hk r.1 r.2)

theorem frames_ite {c : Prop} [Decidable c] {p q : CpuM α} (hp : c → Frames m p)
    (hq : ¬ c → Frames m q) : Frames m (if c then p else q) := by
  split
  · exact hp ‹_›
  · exact hq ‹_›

theorem frames_busRd (a : U16) (st : U8) : Frames m (busRd a st) := fun _ _ => Framed.refl _ _

theorem frames_busWr (a : U16) (v st : U8) : Frames m (busWr a v st) := fun _ _ => Framed.refl _ _

theorem frames_busIn (port : U8) : Frames m (busIn port) := fun _ _ => Framed.refl _ _

theorem frames_busOut (port v : U8) : Frames m (busOut port v) := fun _ _ => Framed.refl _ _

theorem frames_fetch8 : Frames m fetch8 := fun _ _ => Framed.refl _ _

theorem frames_fetch16 : Frames m fetch16 := fun _ _ _ => Framed.refl _ _

theorem frames_push16 (v : U16) : Frames m (push16 v) := fun _ _ _ => Framed.refl _ _

theorem frames_pop16 : Frames m pop16 := fun _ _ _ => Framed.refl _ _

theorem frames_regGet (i : U8) : Frames m (regGet i) := by
  refine frames_bind frames_regs fun r => ?_
  split
  all_goals first | exact frames_pure _ | exact frames_busRd _ _

theorem frames_regSet (i v : U8) : Frames m (regSet i v) := by
  unfold regSet
  split
  all_goals first
    | exact frames_modifyRegs fun _ => Framed.refl _ _
    | exact frames_bind frames_regs fun _ => frames_busWr _ _ _

/-! ## Opcodes -/

/-- INR and DCR: `g` is what happens to the flags between reading the operand and writing it. -/
theorem frames_inrDcr {g : U8 → Regs → Regs} {i : U8} {res : U8 → U8}
    (hg : ∀ v r, ∃ on, g v r = (r.setFlag F_AC on).setSzp (res v)) :
    Frames (F_S ||| F_Z ||| F_P ||| F_AC)
      (do let v ← regGet i; modifyRegs (g v); regSet i (res v) : CpuM Unit) := by
  refine frames_bind (frames_regGet i) fun v => frames_bind (frames_modifyRegs fun r => ?_)
    fun _ => frames_regSet i _
  obtain ⟨on, hon⟩ := hg v r
  rw [hon]
  exact ((framed_setFlag_AC r on).mono rfl).trans ((framed_setSzp _ _).mono rfl)

theorem frames_aluInr (i : U8) : Frames (F_S ||| F_Z ||| F_P ||| F_AC) (aluInr i) :=
  frames_inrDcr fun _ _ => ⟨_, rfl⟩

theorem frames_aluDcr (i : U8) : Frames (F_S ||| F_Z ||| F_P ||| F_AC) (aluDcr i) :=
  frames_inrDcr fun _ _ => ⟨_, rfl⟩

theorem frames_executeBlock (op : U8) (cyc : ℕ) : Frames (flagsOf op) (executeBlock op cyc) := by
  have hinrDcr : ∀ op : U8, op &&& 0xC7#8 = 0x04#8 ∨ op &&& 0xC7#8 = 0x05#8 →
      flagsOf op = F_S ||| F_Z ||| F_P ||| F_AC := by
    decide +kernel
  have halu : ∀ op : U8, 0x80#8 ≤ op ∧ op ≤ 0xBF#8 ∨ op &&& 0xC7#8 = 0xC6#8 →
      flagsOf op = F_MASK := by
    decide +kernel
  have hop {v : U8} (h : flagsOf op = F_MASK) :
      Frames (flagsOf op) (modifyRegs (·.aluOp (field3 op) v)) := by
    rw [h]
    exact frames_modifyRegs fun r => framed_of_normalised (normalised_aluOp r _ _)
  unfold executeBlock
  refine frames_ite (fun _ => ?_) fun _ => ?_
  · exact frames_bind (frames_regGet _) fun _ => frames_bind (frames_regSet _ _) fun _ =>
      frames_pure _
  refine frames_ite (fun h => ?_) fun _ => ?_
  · exact frames_bind (frames_regGet _) fun _ => frames_bind (hop (halu op (Or.inl h))) fun _ =>
      frames_pure _
  refine frames_ite (fun h => ?_) fun _ => ?_
  · rw [hinrDcr op (Or.inl h)]
    exact frames_bind (frames_aluInr _) fun _ => frames_pure _
  refine frames_ite (fun h => ?_) fun _ => ?_
  · rw [hinrDcr op (Or.inr h)]
    exact frames_bind (frames_aluDcr _) fun _ => frames_pure _
  refine frames_ite (fun _ => ?_) fun _ => ?_
  · exact frames_bind frames_fetch8 fun _ => frames_bind (frames_regSet _ _) fun _ =>
      frames_pure _
  refine frames_ite (fun h => ?_) fun _ => ?_
  · exact frames_bind frames_fetch8 fun _ => frames_bind (hop (halu op (Or.inr h))) fun _ =>
      frames_pure _
  -- from here on only the program counter and the stack
  with_reducible repeat' first
    | exact frames_pure _
    | exact frames_regs
    | exact frames_modifyRegs fun _ => Framed.refl _ _
    | exact frames_fetch16
    | exact frames_push16 _
    | exact frames_pop16
    | refine frames_ite (fun _ => ?_) fun _ => ?_
    | refine frames_bind ?_ fun _ => ?_

/-- DAD, the rotates, STC and CMC end in a change of the carry flag, and DAA in one after an
addition. -/
theorem frames_flagOps {op : U8} (hop : op ∈ flagOps) : Frames (flagsOf op) (execute op) := by
  fin_cases hop
  iterate 10
    exact fun cpu => framed_setFlag_C _ _
  · exact fun cpu => framed_of_normalised (normalised_aluDaa _)

/-- **Every opcode** leaves the flags that are not its own alone. -/
theorem frames_execute (op : U8) : Frames (flagsOf op) (execute op) := by
  by_cases hflag : op ∈ flagOps
  · exact frames_flagOps hflag
  unfold execute
  split
  all_goals first
    | exact absurd (by decide) hflag
    | exact frames_executeBlock _ _
    | with_reducible repeat' first
        | exact frames_pure _
        | exact frames_regs
        | exact frames_busRd _ _
        | exact frames_busWr _ _ _
        | exact frames_busIn _
        | exact frames_busOut _ _
        | exact frames_fetch8
        | exact frames_fetch16
        | exact frames_push16 _
        | exact frames_pop16
        | refine frames_bind ?_ fun _ => ?_
  all_goals first
    | exact frames_modifyRegs fun _ => Framed.refl _ _
    | exact frames_modify fun _ => Framed.refl _ _
    | exact frames_modifyRegs fun _ => framed_of_normalised (normalised_mask _)

/-- CMP and CPI are subtractions that keep A. -/
theorem a_execute_compare {op : U8} (hop : isCompare op = true) (cpu : I8080) :
    ((execute op).run cpu).wp fun _ r => r.2.a = cpu.a := by
  have hlist : ∀ op : U8, isCompare op = true →
      op ∈ [0xB8#8, 0xB9#8, 0xBA#8, 0xBB#8, 0xBC#8, 0xBD#8, 0xBE#8, 0xBF#8, 0xFE#8] := by
    decide +kernel
  have hmem := hlist op hop
  fin_cases hmem
  all_goals first
    | exact rfl
    | exact fun _ => rfl

/-! ## Steps -/

/-- What an instruction leaves alone. -/
structure FlagFrame (op : U8) (r r' : Regs) : Prop where
  /-- INR and DCR never change the carry. -/
  inrDcr : isInrDcr op = true → r'.getFlag F_C = r.getFlag F_C
  /-- DAD, the rotates, STC and CMC change nothing but the carry. -/
  carryOp : isCarryOp op = true → r'.f &&& ~~~F_C = r.f &&& ~~~F_C
  /-- CMP and CPI keep A. -/
  compare : isCompare op = true → r'.a = r.a
  /-- Whatever is none of these, nor another operation on A, DAA or POP PSW, keeps F. -/
  other : isInrDcr op = false → isCarryOp op = false → isAlu op = false → op ≠ 0x27 → op ≠ 0xF1 →
    r'.f = r.f

section Runs

variable {σ : Type} (bus : Handler BusOp BusOp.Ans σ) {x : I8080 × σ}

/-- A step changes the flags of the opcode that it executes and no other ones. -/
theorem framed_executed {op : U8} (hop : executed bus x = some op) :
    Framed (flagsOf op) x.1.f (act bus x .step).1.f := by
  obtain ⟨es, r, hr, -, -, hregs⟩ := wp_of_executed bus hop
    (Q := fun _ r => Framed (flagsOf op) x.1.f r.2.f) fun cpu pc hcpu => by
      rw [show x.1.f = cpu.f by rw [hcpu]]
      exact frames_execute op cpu
  rwa [show (act bus x .step).1.f = r.2.f from congrArg Regs.f hregs]

/-- **The flags that a step leaves alone**, in every state with a normalised flag byte and on every
bus, whether the opcode was fetched or jammed. -/
theorem flagFrame (hf : Normalised x.1.f) {op : U8} (hop : executed bus x = some op) :
    FlagFrame op x.1.toRegs (act bus x .step).1.toRegs := by
  obtain ⟨-, hframe⟩ := framed_executed bus hop hf
  refine ⟨fun hinr => ?_, fun hcarry => ?_, fun hcmp => ?_, fun hinr hcarry halu hdaa hpop => ?_⟩
  · have hflags : flagsOf op = F_S ||| F_Z ||| F_P ||| F_AC := if_pos hinr
    rw [hflags] at hframe
    rw [Regs.getFlag, Regs.getFlag, and_eq_of_frame hframe rfl]
  · rwa [flagsOf_carryOp op hcarry] at hframe
  · obtain ⟨es, r, hr, -, -, hregs⟩ := wp_of_executed bus hop (Q := fun _ r => r.2.a = x.1.a)
      fun cpu pc hcpu => by
        rw [show x.1.a = cpu.a by rw [hcpu]]
        exact a_execute_compare hcmp cpu
    rw [hregs, hr]
  · have hall : ~~~(0 : U8) = BitVec.allOnes 8 := rfl
    rwa [flagsOf_other op hinr hcarry halu hdaa hpop, hall, BitVec.and_allOnes,
      BitVec.and_allOnes] at hframe

/-- A processor that is about to execute the vector `DCR A`. -/
def jammedDcr : I8080 :=
  { I8080.reset with inte := true, intPending := true, intVector := 0x3D }

theorem flagFrame_jammedDcr :
    FlagFrame 0x3D jammedDcr.toRegs (act allEi (jammedDcr, ()) .step).1.toRegs :=
  flagFrame allEi (x := (jammedDcr, ())) (by unfold Normalised; decide) (by decide)

/-! ## Runs -/

/-- Only an idle cycle of a halted processor executes nothing. -/
theorem halted_of_executed_none (h : executed bus x = none) :
    x.1.acknowledges = false ∧ x.1.halted = true := by
  cases hack : x.1.acknowledges with
  | true =>
    rw [executed_of_acknowledges bus hack] at h
    cases h
  | false =>
    cases hh : x.1.halted with
    | true => exact ⟨rfl, rfl⟩
    | false =>
      rw [executed_of_fetches bus ⟨hack, hh⟩] at h
      cases h

/-- A step leaves the flags outside `m` alone if its opcode does. -/
theorem framed_step (h : ∀ op ∈ executed bus x, flagsOf op ||| m = m) :
    Framed m x.1.f (act bus x .step).1.f := by
  cases hop : executed bus x with
  | some op => exact (framed_executed bus hop).mono (h op hop)
  | none =>
    obtain ⟨hack, hh⟩ := halted_of_executed_none bus hop
    rw [act_step_of_halted bus hack hh]
    exact Framed.refl _ _

/-- The input leaves the flags outside `m` alone. -/
def ChangesOnly (m : U8) (x : I8080 × σ) : Input → Prop
  | .reset => False
  | .act (.request _) => True
  | .act .step => ∀ op ∈ executed bus x, flagsOf op ||| m = m

/-- **A run** whose opcodes change flags of `m` only leaves the other ones alone. -/
theorem framed_run {is : List Input} (h : AllAlong (feed bus) (ChangesOnly bus m) x is) :
    Framed m x.1.f (run (feed bus) x is).1.f := by
  induction is generalizing x with
  | nil => exact Framed.refl _ _
  | cons i is ih =>
    obtain ⟨hi, hrest⟩ := h
    refine Framed.trans ?_ (ih hrest)
    cases i with
    | reset => exact hi.elim
    | act a =>
      cases a with
      | request v => exact Framed.refl _ _
      | step => exact framed_step bus hi

/-- **The carry survives** INX, DCX, INR, DCR, MOV and whatever else does not change it, however
many of them there are and whatever interrupts them. -/
theorem carry_run (hf : Normalised x.1.f) {is : List Input}
    (h : AllAlong (feed bus) (ChangesOnly bus (~~~F_C)) x is) :
    (run (feed bus) x is).1.getFlag F_C = x.1.getFlag F_C := by
  obtain ⟨-, hframe⟩ := framed_run bus h hf
  rw [Regs.getFlag, Regs.getFlag, and_eq_of_frame hframe rfl]

end Runs

end I8080

end Umk80
