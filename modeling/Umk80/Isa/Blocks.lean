import Mathlib.Algebra.GroupWithZero.Nat
import Umk80.InterruptTransparency
import Umk80.Isa.Spec

/-!
# Straight-line code

Instructions that lie in memory one behind the other are executed one after the other, up to the
first that jumps. A block is such a list with any instruction at its end, and running it is a fold
of `exec`. What has to be shown about a block is then a computation.

The code of a block must stay where it is while the block writes. `Kept` is how this is said once
for a program: a condition on memory and ports that no write and no OUT breaks, such as that some
code is in ROM.

## Main definitions

* `Isa.Kept` — a condition that the program cannot break
* `Isa.runs`, `Isa.most` — a block, and the most T states it takes
* `Isa.Unseen`, `Isa.Hushed` — what only IN can see, and what holds up to the next IN

## Main results

* `Isa.decode_bytes` — an instruction is decoded from its bytes
* `Isa.reaches_block`, `Isa.leads_block` — a block in memory runs
-/

namespace Umk80

namespace Isa

open TimedRuns
open I8080 (CodeAt)

variable {σ : Type} {E : Bus σ} {s : State σ} {i : Insn} {is : List Insn} {t u : ℕ}

/-! ## Instructions in memory -/

/-- An opcode is decoded to the instruction it is made from, with the operand left at zero. -/
theorem decodeOp_opcode {i : Insn} (hi : i ≠ .mov .m .m) : decodeOp i.opcode = i.withArgs 0 0 := by
  cases i with
  | mov dst src =>
    cases dst
    all_goals cases src
    all_goals first
      | rfl
      | exact absurd rfl hi
  | alu op src =>
    cases op
    all_goals cases src
    all_goals rfl
  | mvi o v =>
    change decodeOp (Insn.mvi o 0).opcode = .mvi o 0
    cases o
    all_goals rfl
  | alui op v =>
    change decodeOp (Insn.alui op 0).opcode = .alui op 0
    cases op
    all_goals rfl
  | lxi p v =>
    change decodeOp (Insn.lxi p 0).opcode = .lxi p 0
    cases p
    all_goals rfl
  | jcc cc a =>
    change decodeOp (Insn.jcc cc 0).opcode = .jcc cc 0
    cases cc
    all_goals rfl
  | ccc cc a =>
    change decodeOp (Insn.ccc cc 0).opcode = .ccc cc 0
    cases cc
    all_goals rfl
  | inr o => cases o <;> rfl
  | dcr o => cases o <;> rfl
  | inx p => cases p <;> rfl
  | dcx p => cases p <;> rfl
  | dad p => cases p <;> rfl
  | push p => cases p <;> rfl
  | pop p => cases p <;> rfl
  | rcc cc => cases cc <;> rfl
  | lhld a => exact (rfl : decodeOp (Insn.lhld 0).opcode = .lhld 0)
  | shld a => exact (rfl : decodeOp (Insn.shld 0).opcode = .shld 0)
  | lda a => exact (rfl : decodeOp (Insn.lda 0).opcode = .lda 0)
  | sta a => exact (rfl : decodeOp (Insn.sta 0).opcode = .sta 0)
  | inp port => exact (rfl : decodeOp (Insn.inp 0).opcode = .inp 0)
  | out port => exact (rfl : decodeOp (Insn.out 0).opcode = .out 0)
  | jmp a => exact (rfl : decodeOp (Insn.jmp 0).opcode = .jmp 0)
  | call a => exact (rfl : decodeOp (Insn.call 0).opcode = .call 0)
  | rst n =>
    match n with
    | 0 | 1 | 2 | 3 | 4 | 5 | 6 | 7 => rfl
  | _ => rfl

/-- An instruction with its own operand bytes. -/
theorem withArgs_of_args (i : Insn) {v v' : U8} (hv : ∀ x ∈ i.args[0]?, x = v)
    (hv' : ∀ x ∈ i.args[1]?, x = v') : (i.withArgs 0 0).withArgs v v' = i := by
  cases i
  all_goals first
    | rfl
    | simp only [Insn.args, List.getElem?_cons_zero, List.getElem?_cons_succ, Option.mem_def,
        Option.some.injEq, forall_eq'] at hv hv'
      simp only [Insn.withArgs, ← hv, ← hv', word_hiByte_loByte]

/-- **An instruction is decoded from its bytes**, whatever follows them. -/
theorem decode_bytes (hi : i ≠ .mov .m .m) {mem : U16 → U8} {pc : U16} {rest : List U8}
    (h : CodeAt mem pc (i.bytes ++ rest)) :
    decode (mem pc) (mem (pc + 1)) (mem (pc + 2)) = i := by
  have hargs (k : ℕ) : ∀ x ∈ i.args[k]?, x = mem (pc + BitVec.ofNat 16 (k + 1)) := by
    intro x hx
    obtain ⟨hk, rfl⟩ := List.getElem?_eq_some_iff.mp hx
    exact (h.append_left (k + 1) (Nat.succ_lt_succ hk)).symm
  have hop : mem pc = i.opcode := CodeAt.head h
  rw [hop, decode, decodeOp_opcode hi]
  exact withArgs_of_args i (hargs 0) (hargs 1)

/-- An instruction that exists. -/
def Insn.real : Insn → Bool
  | .mov .m .m => false
  | _ => true

theorem ne_mov_of_real (h : i.real = true) : i ≠ .mov .m .m := by
  rintro rfl
  exact Bool.false_ne_true h

/-- An instruction behind which the program goes on. -/
def Insn.plain : Insn → Bool
  | .hlt | .pchl | .jmp _ | .jcc _ _ | .call _ | .ccc _ _ | .ret | .rcc _ | .rst _ => false
  | i => i.real

theorem act_plain (s : State σ) (hi : i.plain = true) :
    (act E s i).pc = s.pc ∧ (act E s i).halted = s.halted := by
  cases i with
  | mov | mvi | inr | dcr => exact ⟨set_pc _ _ _ _, set_halted _ _ _ _⟩
  | lxi p v => cases p <;> exact ⟨rfl, rfl⟩
  | inx p => cases p <;> exact ⟨rfl, rfl⟩
  | dcx p => cases p <;> exact ⟨rfl, rfl⟩
  | pop p => cases p <;> exact ⟨rfl, rfl⟩
  | alu op src => cases op <;> exact ⟨rfl, rfl⟩
  | alui op v => cases op <;> exact ⟨rfl, rfl⟩
  | hlt | pchl | jmp | jcc | call | ccc | ret | rcc | rst => exact absurd hi Bool.false_ne_true
  | _ => exact ⟨rfl, rfl⟩

theorem exec_plain (s : State σ) (hi : i.plain = true) :
    (exec E s i).pc = s.pc + BitVec.ofNat 16 i.length ∧ (exec E s i).halted = s.halted :=
  act_plain _ hi

/-! ## What a program cannot break -/

/-- A condition on memory and ports that no write and no OUT breaks. -/
structure Kept (E : Bus σ) (P : σ → Prop) : Prop where
  write : ∀ e a v, P e → P (E.write e a v)
  output : ∀ e port v, P e → P (E.output e port v)

variable {P : σ → Prop}

theorem Kept.push (hP : Kept E P) {s : State σ} (h : P s.env) (v : U16) : P (push E s v).env :=
  hP.write _ _ _ (hP.write _ _ _ h)

theorem Kept.set (hP : Kept E P) {s : State σ} (h : P s.env) (v : U8) (o : Operand) :
    P (set E s v o).env := by
  cases o with
  | m => exact hP.write _ _ _ h
  | _ => exact h

/-- **No instruction breaks it.** -/
theorem Kept.act (hP : Kept E P) {s : State σ} (h : P s.env) (i : Insn) : P (act E s i).env := by
  cases i with
  | mov dst src => exact hP.set h _ _
  | mvi dst v => exact hP.set h _ _
  | inr o =>
    cases o with
    | m => exact hP.write _ _ _ h
    | _ => exact h
  | dcr o =>
    cases o with
    | m => exact hP.write _ _ _ h
    | _ => exact h
  | lxi p v => cases p <;> exact h
  | inx p => cases p <;> exact h
  | dcx p => cases p <;> exact h
  | pop p => cases p <;> exact h
  | alu op src => cases op <;> exact h
  | alui op v => cases op <;> exact h
  | staxB => exact hP.write _ _ _ h
  | staxD => exact hP.write _ _ _ h
  | shld a => exact hP.write _ _ _ (hP.write _ _ _ h)
  | sta a => exact hP.write _ _ _ h
  | xthl => exact hP.push (s := drop s) h _
  | push p => exact hP.push h _
  | out port => exact hP.output _ _ _ h
  | call a => exact hP.push h _
  | rst n => exact hP.push h _
  | jcc cc a =>
    simp only [Isa.act]
    split <;> exact h
  | ccc cc a =>
    simp only [Isa.act]
    split
    · exact hP.push h _
    · exact h
  | rcc cc =>
    simp only [Isa.act]
    split <;> exact h
  | _ => exact h

/-- Nor does a run. -/
theorem Kept.reaches (hP : Kept E P) {s s' : State σ} (h : Arrives (State.clocked E) s t s')
    (hs : P s.env) : P s'.env := by
  refine h.inv (P := fun s => P s.env) (fun s hs => ?_) hs
  change P (s.step E).env
  rw [State.step]
  split
  · exact hs
  · exact hP.act (s := s.skip _) hs _

/-! ## Blocks -/

/-- Instructions that run one after the other: only the last may jump. -/
def straight : List Insn → Bool
  | [] => true
  | [i] => i.real
  | i :: j :: is => i.plain && straight (j :: is)

/-- The state behind a block. -/
def runs (E : Bus σ) (s : State σ) (is : List Insn) : State σ := is.foldl (exec E) s

/-- The T states of a block. -/
def spent (E : Bus σ) : State σ → List Insn → ℕ
  | _, [] => 0
  | s, i :: is => i.cost s.flags + spent E (exec E s i) is

/-- The most T states an instruction takes. -/
def Insn.most : Insn → ℕ
  | .ccc _ _ => 17
  | .rcc _ => 11
  | i => i.cost ⟨false, false, false, false, false⟩

theorem Insn.cost_le_most (i : Insn) (fl : Flags) : i.cost fl ≤ i.most := by
  cases i with
  | ccc cc a =>
    change (if cc.holds fl then 17 else 11) ≤ 17
    split
    all_goals decide
  | rcc cc =>
    change (if cc.holds fl then 11 else 5) ≤ 11
    split
    all_goals decide
  | _ => exact Nat.le_refl _

/-- The most T states a block takes. -/
def most (is : List Insn) : ℕ := (is.map Insn.most).sum

theorem spent_le_most (s : State σ) (is : List Insn) : spent E s is ≤ most is := by
  induction is generalizing s with
  | nil => exact Nat.le_refl 0
  | cons i is ih => exact Nat.add_le_add (i.cost_le_most _) (ih _)

theorem ne_mov_of_straight {i : Insn} {is : List Insn} (h : straight (i :: is) = true) :
    i ≠ .mov .m .m := by
  rintro rfl
  cases is with
  | nil => exact Bool.false_ne_true h
  | cons j is => exact Bool.false_ne_true h

/-- An instruction in memory. -/
theorem fetch_of_codeAt (hcode : CodeAt (E.read s.env) s.pc i.bytes) (hi : i ≠ .mov .m .m) :
    s.fetch E = i := by
  rw [← List.append_nil i.bytes] at hcode
  exact decode_bytes hi hcode

theorem step_of_fetch (hfetch : s.fetch E = i) (hh : s.halted = false) :
    s.step E = exec E s i ∧ s.cost E = i.cost s.flags := by
  rw [State.cost, State.step, hh, if_neg Bool.false_ne_true, if_neg Bool.false_ne_true, hfetch]
  exact ⟨rfl, rfl⟩

/-- **A block in memory runs**, through states of a kind if each of them is when its instruction is
about to be executed. -/
theorem through_block {R : State σ → Prop} (hP : Kept E P) {pc : U16}
    (hcode : ∀ e, P e → CodeAt (E.read e) pc (is.flatMap Insn.bytes))
    (hstraight : straight is = true) (hs : P s.env) (hpc : s.pc = pc) (hh : s.halted = false)
    (hR : ∀ j i, is[j]? = some i → (runs E s (is.take j)).fetch E = i → R (runs E s (is.take j))) :
    Through (State.clocked E) R s (spent E s is) (runs E s is) := by
  induction is generalizing s pc with
  | nil => exact .refl s
  | cons i is ih =>
    subst hpc
    have hfirst : CodeAt (E.read s.env) s.pc i.bytes := (hcode s.env hs).append_left
    have hfetch := fetch_of_codeAt hfirst (ne_mov_of_straight hstraight)
    obtain ⟨hstep, hcost⟩ := step_of_fetch hfetch hh
    have hrest : Through (State.clocked E) R (exec E s i) (spent E (exec E s i) is)
        (runs E (exec E s i) is) := by
      cases is with
      | nil => exact .refl _
      | cons j is =>
        obtain ⟨hplain, hrest⟩ := Bool.and_eq_true_iff.mp hstraight
        obtain ⟨hpc', hh'⟩ := exec_plain (E := E) s hplain
        refine ih (fun e he => (hcode e he).append_right) hrest (hP.act (s := s.skip _) hs i) hpc'
          (by rw [hh', hh]) fun k i' hk => ?_
        exact hR (k + 1) i' hk
    have hstep' : (State.clocked E).step s = exec E s i := hstep
    have hcost' : (State.clocked E).cost s = i.cost s.flags := hcost
    rw [← hstep'] at hrest
    have hrun := Through.step (s := s) (hR 0 i rfl hfetch) hrest
    rw [hstep', hcost'] at hrun
    exact hrun

/-- **A block in memory runs.** -/
theorem reaches_block (hP : Kept E P) {pc : U16}
    (hcode : ∀ e, P e → CodeAt (E.read e) pc (is.flatMap Insn.bytes))
    (hstraight : straight is = true) (hs : P s.env) (hpc : s.pc = pc) (hh : s.halted = false) :
    Arrives (State.clocked E) s (spent E s is) (runs E s is) :=
  (through_block (R := fun _ => True) hP hcode hstraight hs hpc hh fun _ _ _ _ => trivial).reaches

/-- A block, and then whatever follows it. -/
theorem leads_block {Q : State σ → Prop} (hP : Kept E P) {pc : U16}
    (hcode : ∀ e, P e → CodeAt (E.read e) pc (is.flatMap Insn.bytes))
    (hstraight : straight is = true) (hs : P s.env) (hpc : s.pc = pc) (hh : s.halted = false)
    (h : Leads (State.clocked E) (runs E s is) u Q) (ht : most is + u ≤ t) :
    Leads (State.clocked E) s t Q :=
  (h.after (reaches_block hP hcode hstraight hs hpc hh)).mono
    (Nat.le_trans (Nat.add_le_add_right (spent_le_most s is) u) ht) fun _ => id

/-! ## What only IN can see -/

/-- The next instruction does not read a port. -/
def Quiet (E : Bus σ) (s : State σ) : Prop := ∀ port, s.fetch E ≠ .inp port

/-- A change of the surroundings that only IN can see, such as a key that goes down. -/
structure Unseen (E : Bus σ) (f : σ → σ) : Prop where
  read : ∀ e a, E.read (f e) a = E.read e a
  write : ∀ e a v, E.write (f e) a v = f (E.write e a v)
  output : ∀ e port v, E.output (f e) port v = f (E.output e port v)

def State.change (f : σ → σ) (s : State σ) : State σ := { s with env := f s.env }

namespace Unseen

variable {f : σ → σ} (hf : Unseen E f) (s : State σ)

include hf

theorem get (o : Operand) : Isa.get E (s.change f) o = Isa.get E s o := by
  cases o with
  | m => exact hf.read _ _
  | _ => rfl

theorem set (v : U8) (o : Operand) : Isa.set E (s.change f) v o = (Isa.set E s v o).change f := by
  cases o with
  | m => exact congrArg (fun e => { s with env := e }) (hf.write _ _ _)
  | _ => rfl

theorem push (v : U16) : Isa.push E (s.change f) v = (Isa.push E s v).change f := by
  have hhigh := hf.write s.env (s.sp - 1) (hiByte v)
  have hlow := hf.write (E.write s.env (s.sp - 1) (hiByte v)) (s.sp - 2) (loByte v)
  rw [← hhigh] at hlow
  exact congrArg (fun e => { s with sp := s.sp - 2, env := e }) hlow

theorem top : Isa.top E (s.change f) = Isa.top E s :=
  congrArg₂ word (hf.read _ _) (hf.read _ _)

/-- **Every other instruction** does the same before and after the change. -/
theorem act {i : Insn} (hi : ∀ port, i ≠ .inp port) :
    Isa.act E (s.change f) i = (Isa.act E s i).change f := by
  have hload (a : U16) : E.read (s.change f).env a = E.read s.env a := hf.read _ _
  cases i with
  | inp port => exact absurd rfl (hi port)
  | mov dst src =>
    simp only [Isa.act]
    rw [hf.get, hf.set]
  | mvi dst v => exact hf.set s v dst
  | alu op src =>
    simp only [Isa.act]
    rw [hf.get]
    cases op
    all_goals rfl
  | alui op v => cases op <;> rfl
  | inr o =>
    simp only [Isa.act]
    rw [hf.get]
    exact hf.set { s with flags := _ } _ o
  | dcr o =>
    simp only [Isa.act]
    rw [hf.get]
    exact hf.set { s with flags := _ } _ o
  | lxi p v => cases p <;> rfl
  | inx p => cases p <;> rfl
  | dcx p => cases p <;> rfl
  | dad p => cases p <;> rfl
  | ldaxB => exact congrArg (fun x => (State.change f { s with a := x })) (hload _)
  | ldaxD => exact congrArg (fun x => (State.change f { s with a := x })) (hload _)
  | lda a => exact congrArg (fun x => (State.change f { s with a := x })) (hload _)
  | lhld a =>
    exact congrArg₂ (fun x y => State.change f { s with l := x, h := y }) (hload _) (hload _)
  | staxB => exact congrArg (fun e => { s with env := e }) (hf.write _ _ _)
  | staxD => exact congrArg (fun e => { s with env := e }) (hf.write _ _ _)
  | sta a => exact congrArg (fun e => { s with env := e }) (hf.write _ _ _)
  | shld a =>
    have hlow := hf.write s.env a s.l
    have hhigh := hf.write (E.write s.env a s.l) (a + 1) s.h
    rw [← hlow] at hhigh
    exact congrArg (fun e => { s with env := e }) hhigh
  | out port => exact congrArg (fun e => { s with env := e }) (hf.output _ _ _)
  | xthl =>
    simp only [Isa.act]
    rw [hf.top]
    exact congrArg (State.setHl · _) (hf.push (drop s) _)
  | push p => cases p <;> exact hf.push s _
  | pop p =>
    simp only [Isa.act]
    rw [hf.top]
    cases p
    all_goals rfl
  | call a => exact congrArg (jump · a) (hf.push s _)
  | rst n => exact congrArg (jump · _) (hf.push s _)
  | ret => exact congrArg (jump (drop (s.change f))) (hf.top s)
  | jcc cc a =>
    simp only [Isa.act]
    rw [apply_ite (State.change f)]
    rfl
  | ccc cc a =>
    simp only [Isa.act]
    rw [apply_ite (State.change f), hf.push]
    rfl
  | rcc cc =>
    simp only [Isa.act]
    rw [apply_ite (State.change f), hf.top]
    rfl
  | _ => rfl

/-- **A step that reads no port** takes the same time and does the same, before and after. -/
theorem step (hs : Quiet E s) : Quiet E (s.change f) ∧
    (State.clocked E).cost (s.change f) = (State.clocked E).cost s ∧
    (State.clocked E).step (s.change f) = ((State.clocked E).step s).change f := by
  have hfetch : (s.change f).fetch E = s.fetch E := by
    change decode (E.read (f s.env) _) (E.read (f s.env) _) (E.read (f s.env) _) = _
    rw [hf.read, hf.read, hf.read]
    rfl
  refine ⟨fun port => hfetch ▸ hs port, ?_, ?_⟩
  · change State.cost E (s.change f) = s.cost E
    rw [State.cost, State.cost, hfetch]
    rfl
  · change State.step E (s.change f) = (s.step E).change f
    rw [State.step, State.step, hfetch]
    change (if s.halted then s.change f else exec E (s.change f) (s.fetch E)) = _
    split
    · rfl
    · exact hf.act (s.skip _) hs

end Unseen

/-! ## Blocks on which nothing happens outside -/

/-- An instruction that writes nowhere and reads no port. -/
def Insn.still : Insn → Bool
  | .mov .m _ | .mvi .m _ | .inr .m | .dcr .m | .staxB | .staxD | .shld _ | .sta _ | .xthl
  | .push _ | .inp _ | .out _ => false
  | i => i.plain

theorem env_act_still (s : State σ) (hi : i.still = true) : (act E s i).env = s.env := by
  cases i with
  | mov dst src =>
    refine set_env E s _ ?_
    rintro rfl
    exact Bool.false_ne_true hi
  | mvi dst v =>
    refine set_env E s _ ?_
    rintro rfl
    exact Bool.false_ne_true hi
  | inr o =>
    refine set_env E { s with flags := _ } _ ?_
    rintro rfl
    exact Bool.false_ne_true hi
  | dcr o =>
    refine set_env E { s with flags := _ } _ ?_
    rintro rfl
    exact Bool.false_ne_true hi
  | lxi p v => cases p <;> rfl
  | inx p => cases p <;> rfl
  | dcx p => cases p <;> rfl
  | pop p => cases p <;> rfl
  | alu op src => cases op <;> rfl
  | alui op v => cases op <;> rfl
  | staxB | staxD | shld | sta | xthl | push | inp | out => exact absurd hi Bool.false_ne_true
  | hlt | pchl | jmp | jcc | call | ccc | ret | rcc | rst => exact absurd hi Bool.false_ne_true
  | _ => rfl

/-- Instructions that are still, up to the last one, which may write or jump. -/
def hushed : List Insn → Bool
  | [] => true
  | [i] => match i with
    | .inp _ => false
    | _ => true
  | i :: j :: is => i.still && hushed (j :: is)

/-- What the surroundings satisfy, up to the next IN. -/
def Hushed (E : Bus σ) (C : σ → Prop) (s : State σ) : Prop := Quiet E s ∧ C s.env

theorem hushed_get {is : List Insn} (h : hushed is = true) {j : ℕ} (hj : is[j]? = some i)
    (s : State σ) : (∀ port, i ≠ .inp port) ∧ (runs E s (is.take j)).env = s.env := by
  induction is generalizing s j with
  | nil => exact absurd hj (by simp)
  | cons i' is ih =>
    cases is with
    | nil =>
      have hzero : j = 0 := by
        have := (List.getElem?_eq_some_iff.mp hj).1
        exact Nat.lt_one_iff.mp this
      subst hzero
      obtain rfl : i' = i := Option.some.inj hj
      refine ⟨?_, rfl⟩
      rintro port rfl
      exact Bool.false_ne_true h
    | cons j' is =>
      obtain ⟨hstill, hrest⟩ := Bool.and_eq_true_iff.mp h
      cases j with
      | zero =>
        obtain rfl : i' = i := Option.some.inj hj
        refine ⟨?_, rfl⟩
        rintro port rfl
        exact Bool.false_ne_true hstill
      | succ j =>
        obtain ⟨hi, henv⟩ := ih hrest hj (exec E s i')
        exact ⟨hi, henv.trans (env_act_still _ hstill)⟩

/-- **A block on which nothing happens outside.** -/
theorem through_hushed {C : σ → Prop} (hP : Kept E P) {pc : U16}
    (hcode : ∀ e, P e → CodeAt (E.read e) pc (is.flatMap Insn.bytes))
    (hstraight : straight is = true) (hhushed : hushed is = true) (hs : P s.env) (hC : C s.env)
    (hpc : s.pc = pc) (hh : s.halted = false) :
    Through (State.clocked E) (Hushed E C) s (spent E s is) (runs E s is) := by
  refine through_block hP hcode hstraight hs hpc hh fun j i hj hfetch => ?_
  obtain ⟨hi, henv⟩ := hushed_get (E := E) hhushed hj s
  refine ⟨fun port => hfetch ▸ hi port, ?_⟩
  rw [henv]
  exact hC

end Isa

end Umk80
