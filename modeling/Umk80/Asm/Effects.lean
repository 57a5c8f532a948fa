import Umk80.Asm.Assembler

/-!
# What a line does to the assembler

A statement that emits bytes leaves the symbol table alone and advances the location counter by
their number, in every pass. What a line makes of the table and the counter does not depend on
whether the pass emits. And nothing takes back a message, or a change that was noted.

## Main definitions

* `Asm.Emits` — an emission of so many bytes
* `Asm.SameCore` — the same table, counter and change flag
* `Asm.Extends` — the messages so far are kept, and an unnoted change has not happened

## Main results

* `Asm.emits_execInstr` — the length of an instruction
* `Asm.SameCore.assembleLines` — emitting or not, the table and the counter go the same way
* `Asm.extends_assembleLines` — messages and changes are never taken back
-/

namespace Umk80

open CString

namespace Asm

/-! ## Emissions -/

/-- From `a` to `b` bytes have been emitted, `n` of them; into the image only in the emitting
pass. -/
structure Emits (n : ℕ) (a b : Asm) : Prop where
  syms : b.syms = a.syms
  changed : b.changed = a.changed
  emitting : b.emitting = a.emitting
  imageSize : b.imageSize = a.imageSize
  image : a.emitting = false → b.image = a.image
  pc : b.pc = a.pc + n
  errors : a.errors <+: b.errors

theorem Emits.refl (a : Asm) : Emits 0 a a :=
  ⟨rfl, rfl, rfl, rfl, fun _ => rfl, (Int.add_zero _).symm, List.prefix_rfl⟩

theorem Emits.trans {m n : ℕ} {a b c : Asm} (h : Emits m a b) (h' : Emits n b c) :
    Emits (m + n) a c := by
  refine ⟨by rw [h'.syms, h.syms], by rw [h'.changed, h.changed], by rw [h'.emitting, h.emitting],
    by rw [h'.imageSize, h.imageSize], ?_, ?_, h.errors.trans h'.errors⟩
  · intro he
    rw [h'.image (by rw [h.emitting, he]), h.image he]
  · rw [h'.pc, h.pc]
    push_cast
    exact Int.add_assoc _ _ _

theorem emits_report (a : Asm) (text : List Char) : Emits 0 a (a.report text) := by
  unfold report
  split
  · exact ⟨rfl, rfl, rfl, rfl, fun _ => rfl, (Int.add_zero _).symm, List.prefix_append _ _⟩
  · exact Emits.refl a

theorem emits_emit (a : Asm) (addr : ℤ) (v : U8) : Emits 0 a (a.emit addr v) := by
  unfold emit
  split
  · exact a.emits_report _
  split
  · rename_i he
    exact ⟨rfl, rfl, rfl, rfl, fun hnot => absurd (by rw [← hnot, he]) Bool.false_ne_true,
      (Int.add_zero _).symm, List.prefix_rfl⟩
  · exact Emits.refl a

theorem emits_emitByte (a : Asm) (v : U8) : Emits 1 a (a.emitByte v) := by
  have h := a.emits_emit a.pc v
  refine ⟨h.syms, h.changed, h.emitting, h.imageSize, h.image, ?_, h.errors⟩
  change (a.emit a.pc v).pc + 1 = a.pc + 1
  rw [h.pc]
  simp

theorem emits_emitWord (a : Asm) (v : ℤ) : Emits 2 a (a.emitWord v) :=
  (a.emits_emitByte _).trans (emits_emitByte _ _)

theorem emits_register (a : Asm) (r : Option ℕ) (message : List Char) :
    Emits 0 a (a.register r message).2 := by
  cases r with
  | none => exact a.emits_report message
  | some r => exact Emits.refl a

theorem emits_value (a : Asm) (stmtPc : ℤ) (ops : List Ptr) (i : ℕ) (m : Mnem) :
    Emits 0 a (a.value stmtPc ops i m).2 := by
  unfold value
  dsimp only
  split
  · exact Emits.refl a
  · exact a.emits_report _

theorem emits_datum (a : Asm) (stmtPc : ℤ) (directive : String) (op : Ptr) :
    Emits 0 a (a.datum stmtPc directive op).2 := by
  unfold datum
  dsimp only
  split
  · exact Emits.refl a
  · exact a.emits_report _

end Asm

/-- The length of an instruction. -/
def Kind.size : Kind → ℕ
  | .mvi | .imm8 | .port => 2
  | .lxi | .addr => 3
  | _ => 1

namespace Asm

/-- **An instruction** emits as many bytes as its format has. -/
theorem emits_execInstr (a : Asm) (stmtPc : ℤ) (m : Mnem) (ops : List Ptr) :
    Emits m.kind.size a (a.execInstr stmtPc m ops) := by
  unfold execInstr
  dsimp only
  cases hkind : m.kind with
  | none => exact a.emits_emitByte _
  | r8d | r8s | rp | stk | ax => exact (a.emits_register _ _).trans (emits_emitByte _ _)
  | mov =>
    cases reg8 ops[0]? with
    | none => exact (a.emits_report _).trans (emits_emitByte _ _)
    | some r =>
      cases reg8 ops[1]? with
      | none => exact (a.emits_report _).trans (emits_emitByte _ _)
      | some r2 => exact a.emits_emitByte _
  | mvi =>
    exact (a.emits_register _ _).trans ((emits_value _ _ _ _ _).trans
      ((emits_emitByte _ _).trans (emits_emitByte _ _)))
  | lxi =>
    exact (a.emits_register _ _).trans ((emits_value _ _ _ _ _).trans
      ((emits_emitByte _ _).trans (emits_emitWord _ _)))
  | imm8 | port =>
    exact (a.emits_value _ _ _ _).trans ((emits_emitByte _ _).trans (emits_emitByte _ _))
  | addr =>
    exact (a.emits_value _ _ _ _).trans ((emits_emitByte _ _).trans (emits_emitWord _ _))
  | rst => exact a.emits_emitByte _

/-- Several emissions of `n` bytes each. -/
theorem emits_foldl {α : Type} {f : Asm → α → Asm} {n : ℕ} (hf : ∀ a op, Emits n a (f a op))
    (ops : List α) (a : Asm) : Emits (n * ops.length) a (ops.foldl f a) := by
  induction ops generalizing a with
  | nil => exact Emits.refl a
  | cons op ops ih =>
    rw [List.length_cons, Nat.mul_succ, Nat.add_comm]
    exact (hf a op).trans (ih _)

theorem emits_db (a : Asm) (stmtPc : ℤ) (ops : List Ptr) :
    Emits (1 * ops.length) a (a.exec stmtPc (.db ops)) :=
  emits_foldl (fun a op => (a.emits_datum stmtPc "DB" op).trans (emits_emitByte _ _)) ops a

theorem emits_dw (a : Asm) (stmtPc : ℤ) (ops : List Ptr) :
    Emits (2 * ops.length) a (a.exec stmtPc (.dw ops)) :=
  emits_foldl (fun a op => (a.emits_datum stmtPc "DW" op).trans (emits_emitWord _ _)) ops a

/-! ## The symbol table -/

/-- A definition finds its value in the table, adds or changes an entry, or finds no room. -/
theorem define_cases (a : Asm) (name : Name) (value : ℤ) :
    (a.syms.find name = some value ∧ a.define name value = a) ∨
    (∃ syms, a.define name value = { a with syms := syms, changed := true } ∧
      (syms = a.syms ++ [⟨name.take 31, value⟩] ∨ syms = a.syms.replace name value)) ∨
    (∃ text, a.define name value = a.err text) := by
  unfold define symSet
  cases hfind : a.syms.find name with
  | none =>
    by_cases hfull : MAX_SYMS ≤ a.syms.length
    · simp only [if_pos hfull]
      exact Or.inr (Or.inr ⟨_, rfl⟩)
    · simp only [if_neg hfull]
      exact Or.inr (Or.inl ⟨_, rfl, Or.inl rfl⟩)
  | some v =>
    by_cases hv : v ≠ value
    · simp only [if_pos hv]
      exact Or.inr (Or.inl ⟨_, rfl, Or.inr rfl⟩)
    · simp only [if_neg hv]
      exact Or.inl ⟨congrArg some (not_not.mp hv), rfl⟩

/-- A definition does not move the location counter. -/
@[simp] theorem define_pc (a : Asm) (name : Name) (value : ℤ) :
    (a.define name value).pc = a.pc := by
  rcases a.define_cases name value with ⟨-, heq⟩ | ⟨syms, heq, -⟩ | ⟨text, heq⟩
  all_goals
    rw [heq]
    try rfl

@[simp] theorem defineLabel_pc (a : Asm) (line : Line) : (a.defineLabel line).pc = a.pc := by
  rw [defineLabel]
  split
  · rfl
  · exact a.define_pc _ _

/-! ## With and without emission -/

/-- The same symbol table, location counter and change flag. -/
structure SameCore (a b : Asm) : Prop where
  syms : a.syms = b.syms
  pc : a.pc = b.pc
  changed : a.changed = b.changed

variable {a b : Asm}

theorem SameCore.emits (h : SameCore a b) {n : ℕ} {a' b' : Asm} (ha : Emits n a a')
    (hb : Emits n b b') : SameCore a' b' := by
  refine ⟨?_, ?_, ?_⟩
  · rw [ha.syms, hb.syms, h.syms]
  · rw [ha.pc, hb.pc, h.pc]
  · rw [ha.changed, hb.changed, h.changed]

theorem SameCore.define (h : SameCore a b) (name : Name) (value : ℤ) :
    SameCore (a.define name value) (b.define name value) := by
  unfold Asm.define symSet
  rw [h.syms]
  cases b.syms.find name with
  | none =>
    by_cases hfull : MAX_SYMS ≤ b.syms.length
    · simp only [if_pos hfull]
      exact ⟨h.syms, h.pc, h.changed⟩
    · simp only [if_neg hfull]
      exact ⟨rfl, h.pc, rfl⟩
  | some v =>
    by_cases hv : v ≠ value
    · simp only [if_pos hv]
      exact ⟨rfl, h.pc, rfl⟩
    · simp only [if_neg hv]
      exact ⟨h.syms, h.pc, h.changed⟩

theorem SameCore.operand (h : SameCore a b) (stmtPc : ℤ) (ops : List Ptr) (i : ℕ) :
    a.operand stmtPc ops i = b.operand stmtPc ops i := by
  rw [Asm.operand, Asm.operand, h.syms]

theorem SameCore.exec (h : SameCore a b) (stmtPc : ℤ) (stmt : Stmt) :
    SameCore (a.exec stmtPc stmt) (b.exec stmtPc stmt) := by
  cases stmt with
  | equ name expr =>
    rw [Asm.exec, Asm.exec, h.syms]
    split
    · exact h.define name _
    · exact h.emits (a.emits_report _) (b.emits_report _)
  | org ops =>
    rw [Asm.exec, Asm.exec, h.operand]
    split
    · exact ⟨h.syms, rfl, h.changed⟩
    · exact h
  | finish => exact h
  | ds ops =>
    rw [Asm.exec, Asm.exec, h.operand, h.pc]
    exact ⟨h.syms, rfl, h.changed⟩
  | db ops => exact h.emits (a.emits_db stmtPc ops) (b.emits_db stmtPc ops)
  | dw ops => exact h.emits (a.emits_dw stmtPc ops) (b.emits_dw stmtPc ops)
  | instr m ops => exact h.emits (a.emits_execInstr stmtPc m ops) (b.emits_execInstr stmtPc m ops)
  | unknown mnemonic => exact h.emits (a.emits_report _) (b.emits_report _)

theorem SameCore.defineLabel (h : SameCore a b) (line : Line) :
    SameCore (a.defineLabel line) (b.defineLabel line) := by
  unfold Asm.defineLabel
  rw [h.pc]
  split
  · exact h
  · exact h.define _ _

theorem SameCore.nextLine (h : SameCore a b) (raw : List Char) :
    SameCore (a.nextLine raw) (b.nextLine raw) := by
  have hlabel := h.defineLabel (parseLine raw)
  have hline : SameCore (a.assembleLine raw) (b.assembleLine raw) := by
    unfold assembleLine execLine
    rw [h.pc]
    split
    · exact hlabel
    · exact hlabel.exec _ _
  exact ⟨hline.syms, hline.pc, hline.changed⟩

/-- **Emitting or not**, the table and the location counter go the same way. -/
theorem SameCore.assembleLines (h : SameCore a b) (lines : List (List Char)) :
    SameCore (a.assembleLines lines) (b.assembleLines lines) := by
  induction lines generalizing a b with
  | nil => exact h
  | cons raw lines ih => exact ih (h.nextLine raw)

/-! ## Nothing is taken back -/

/-- From `a` to `b` no message is lost, and if no change is noted then the table is the same. -/
structure Extends (a b : Asm) : Prop where
  emitting : b.emitting = a.emitting
  imageSize : b.imageSize = a.imageSize
  image : a.emitting = false → b.image = a.image
  errors : a.errors <+: b.errors
  quiet : b.changed = false → a.changed = false ∧ b.syms = a.syms

theorem Extends.refl (a : Asm) : Extends a a :=
  ⟨rfl, rfl, fun _ => rfl, List.prefix_rfl, fun h => ⟨h, rfl⟩⟩

theorem Extends.trans {a b c : Asm} (h : Extends a b) (h' : Extends b c) : Extends a c := by
  refine ⟨by rw [h'.emitting, h.emitting], by rw [h'.imageSize, h.imageSize],
    fun he => ?_, h.errors.trans h'.errors, fun hc => ?_⟩
  · rw [h'.image (by rw [h.emitting, he]), h.image he]
  obtain ⟨hb, hsyms⟩ := h'.quiet hc
  obtain ⟨ha, hsyms'⟩ := h.quiet hb
  exact ⟨ha, by rw [hsyms, hsyms']⟩

theorem Emits.extends {n : ℕ} (h : Emits n a b) : Extends a b :=
  ⟨h.emitting, h.imageSize, h.image, h.errors, fun hb => ⟨by rw [← h.changed, hb], h.syms⟩⟩

theorem extends_define (a : Asm) (name : Name) (value : ℤ) : Extends a (a.define name value) := by
  rcases a.define_cases name value with ⟨-, heq⟩ | ⟨syms, heq, -⟩ | ⟨text, heq⟩
  · rw [heq]
    exact Extends.refl a
  · rw [heq]
    exact ⟨rfl, rfl, fun _ => rfl, List.prefix_rfl, fun h => absurd h.symm Bool.false_ne_true⟩
  · rw [heq]
    exact ⟨rfl, rfl, fun _ => rfl, List.prefix_append _ _, fun h => ⟨h, rfl⟩⟩

theorem extends_exec (a : Asm) (stmtPc : ℤ) (stmt : Stmt) : Extends a (a.exec stmtPc stmt) := by
  cases stmt with
  | equ name expr =>
    rw [exec]
    split
    · exact a.extends_define _ _
    · exact (a.emits_report _).extends
  | org ops =>
    rw [exec]
    split
    · exact ⟨rfl, rfl, fun _ => rfl, List.prefix_rfl, fun h => ⟨h, rfl⟩⟩
    · exact Extends.refl a
  | finish => exact Extends.refl a
  | ds ops => exact ⟨rfl, rfl, fun _ => rfl, List.prefix_rfl, fun h => ⟨h, rfl⟩⟩
  | db ops => exact (a.emits_db stmtPc ops).extends
  | dw ops => exact (a.emits_dw stmtPc ops).extends
  | instr m ops => exact (a.emits_execInstr stmtPc m ops).extends
  | unknown mnemonic => exact (a.emits_report _).extends

theorem extends_defineLabel (a : Asm) (line : Line) : Extends a (a.defineLabel line) := by
  unfold defineLabel
  split
  · exact Extends.refl a
  · exact a.extends_define _ _

theorem extends_execLine (a : Asm) (stmtPc : ℤ) (line : Line) :
    Extends a (a.execLine stmtPc line) := by
  unfold execLine
  split
  · exact Extends.refl a
  · exact a.extends_exec _ _

theorem extends_nextLine (a : Asm) (raw : List Char) : Extends a (a.nextLine raw) := by
  have h := (a.extends_defineLabel (parseLine raw)).trans
    (extends_execLine _ a.pc (parseLine raw))
  exact ⟨h.emitting, h.imageSize, h.image, h.errors, h.quiet⟩

/-- **Messages and changes** are never taken back. -/
theorem extends_assembleLines (a : Asm) (lines : List (List Char)) :
    Extends a (a.assembleLines lines) := by
  induction lines generalizing a with
  | nil => exact Extends.refl a
  | cons raw lines ih => exact (a.extends_nextLine raw).trans (ih _)

end Asm

end Umk80
