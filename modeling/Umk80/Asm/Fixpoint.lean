import Umk80.Asm.Effects

/-!
# The accepted symbol table

Passes are repeated until one of them changes nothing. That pass went over the same table and the
same counters as the emitting pass does, so in the emitting pass every definition finds its own
value in the table. What the claim of a consistent image needs beyond that, an error for every
reference that has no value, holds in every format but RST.

## Main definitions

* `Line.names`, `definedNames` — the symbols that the source defines
* `Stmt.valueOperands` — the operands whose value is emitted
* `Asm.Consistent` — the table is a fixpoint of the source, and all that is emitted uses it

## Main results

* `Asm.consistent_iff` — an accepted source is consistent up to undefined operands of RST
-/

namespace Umk80

open CString

/-- The symbols that a line defines. -/
def Line.names (line : Line) : List Name :=
  line.label.toList ++ match line.stmt with
    | some (.equ name _) => [name]
    | _ => []

/-- The symbols that the source defines, by a label or an EQU. -/
def definedNames (lines : List (List Char)) : List Name :=
  lines.flatMap fun raw => (parseLine raw).names

/-- The operands whose value goes into an emitted byte or word. -/
def Stmt.valueOperands : Stmt → List Ptr
  | .db ops => ops
  | .dw ops => ops
  | .instr m ops =>
    match m.kind with
    | .mvi | .lxi => ops[1]?.toList
    | .imm8 | .addr | .rst | .port => ops[0]?.toList
    | _ => []
  | _ => []

/-- The operand of an RST. -/
def Line.rstOperands (line : Line) : List Ptr :=
  match line.stmt with
  | some (.instr m ops) => if m.kind = .rst then ops[0]?.toList else []
  | _ => []

/-- Every symbol in the operand of an RST is defined somewhere in the source. -/
def RstDefined (lines : List (List Char)) : Prop :=
  ∀ raw ∈ lines, ∀ op ∈ (parseLine raw).rstOperands, ∀ name ∈ refsOf op, name ∈ definedNames lines

instance (lines : List (List Char)) : Decidable (RstDefined lines) :=
  inferInstanceAs (Decidable (∀ raw ∈ lines, ∀ op ∈ (parseLine raw).rstOperands,
    ∀ name ∈ refsOf op, name ∈ definedNames lines))

namespace Asm

/-- What a line defines, at location `pc` under the table `syms`. -/
inductive Defines (syms : Symbols) (pc : ℤ) (line : Line) : Name → ℤ → Prop
  | label {name : Name} (h : line.label = some name) : Defines syms pc line name pc
  | equ {name : Name} {expr : Ptr} (h : line.stmt = some (.equ name expr)) :
    Defines syms pc line name (evaluate ⟨syms, pc⟩ expr).1

/-- **The table of `a` is a fixpoint of the source**, and what the emitting pass emits uses it. -/
structure Consistent (a : Asm) (lines : List (List Char)) : Prop where
  /-- The emitting pass does not change the table. -/
  unchanged : (a.emitPass lines).syms = a.syms
  /-- Every statement is assembled under it. -/
  inForce : ∀ pre raw post, lines = pre ++ raw :: post →
    ((a.emitPass pre).defineLabel (parseLine raw)).syms = a.syms
  /-- A label has the location counter of its line. -/
  label : ∀ pre raw post name, lines = pre ++ raw :: post →
    (parseLine raw).label = some name → a.syms.find name = some (a.emitPass pre).pc
  /-- The name of an EQU has the value of its expression, under the table itself. -/
  equ : ∀ pre raw post name expr, lines = pre ++ raw :: post →
    (parseLine raw).stmt = some (.equ name expr) →
      (evaluate ⟨a.syms, (a.emitPass pre).pc⟩ expr).2.ok = true ∧
        a.syms.find name = some (evaluate ⟨a.syms, (a.emitPass pre).pc⟩ expr).1
  /-- All definitions of a name agree. -/
  agree : ∀ pre raw post pre' raw' post' name value value', lines = pre ++ raw :: post →
    lines = pre' ++ raw' :: post' →
    Defines a.syms (a.emitPass pre).pc (parseLine raw) name value →
    Defines a.syms (a.emitPass pre').pc (parseLine raw') name value' → value = value'
  /-- Every symbol in a value that is emitted has a value. -/
  defined : ∀ raw ∈ lines, ∀ stmt, (parseLine raw).stmt = some stmt →
    ∀ op ∈ stmt.valueOperands, ∀ name ∈ refsOf op, (a.syms.find name).isSome

/-! ## Quiet passes -/

/-- Nothing has changed and nothing has been reported. -/
structure Quiet (a : Asm) : Prop where
  changed : a.changed = false
  errors : a.errors = []

variable {a b : Asm}

theorem Extends.quiet_left (h : Extends a b) (hb : Quiet b) : Quiet a ∧ b.syms = a.syms := by
  obtain ⟨hchanged, hsyms⟩ := h.quiet hb.changed
  have herrors := h.errors
  rw [hb.errors] at herrors
  exact ⟨⟨hchanged, List.prefix_nil.mp herrors⟩, hsyms⟩

theorem not_quiet_err (a : Asm) (text : List Char) : ¬ Quiet (a.err text) := fun h =>
  absurd h.errors (List.append_ne_nil_of_right_ne_nil _ (List.cons_ne_nil _ _))

theorem not_quiet_report (he : a.emitting = true) (text : List Char) :
    ¬ Quiet (a.report text) := by
  rw [report, if_pos he]
  exact a.not_quiet_err text

/-- **A quiet definition** finds its value in the table. -/
theorem find_of_quiet_define {name : Name} {value : ℤ} (h : Quiet (a.define name value)) :
    a.syms.find name = some value := by
  rcases a.define_cases name value with ⟨hfind, -⟩ | ⟨syms, heq, -⟩ | ⟨text, heq⟩
  · exact hfind
  · rw [heq] at h
    exact absurd h.changed.symm Bool.false_ne_true
  · rw [heq] at h
    exact absurd h (a.not_quiet_err text)

/-- **A quiet value** is in order. -/
theorem ok_of_quiet_value (he : a.emitting = true) {stmtPc : ℤ} {ops : List Ptr} {i : ℕ} {m : Mnem}
    (h : Quiet (a.value stmtPc ops i m).2) :
    ∀ op ∈ ops[i]?.toList, (evaluate ⟨a.syms, stmtPc⟩ op).2.ok = true := by
  intro op hop
  have hget : ops[i]? = some op := Option.mem_toList.mp hop
  by_contra hok
  have hval : (a.value stmtPc ops i m).2 =
      a.report ("undefined symbol in ".toList ++ m.name.toList) := by
    rw [value, operand, hget]
    exact if_neg hok
  rw [hval] at h
  exact not_quiet_report he _ h

/-- The same after a register operand. -/
theorem ok_of_quiet_register (he : a.emitting = true) {stmtPc : ℤ} {ops : List Ptr} {i : ℕ}
    {m : Mnem} {r : Option ℕ} {message : List Char}
    (h : Quiet ((a.register r message).2.value stmtPc ops i m).2) :
    ∀ op ∈ ops[i]?.toList, (evaluate ⟨a.syms, stmtPc⟩ op).2.ok = true := by
  have hreg := a.emits_register r message
  have hok := ok_of_quiet_value (by rw [hreg.emitting, he]) h
  rw [hreg.syms] at hok
  exact hok

/-- The values of a quiet instruction are in order, unless it is an RST. -/
theorem ok_of_quiet_execInstr (he : a.emitting = true) {stmtPc : ℤ} {m : Mnem} {ops : List Ptr}
    (h : Quiet (a.execInstr stmtPc m ops)) (hrst : m.kind ≠ .rst) :
    ∀ op ∈ (Stmt.instr m ops).valueOperands, (evaluate ⟨a.syms, stmtPc⟩ op).2.ok = true := by
  unfold execInstr at h
  dsimp only at h
  unfold Stmt.valueOperands
  dsimp only
  cases hkind : m.kind with
  | rst => exact absurd hkind hrst
  | mvi =>
    rw [hkind] at h
    exact ok_of_quiet_register he
      (((emits_emitByte _ _).trans (emits_emitByte _ _)).extends.quiet_left h).1
  | lxi =>
    rw [hkind] at h
    exact ok_of_quiet_register he
      (((emits_emitByte _ _).trans (emits_emitWord _ _)).extends.quiet_left h).1
  | imm8 =>
    rw [hkind] at h
    exact ok_of_quiet_value he
      (((emits_emitByte _ _).trans (emits_emitByte _ _)).extends.quiet_left h).1
  | addr =>
    rw [hkind] at h
    exact ok_of_quiet_value he
      (((emits_emitByte _ _).trans (emits_emitWord _ _)).extends.quiet_left h).1
  | port =>
    rw [hkind] at h
    exact ok_of_quiet_value he
      (((emits_emitByte _ _).trans (emits_emitByte _ _)).extends.quiet_left h).1
  | none => exact fun op hop => absurd hop List.not_mem_nil
  | r8d => exact fun op hop => absurd hop List.not_mem_nil
  | r8s => exact fun op hop => absurd hop List.not_mem_nil
  | mov => exact fun op hop => absurd hop List.not_mem_nil
  | rp => exact fun op hop => absurd hop List.not_mem_nil
  | stk => exact fun op hop => absurd hop List.not_mem_nil
  | ax => exact fun op hop => absurd hop List.not_mem_nil

theorem ok_of_quiet_datum (he : a.emitting = true) {stmtPc : ℤ} {directive : String} {op : Ptr}
    (h : Quiet (a.datum stmtPc directive op).2) : (evaluate ⟨a.syms, stmtPc⟩ op).2.ok = true := by
  by_contra hok
  rw [datum] at h
  dsimp only at h
  rw [if_neg hok] at h
  exact not_quiet_report he _ h

/-- The operands of a quiet data directive are in order. -/
theorem ok_of_quiet_foldl {f : Asm → Ptr → Asm} {n : ℕ} (hf : ∀ a op, Emits n a (f a op))
    {stmtPc : ℤ} (hok : ∀ (a : Asm) (op : Ptr), a.emitting = true → Quiet (f a op) →
      (evaluate ⟨a.syms, stmtPc⟩ op).2.ok = true) {ops : List Ptr} (he : a.emitting = true)
    (h : Quiet (ops.foldl f a)) : ∀ op ∈ ops, (evaluate ⟨a.syms, stmtPc⟩ op).2.ok = true := by
  induction ops generalizing a with
  | nil => exact fun op hop => absurd hop List.not_mem_nil
  | cons op ops ih =>
    intro op' hop'
    have hfirst := (emits_foldl hf ops (f a op)).extends.quiet_left h
    rcases List.mem_cons.mp hop' with rfl | hop'
    · exact hok a op' he hfirst.1
    · have hrest := ih (by rw [(hf a op).emitting, he]) h op' hop'
      rw [(hf a op).syms] at hrest
      exact hrest

/-- **In a quiet statement** of the emitting pass every value that is emitted is in order, unless
it is that of an RST. -/
theorem ok_of_quiet_exec (he : a.emitting = true) {stmtPc : ℤ} {stmt : Stmt}
    (h : Quiet (a.exec stmtPc stmt)) (hrst : ∀ m ops, stmt = .instr m ops → m.kind ≠ .rst) :
    ∀ op ∈ stmt.valueOperands, (evaluate ⟨a.syms, stmtPc⟩ op).2.ok = true := by
  cases stmt with
  | equ name expr => exact fun op hop => absurd hop List.not_mem_nil
  | org ops => exact fun op hop => absurd hop List.not_mem_nil
  | finish => exact fun op hop => absurd hop List.not_mem_nil
  | ds ops => exact fun op hop => absurd hop List.not_mem_nil
  | unknown mnemonic => exact fun op hop => absurd hop List.not_mem_nil
  | instr m ops => exact ok_of_quiet_execInstr he h (hrst m ops rfl)
  | db ops =>
    exact ok_of_quiet_foldl (fun a op => (a.emits_datum stmtPc "DB" op).trans (emits_emitByte _ _))
      (fun a op he h => ok_of_quiet_datum he ((emits_emitByte _ _).extends.quiet_left h).1) he h
  | dw ops =>
    exact ok_of_quiet_foldl (fun a op => (a.emits_datum stmtPc "DW" op).trans (emits_emitWord _ _))
      (fun a op he h => ok_of_quiet_datum he ((emits_emitWord _ _).extends.quiet_left h).1) he h

/-! ## A quiet line -/

/-- **What a quiet line of the emitting pass says** holds of the table. -/
theorem holds_of_quiet_nextLine (he : a.emitting = true) {raw : List Char}
    (h : Quiet (a.nextLine raw)) :
    (a.defineLabel (parseLine raw)).syms = a.syms ∧
    (∀ name, (parseLine raw).label = some name → a.syms.find name = some a.pc) ∧
    (∀ name expr, (parseLine raw).stmt = some (.equ name expr) →
      (evaluate ⟨a.syms, a.pc⟩ expr).2.ok = true ∧
        a.syms.find name = some (evaluate ⟨a.syms, a.pc⟩ expr).1) ∧
    (∀ stmt, (parseLine raw).stmt = some stmt → (∀ m ops, stmt = .instr m ops → m.kind ≠ .rst) →
      ∀ op ∈ stmt.valueOperands, (evaluate ⟨a.syms, a.pc⟩ op).2.ok = true) := by
  have hexec : Quiet ((a.defineLabel (parseLine raw)).execLine a.pc (parseLine raw)) :=
    ⟨h.changed, h.errors⟩
  obtain ⟨hquiet, -⟩ := (extends_execLine _ _ _).quiet_left hexec
  obtain ⟨-, hsyms⟩ := (a.extends_defineLabel _).quiet_left hquiet
  have hemit : (a.defineLabel (parseLine raw)).emitting = true := by
    rw [(a.extends_defineLabel (parseLine raw)).emitting, he]
  refine ⟨hsyms, ?_, ?_, ?_⟩
  · intro name hname
    rw [defineLabel, hname] at hquiet
    exact find_of_quiet_define hquiet
  · intro name expr hstmt
    rw [execLine, hstmt] at hexec
    dsimp only at hexec
    rw [exec, hsyms] at hexec
    by_cases hok : (evaluate ⟨a.syms, a.pc⟩ expr).2.ok = true
    · rw [if_pos hok] at hexec
      have hfind := find_of_quiet_define hexec
      rw [hsyms] at hfind
      exact ⟨hok, hfind⟩
    · rw [if_neg hok] at hexec
      exact absurd hexec (not_quiet_report hemit _)
  · intro stmt hstmt hrst
    rw [execLine, hstmt] at hexec
    have hok := ok_of_quiet_exec hemit hexec hrst
    rw [hsyms] at hok
    exact hok

/-! ## Where the names come from -/

/-- Every entry of the table is a definition of the source, cut to 31 characters. -/
def Named (lines : List (List Char)) (a : Asm) : Prop :=
  ∀ s ∈ a.syms, ∃ name ∈ definedNames lines, s.name = name.take 31

variable {lines : List (List Char)}

theorem mem_replace {name : Name} {value : ℤ} {syms : Symbols} {s : Symbol}
    (h : s ∈ syms.replace name value) : ∃ t ∈ syms, s.name = t.name := by
  induction syms with
  | nil => exact absurd h List.not_mem_nil
  | cons t syms ih =>
    rw [Symbols.replace] at h
    split at h
    · rcases List.mem_cons.mp h with rfl | hs
      · exact ⟨t, List.mem_cons_self, rfl⟩
      · exact ⟨s, List.mem_cons_of_mem _ hs, rfl⟩
    · rcases List.mem_cons.mp h with rfl | hs
      · exact ⟨s, List.mem_cons_self, rfl⟩
      · obtain ⟨u, hu, hname⟩ := ih hs
        exact ⟨u, List.mem_cons_of_mem _ hu, hname⟩

theorem Named.define (h : Named lines a) {name : Name} (hname : name ∈ definedNames lines)
    (value : ℤ) : Named lines (a.define name value) := by
  rcases a.define_cases name value with ⟨-, heq⟩ | ⟨syms, heq, hsyms⟩ | ⟨text, heq⟩
  · rw [heq]
    exact h
  · rw [heq]
    intro s hs
    rcases hsyms with rfl | rfl
    · rcases List.mem_append.mp hs with hs | hs
      · exact h s hs
      · rw [List.mem_singleton.mp hs]
        exact ⟨name, hname, rfl⟩
    · obtain ⟨t, ht, hst⟩ := mem_replace hs
      rw [hst]
      exact h t ht
  · rw [heq]
    exact h

theorem Named.of_syms (h : Named lines a) (hsyms : b.syms = a.syms) : Named lines b := by
  rw [Named, hsyms]
  exact h

theorem Named.exec (h : Named lines a) (stmtPc : ℤ) {stmt : Stmt}
    (hstmt : ∀ name expr, stmt = .equ name expr → name ∈ definedNames lines) :
    Named lines (a.exec stmtPc stmt) := by
  cases stmt with
  | equ name expr =>
    rw [Asm.exec]
    split
    · exact h.define (hstmt name expr rfl) _
    · exact h.of_syms (a.emits_report _).syms
  | org ops =>
    rw [Asm.exec]
    split
    · exact h
    · exact h
  | finish => exact h
  | ds ops => exact h
  | db ops => exact h.of_syms (a.emits_db stmtPc ops).syms
  | dw ops => exact h.of_syms (a.emits_dw stmtPc ops).syms
  | instr m ops => exact h.of_syms (a.emits_execInstr stmtPc m ops).syms
  | unknown mnemonic => exact h.of_syms (a.emits_report _).syms

theorem Named.nextLine (h : Named lines a) {raw : List Char} (hraw : raw ∈ lines) :
    Named lines (a.nextLine raw) := by
  have hmem {name : Name} (hname : name ∈ (parseLine raw).names) : name ∈ definedNames lines :=
    List.mem_flatMap.mpr ⟨raw, hraw, hname⟩
  have hlabel : Named lines (a.defineLabel (parseLine raw)) := by
    unfold defineLabel
    split
    · exact h
    · rename_i name hname
      refine h.define (hmem ?_) _
      simp [Line.names, hname]
  change Named lines ((a.defineLabel (parseLine raw)).execLine a.pc (parseLine raw))
  unfold execLine
  split
  · exact hlabel
  · rename_i stmt hstmt
    refine hlabel.exec _ fun name expr heq => hmem ?_
    simp [Line.names, hstmt, heq]

theorem Named.assembleLines {rest : List (List Char)} (h : Named lines a)
    (hrest : ∀ raw ∈ rest, raw ∈ lines) : Named lines (a.assembleLines rest) := by
  induction rest generalizing a with
  | nil => exact h
  | cons raw rest ih =>
    exact ih (h.nextLine (hrest raw List.mem_cons_self))
      fun raw' hraw' => hrest raw' (List.mem_cons_of_mem _ hraw')

/-! ## The pass loop -/

/-- **The pass loop stops** after a pass without a change. -/
theorem passes_spec {n : ℕ} (h : passes lines n b = some a) (hb : Named lines b) :
    ∃ c : Asm, a = c.pass lines ∧ a.changed = false ∧ Named lines a := by
  induction n generalizing b with
  | zero => cases h
  | succ n ih =>
    have hpass : Named lines (b.pass lines) :=
      Named.assembleLines
        (a := { b with changed := false, emitting := false, pc := 0, curLine := 0 })
        hb fun _ hraw => hraw
    rw [passes] at h
    split at h
    · exact ih h hpass
    · cases h
      exact ⟨b, rfl, Bool.not_eq_true _ ▸ ‹_›, hpass⟩

/-- The emitting pass starts with the table that the last pass left, and so did the last pass. -/
theorem emitPass_core {c : Asm} (h : a = c.pass lines) (hchanged : a.changed = false) :
    (a.emitPass lines).changed = false ∧ (a.emitPass lines).syms = a.syms := by
  have hext : Extends _ (c.pass lines) := extends_assembleLines _ lines
  rw [← h] at hext
  obtain ⟨-, hsyms⟩ := hext.quiet hchanged
  have hcore : SameCore (c.pass lines) (a.emitPass lines) :=
    SameCore.assembleLines (b := a.startEmitting) ⟨hsyms.symm, rfl, hchanged.symm⟩ lines
  rw [← h] at hcore
  exact ⟨by rw [← hcore.changed, hchanged], hcore.syms.symm⟩

/-- In a quiet emitting pass every line is quiet, and starts with the table of the end. -/
theorem quiet_prefix (hquiet : Quiet (a.emitPass lines)) {pre post : List (List Char)}
    {raw : List Char} (hlines : lines = pre ++ raw :: post) :
    Quiet ((a.emitPass pre).nextLine raw) ∧ (a.emitPass pre).syms = a.syms ∧
      (a.emitPass pre).emitting = true := by
  have hrun : a.emitPass lines = ((a.emitPass pre).nextLine raw).assembleLines post := by
    rw [hlines, emitPass, assembleLines, List.foldl_append, List.foldl_cons]
    rfl
  have hstart : Extends a.startEmitting (a.emitPass pre) := extends_assembleLines _ pre
  rw [hrun] at hquiet
  obtain ⟨hline, -⟩ := (extends_assembleLines _ post).quiet_left hquiet
  obtain ⟨hpre, -⟩ := (extends_nextLine _ raw).quiet_left hline
  exact ⟨hline, (hstart.quiet_left hpre).2, hstart.emitting⟩

theorem mem_of_find_isSome {syms : Symbols} {name : Name} (h : (syms.find name).isSome) :
    ∃ s ∈ syms, s.name = name := by
  rw [Symbols.find, Option.isSome_map] at h
  obtain ⟨s, hs⟩ := Option.isSome_iff_exists.mp h
  have hname := List.find?_some hs
  exact ⟨s, List.mem_of_find?_eq_some hs, beq_iff_eq.mp hname⟩

/-- What holds of an accepted source whatever its operands of RST are. -/
theorem holds_of_quiet_emitPass (hquiet : Quiet (a.emitPass lines)) {pre post : List (List Char)}
    {raw : List Char} (hlines : lines = pre ++ raw :: post) :
    ((a.emitPass pre).defineLabel (parseLine raw)).syms = a.syms ∧
    (∀ name value, Defines a.syms (a.emitPass pre).pc (parseLine raw) name value →
      a.syms.find name = some value) ∧
    (∀ name expr, (parseLine raw).stmt = some (.equ name expr) →
      (evaluate ⟨a.syms, (a.emitPass pre).pc⟩ expr).2.ok = true) ∧
    (∀ stmt, (parseLine raw).stmt = some stmt → (∀ m ops, stmt = .instr m ops → m.kind ≠ .rst) →
      ∀ op ∈ stmt.valueOperands, ∀ name ∈ refsOf op, (a.syms.find name).isSome) := by
  obtain ⟨hline, hsyms, hemit⟩ := quiet_prefix hquiet hlines
  obtain ⟨hlabel, hname, hequ, hvalue⟩ := holds_of_quiet_nextLine hemit hline
  rw [hsyms] at hlabel hname hequ hvalue
  refine ⟨hlabel, ?_, fun name expr hstmt => (hequ name expr hstmt).1, ?_⟩
  · intro name value hdef
    cases hdef with
    | label h => exact hname name h
    | equ h => exact (hequ name _ h).2
  · intro stmt hstmt hrst op hop name hmem
    rw [← refs_evaluate ⟨a.syms, (a.emitPass pre).pc⟩] at hmem
    exact refs_of_ok (hvalue stmt hstmt hrst op hop) name hmem

/-- In an accepted source the symbols with a value are those that the source defines. -/
theorem find_isSome_iff (hquiet : Quiet (a.emitPass lines)) (hnamed : Named lines a) (name : Name) :
    (a.syms.find name).isSome ↔ name ∈ definedNames lines := by
  have hdefined (n : Name) (hn : n ∈ definedNames lines) : (a.syms.find n).isSome := by
    obtain ⟨raw, hraw, hn⟩ := List.mem_flatMap.mp hn
    obtain ⟨pre, post, hlines⟩ := List.append_of_mem hraw
    obtain ⟨-, hfind, -, -⟩ := holds_of_quiet_emitPass hquiet hlines
    rw [Line.names, List.mem_append] at hn
    rcases hn with hlabel | hequ
    · rw [hfind n _ (.label (Option.mem_toList.mp hlabel))]
      rfl
    · split at hequ
      · rename_i m expr hstmt
        rw [List.mem_singleton.mp hequ, hfind m _ (.equ hstmt)]
        rfl
      · exact absurd hequ List.not_mem_nil
  have hlength (n : Name) (hn : (a.syms.find n).isSome) : n.length ≤ 31 := by
    obtain ⟨s, hs, rfl⟩ := mem_of_find_isSome hn
    obtain ⟨m, -, hm⟩ := hnamed s hs
    rw [hm]
    exact List.length_take_le _ _
  constructor
  · intro h
    obtain ⟨s, hs, rfl⟩ := mem_of_find_isSome h
    obtain ⟨n, hn, hsn⟩ := hnamed s hs
    rw [hsn, List.take_of_length_le (hlength n (hdefined n hn))]
    exact hn
  · exact hdefined name

/-- **The accepted table is a fixpoint.** If the pass loop stops at `a` and the emitting pass ends
without an error, the source is consistent with the table of `a` exactly if no RST refers to a
symbol that the source does not define. -/
theorem consistent_iff (imageSize : ℤ) (lines : List (List Char)) (a : Asm)
    (hloop : passLoop imageSize lines = some a) (herrors : (a.emitPass lines).errors = []) :
    a.Consistent lines ↔ RstDefined lines := by
  have hinit : Named lines (Asm.init imageSize) := fun s hs => absurd hs List.not_mem_nil
  obtain ⟨c, hpass, hchanged, hnamed⟩ := passes_spec hloop hinit
  obtain ⟨hsettled, hsyms⟩ := emitPass_core hpass hchanged
  have hquiet : Quiet (a.emitPass lines) := ⟨hsettled, herrors⟩
  constructor
  · intro h raw hraw op hop name hname
    rw [Line.rstOperands] at hop
    split at hop
    · rename_i m ops hstmt
      split at hop
      · refine (find_isSome_iff hquiet hnamed name).mp (h.defined raw hraw _ hstmt op ?_ name hname)
        rw [Stmt.valueOperands, ‹m.kind = .rst›]
        exact hop
      · exact absurd hop List.not_mem_nil
    · exact absurd hop List.not_mem_nil
  · intro hrst
    refine ⟨hsyms, ?_, ?_, ?_, ?_, ?_⟩
    · intro pre raw post hlines
      exact (holds_of_quiet_emitPass hquiet hlines).1
    · intro pre raw post name hlines hlabel
      exact (holds_of_quiet_emitPass hquiet hlines).2.1 name _ (.label hlabel)
    · intro pre raw post name expr hlines hequ
      obtain ⟨-, hfind, hok, -⟩ := holds_of_quiet_emitPass hquiet hlines
      exact ⟨hok name expr hequ, hfind name _ (.equ hequ)⟩
    · intro pre raw post pre' raw' post' name value value' hlines hlines' hdef hdef'
      have hfind := (holds_of_quiet_emitPass hquiet hlines).2.1 name value hdef
      have hfind' := (holds_of_quiet_emitPass hquiet hlines').2.1 name value' hdef'
      exact Option.some.inj (by rw [← hfind, hfind'])
    · intro raw hraw stmt hstmt op hop name hname
      obtain ⟨pre, post, hlines⟩ := List.append_of_mem hraw
      by_cases hkind : ∃ m ops, stmt = .instr m ops ∧ m.kind = .rst
      · obtain ⟨m, ops, rfl, hm⟩ := hkind
        rw [Stmt.valueOperands, hm] at hop
        refine (find_isSome_iff hquiet hnamed name).mpr (hrst raw hraw op ?_ name hname)
        rw [Line.rstOperands, hstmt]
        change op ∈ if m.kind = .rst then ops[0]?.toList else []
        rw [if_pos hm]
        exact hop
      · refine (holds_of_quiet_emitPass hquiet hlines).2.2.2 stmt hstmt ?_ op hop name hname
        exact fun m ops heq hm => hkind ⟨m, ops, heq, hm⟩

/-- `VEC EQU LAST-1`, `LAST EQU 3`, `START: RST VEC`, `DW START,LAST`. -/
def forwardEqu : List (List Char) :=
  ["VEC EQU LAST-1\n".toList, "LAST EQU 3\n".toList, "START: RST VEC\n".toList,
    "  DW START,LAST\n".toList]

theorem consistent_iff_forwardEqu :
    ∃ a, passLoop 2048 forwardEqu = some a ∧ a.Consistent forwardEqu := by
  have hrun : (passLoop 2048 forwardEqu).map (fun a => (a.emitPass forwardEqu).errors) =
      some [] := by
    decide +kernel
  obtain ⟨a, hloop, herrors⟩ := Option.map_eq_some_iff.mp hrun
  exact ⟨a, hloop, (consistent_iff 2048 forwardEqu a hloop herrors).mpr (by decide +kernel)⟩

/-- The source is accepted, but the symbol of its RST has no value. -/
theorem not_consistent_rstX : ∃ a, passLoop 2048 ["  RST X\n".toList] = some a ∧
    (a.emitPass ["  RST X\n".toList]).errors = [] ∧ ¬ a.Consistent ["  RST X\n".toList] := by
  have hrun : (passLoop 2048 ["  RST X\n".toList]).map
      (fun a => ((a.emitPass ["  RST X\n".toList]).errors, a.syms)) = some ([], []) := by
    decide +kernel
  have huse : ((parseLine "  RST X\n".toList).stmt.any fun stmt =>
      stmt.valueOperands.any fun op => (refsOf op).contains ['X']) = true := by
    decide +kernel
  obtain ⟨a, hloop, ha⟩ := Option.map_eq_some_iff.mp hrun
  obtain ⟨herrors, hsyms⟩ := Prod.mk.inj ha
  obtain ⟨stmt, hstmt, hop⟩ := (Option.any_eq_true _ _).mp huse
  obtain ⟨op, hop, hname⟩ := List.any_eq_true.mp hop
  refine ⟨a, hloop, herrors, fun h => ?_⟩
  have hfind := h.defined _ List.mem_cons_self stmt hstmt op hop ['X']
    (List.contains_iff_mem.mp hname)
  rw [hsyms] at hfind
  exact absurd hfind Bool.false_ne_true

end Asm

end Umk80
