import Mathlib.Data.List.Perm.Subperm
import Umk80.Asm.Fixpoint
import Umk80.Lib.Relaxation

/-!
# Convergence of the passes

A pass of the assembler is a pass over a list of definitions: a label has the location counter of
its line, and the name of an EQU has the value of its expression. As long as ORG and DS do not use
symbols the location counters are the same in every pass, and what is left is the EQUs that refer
to each other. An EQU that uses later symbols has to wait for the next pass, and so has everything
that uses it, so the number of passes is the number of such uses on a chain of EQUs, and two more:
one for the values that need no waiting, and one that finds nothing to change.

Nothing is assumed about what the names look like, since what a name is and what an expression
refers to is taken from the assembler itself. Neither does a symbol have to be defined to be used.

## Main definitions

* `location` — the location counter, without a symbol table
* `Uses`, `Layered` — the dependencies of a source, and what is asked of them
* `Solution`, `WellFormed` — the table that a source describes, and when it has all symbols

## Main results

* `Layered.find_pass` — a pass of the assembler is a pass over the definitions
* `passLoop_layered` — the pass loop ends with the only solution
-/

namespace Umk80

open CString Relaxation

/-! ## What the source defines -/

/-- The location counter behind a statement, if its operands do not use symbols. -/
def Stmt.next (pc : ℤ) : Stmt → ℤ
  | .org ops =>
    let v := (Asm.init 0).operand pc ops 0
    if v.2 then v.1 else pc
  | .ds ops => pc + ((Asm.init 0).operand pc ops 0).1
  | .db ops => pc + ops.length
  | .dw ops => pc + 2 * ops.length
  | .instr m _ => pc + m.kind.size
  | _ => pc

/-- The location counter behind a line. -/
def Line.next (pc : ℤ) (line : Line) : ℤ :=
  match line.stmt with
  | none => pc
  | some stmt => stmt.next pc

/-- The location counter behind some lines. -/
def location (lines : List (List Char)) : ℤ :=
  lines.foldl (fun pc raw => (parseLine raw).next pc) 0

/-- The operand that the location counter is computed from. -/
def Line.locationOperands (line : Line) : List Ptr :=
  match line.stmt with
  | some (.org ops) => ops[0]?.toList
  | some (.ds ops) => ops[0]?.toList
  | _ => []

/-- The names of EQUs, each with a symbol that its expression uses. -/
def equUses (lines : List (List Char)) : List (Name × Name) :=
  lines.flatMap fun raw =>
    match (parseLine raw).stmt with
    | some (.equ name expr) => (refsOf expr).map (name, ·)
    | _ => []

/-- The expression for `x` uses `y`. -/
def Uses (lines : List (List Char)) (x y : Name) : Prop := (x, y) ∈ equUses lines

/-- **A source whose symbols settle**: no path of dependencies has more than `f` uses of symbols
that are defined later. -/
structure Layered (lines : List (List Char)) (f : ℕ) : Prop where
  /-- No symbol is defined twice. -/
  once : (definedNames lines).Nodup
  room : (definedNames lines).length ≤ MAX_SYMS
  short : ∀ name ∈ definedNames lines, name.length ≤ 31
  /-- ORG and DS use no symbols. -/
  constant : ∀ raw ∈ lines, ∀ op ∈ (parseLine raw).locationOperands, refsOf op = []
  acyclic : ∀ x, ¬ Relation.TransGen (Uses lines) x x
  forward : ∀ x y n, Path (Uses lines) (Before (definedNames lines)) x y n → n ≤ f

/-- **A table that solves the definitions** of a source. -/
structure Solution (lines : List (List Char)) (syms : Symbols) : Prop where
  label : ∀ pre raw post name, lines = pre ++ raw :: post → (parseLine raw).label = some name →
    syms.find name = some (location pre)
  /-- The name of an EQU has the value of its expression, if that is in order. -/
  equ : ∀ pre raw post name expr, lines = pre ++ raw :: post →
    (parseLine raw).stmt = some (.equ name expr) →
      syms.find name = if (evaluate ⟨syms, location pre⟩ expr).2.ok then
        some (evaluate ⟨syms, location pre⟩ expr).1 else none
  only : ∀ name, name ∉ definedNames lines → syms.find name = none

/-! ## Lines as lists of definitions -/

/-- A table with the values of some symbols. -/
def tableOf (refs : List Name) (t : Table Name ℤ) : Symbols :=
  refs.filterMap fun name => (t name).map (Symbol.mk name)

theorem find_tableOf_eq (refs : List Name) (t : Table Name ℤ) (name : Name) :
    (tableOf refs t).find name = if name ∈ refs then t name else none := by
  induction refs with
  | nil => rfl
  | cons ref refs ih =>
    by_cases hname : ref = name
    · subst hname
      cases ht : t ref with
      | none =>
        rw [ht, ite_self] at ih
        rw [ite_self]
        simpa [tableOf, ht] using ih
      | some v => simp [tableOf, Symbols.find, ht]
    · have hmem : name ∈ ref :: refs ↔ name ∈ refs := by simp [Ne.symm hname]
      simp only [hmem, ← ih]
      cases ht : t ref with
      | none => simp [tableOf, ht]
      | some v => simp [tableOf, Symbols.find, ht, hname]

theorem find_tableOf {refs : List Name} {name : Name} (h : name ∈ refs) (t : Table Name ℤ) :
    (tableOf refs t).find name = t name := by
  rw [find_tableOf_eq, if_pos h]

/-- A label. -/
def labelDefinition (pc : ℤ) (name : Name) : Definition Name ℤ where
  name := name
  deps := []
  eval := fun _ => some pc
  congr := fun _ => rfl
  mono := fun _ h => h

/-- The name of an EQU. -/
def equDefinition (pc : ℤ) (name : Name) (expr : Ptr) : Definition Name ℤ where
  name := name
  deps := refsOf expr
  eval := fun t =>
    let r := evaluate ⟨tableOf (refsOf expr) t, pc⟩ expr
    if r.2.ok then some r.1 else none
  congr := by
    intro t t' h
    have htable : tableOf (refsOf expr) t = tableOf (refsOf expr) t' :=
      List.filterMap_congr fun name hname => by rw [h name hname]
    rw [htable]
  mono := by
    intro t t' h hsome
    have hok : (evaluate ⟨tableOf (refsOf expr) t, pc⟩ expr).2.ok = true := by
      by_contra hno
      rw [if_neg hno] at hsome
      exact Bool.false_ne_true hsome
    have hrefs := refs_of_ok hok
    rw [refs_evaluate] at hrefs
    have hok' : (evaluate ⟨tableOf (refsOf expr) t', pc⟩ expr).2.ok = true := by
      refine evaluate_ok_mono (fun name hname => ?_) hok
      have hdefined := hrefs name hname
      rw [find_tableOf hname] at hdefined ⊢
      exact h name hname hdefined
    rw [if_pos hok']
    rfl

/-- An EQU under a symbol table. -/
theorem eval_equDefinition (pc : ℤ) (name : Name) (expr : Ptr) (syms : Symbols) :
    (equDefinition pc name expr).eval syms.find =
      if (evaluate ⟨syms, pc⟩ expr).2.ok then some (evaluate ⟨syms, pc⟩ expr).1 else none := by
  have hagree : Env.Agrees ⟨tableOf (refsOf expr) syms.find, pc⟩ ⟨syms, pc⟩ (refsOf expr) :=
    ⟨rfl, fun name hname => find_tableOf hname _⟩
  obtain ⟨hvalue, hok⟩ := evaluate_congr hagree
  simp only [equDefinition, hvalue, hok]

/-- What a line defines at `pc`. -/
def Line.definitions (pc : ℤ) (line : Line) : List (Definition Name ℤ) :=
  (line.label.map (labelDefinition pc)).toList ++
    match line.stmt with
    | some (.equ name expr) => [equDefinition pc name expr]
    | _ => []

/-- What some lines define, the first of them at `pc`. -/
def definitions : ℤ → List (List Char) → List (Definition Name ℤ)
  | _, [] => []
  | pc, raw :: lines =>
    (parseLine raw).definitions pc ++ definitions ((parseLine raw).next pc) lines

theorem Line.mem_definitions {pc : ℤ} {line : Line} {d : Definition Name ℤ} :
    d ∈ line.definitions pc ↔
      (∃ name, line.label = some name ∧ d = labelDefinition pc name) ∨
        ∃ name expr, line.stmt = some (.equ name expr) ∧ d = equDefinition pc name expr := by
  rw [Line.definitions, List.mem_append]
  refine or_congr ?_ ?_
  · rw [Option.mem_toList, Option.map_eq_some_iff]
    simp only [eq_comm]
  · split
    · next name expr hstmt => simp [hstmt]
    · next hne => simpa using fun name expr hstmt => absurd hstmt (hne name expr)

theorem Line.names_definitions (pc : ℤ) (line : Line) :
    Relaxation.names (line.definitions pc) = line.names := by
  obtain ⟨label, stmt⟩ := line
  rw [Relaxation.names, Line.definitions, Line.names, List.map_append]
  congr 1
  · cases label with
    | none => rfl
    | some name => rfl
  · cases stmt with
    | none => rfl
    | some stmt =>
      cases stmt with
      | equ name expr => rfl
      | _ => rfl

theorem names_definitions (pc : ℤ) (lines : List (List Char)) :
    names (definitions pc lines) = definedNames lines := by
  induction lines generalizing pc with
  | nil => rfl
  | cons raw lines ih =>
    rw [definitions, names, List.map_append, ← names, ← names, Line.names_definitions, ih]
    rfl

/-- Every definition is that of a line at its location. -/
theorem mem_definitions {pc : ℤ} {lines : List (List Char)} {d : Definition Name ℤ} :
    d ∈ definitions pc lines ↔ ∃ pre raw post, lines = pre ++ raw :: post ∧
      d ∈ (parseLine raw).definitions (pre.foldl (fun pc raw => (parseLine raw).next pc) pc) := by
  induction lines generalizing pc with
  | nil => simp [definitions]
  | cons raw lines ih =>
    rw [definitions, List.mem_append, ih]
    constructor
    · rintro (h | ⟨pre, raw', post, rfl, h⟩)
      · exact ⟨[], raw, lines, rfl, h⟩
      · exact ⟨raw :: pre, raw', post, rfl, h⟩
    · rintro ⟨pre, raw', post, hlines, h⟩
      cases pre with
      | nil =>
        obtain ⟨rfl, rfl⟩ := List.cons.inj hlines
        exact Or.inl h
      | cons raw'' pre =>
        obtain ⟨rfl, rfl⟩ := List.cons.inj hlines
        exact Or.inr ⟨pre, raw', post, rfl, h⟩

/-! ## The symbol table as a table -/

namespace Symbols

theorem find_append (syms : Symbols) (name : Name) (value : ℤ) (x : Name) :
    find (syms ++ [⟨name, value⟩]) x =
      (syms.find x).or (if x = name then some value else none) := by
  have hlast : ([⟨name, value⟩] : Symbols).find? (·.name == x) =
      if x = name then some ⟨name, value⟩ else none := by
    by_cases h : x = name
    · simp [h]
    · simp [h, Ne.symm h]
  rw [find, List.find?_append, Option.map_or, hlast, find, apply_ite (Option.map _)]
  rfl

theorem find_replace {syms : Symbols} {name : Name} (h : (syms.find name).isSome) (value : ℤ)
    (x : Name) :
    (syms.replace name value).find x = if x = name then some value else syms.find x := by
  induction syms with
  | nil => exact absurd h Bool.false_ne_true
  | cons s syms ih =>
    rw [replace]
    by_cases hs : s.name = name
    · rw [if_pos hs]
      by_cases hx : x = name
      · simp [find, hx, hs]
      · simp [find, hx, hs, Ne.symm hx]
    · have hrest : (find syms name).isSome := by simpa [find, hs] using h
      rw [if_neg hs]
      by_cases hsx : s.name = x
      · have hx : x ≠ name := fun heq => hs (by rw [hsx, heq])
        simp [find, hsx, hx]
      · have htail := ih hrest
        simpa [find, hsx] using htail

theorem map_name_replace (syms : Symbols) (name : Name) (value : ℤ) :
    (syms.replace name value).map Symbol.name = syms.map Symbol.name := by
  induction syms with
  | nil => rfl
  | cons s syms ih =>
    rw [replace]
    split
    · rfl
    · rw [List.map_cons, ih, List.map_cons]

end Symbols

/-- A table without duplicates, of names out of a list. -/
structure Tidy (xs : List Name) (syms : Symbols) : Prop where
  nodup : (syms.map Symbol.name).Nodup
  subset : ∀ s ∈ syms, s.name ∈ xs

theorem not_mem_of_find_eq_none {syms : Symbols} {name : Name} (h : syms.find name = none) :
    name ∉ syms.map Symbol.name := by
  intro hmem
  obtain ⟨s, hs, rfl⟩ := List.mem_map.mp hmem
  exact List.find?_eq_none.mp (Option.map_eq_none_iff.mp h) s hs (beq_self_eq_true s.name)

/-- A name that is not in the table finds room. -/
theorem Tidy.length_lt {xs : List Name} {syms : Symbols} (h : Tidy xs syms) {name : Name}
    (hname : name ∈ xs) (hfind : syms.find name = none) : syms.length < xs.length := by
  have hnodup : (name :: syms.map Symbol.name).Nodup :=
    List.nodup_cons.mpr ⟨not_mem_of_find_eq_none hfind, h.nodup⟩
  have hsub : name :: syms.map Symbol.name ⊆ xs := by
    intro x hx
    rcases List.mem_cons.mp hx with rfl | hx
    · exact hname
    · obtain ⟨s, hs, rfl⟩ := List.mem_map.mp hx
      exact h.subset s hs
  have hlen := (hnodup.subperm hsub).length_le
  rwa [List.length_cons, List.length_map] at hlen

namespace Asm

variable {a : Asm} {xs : List Name} {lines : List (List Char)}

/-- A definition that finds its value in the table. -/
theorem define_eq_self {name : Name} {value : ℤ} (h : a.syms.find name = some value) :
    a.define name value = a := by
  simp [define, symSet, h]

/-- **A definition** gives a name a value. -/
theorem find_define (h : Tidy xs a.syms) (hroom : xs.length ≤ MAX_SYMS) {name : Name}
    (hname : name ∈ xs) (hshort : name.length ≤ 31) (value : ℤ) :
    (a.define name value).syms.find = Function.update a.syms.find name (some value) ∧
      Tidy xs (a.define name value).syms := by
  unfold define symSet
  cases hfind : a.syms.find name with
  | none =>
    have hlen := h.length_lt hname hfind
    simp only [if_neg (show ¬ MAX_SYMS ≤ a.syms.length by omega), if_true,
      List.take_of_length_le hshort]
    refine ⟨?_, ?_, ?_⟩
    · funext x
      rw [Symbols.find_append, Function.update_apply]
      by_cases hx : x = name
      · rw [if_pos hx, if_pos hx, hx, hfind, Option.none_or]
      · rw [if_neg hx, if_neg hx, Option.or_none]
    · rw [List.map_append]
      refine List.nodup_append.mpr ⟨h.nodup, List.nodup_singleton _, ?_⟩
      rintro x hx y hy rfl
      obtain rfl := List.mem_singleton.mp hy
      exact not_mem_of_find_eq_none hfind hx
    · intro s hs
      rcases List.mem_append.mp hs with hs | hs
      · exact h.subset s hs
      · rw [List.mem_singleton.mp hs]
        exact hname
  | some v =>
    by_cases hv : v ≠ value
    · simp only [if_pos hv, if_true]
      have hsome : (a.syms.find name).isSome := by rw [hfind]; rfl
      refine ⟨?_, ?_, ?_⟩
      · funext x
        rw [Symbols.find_replace hsome, Function.update_apply]
      · rw [Symbols.map_name_replace]
        exact h.nodup
      · intro s hs
        obtain ⟨t, ht, hst⟩ := mem_replace hs
        rw [hst]
        exact h.subset t ht
    · simp only [if_neg hv, Bool.false_eq_true, if_false]
      rw [← not_not.mp hv, ← hfind, Function.update_eq_self]
      exact ⟨rfl, h⟩

/-! ## A pass over the lines -/

/-- A statement that is no EQU leaves the table alone. -/
theorem exec_frame (a : Asm) (stmtPc : ℤ) {stmt : Stmt} (h : ∀ name expr, stmt ≠ .equ name expr) :
    (a.exec stmtPc stmt).syms = a.syms ∧ (a.exec stmtPc stmt).changed = a.changed := by
  cases stmt with
  | equ name expr => exact absurd rfl (h name expr)
  | org ops =>
    rw [exec]
    split
    · exact ⟨rfl, rfl⟩
    · exact ⟨rfl, rfl⟩
  | finish => exact ⟨rfl, rfl⟩
  | ds ops => exact ⟨rfl, rfl⟩
  | db ops => exact ⟨(a.emits_db stmtPc ops).syms, (a.emits_db stmtPc ops).changed⟩
  | dw ops => exact ⟨(a.emits_dw stmtPc ops).syms, (a.emits_dw stmtPc ops).changed⟩
  | instr m ops =>
    exact ⟨(a.emits_execInstr stmtPc m ops).syms, (a.emits_execInstr stmtPc m ops).changed⟩
  | unknown mnemonic => exact ⟨(a.emits_report _).syms, (a.emits_report _).changed⟩

/-- What an EQU does to the table. -/
theorem find_exec (h : Tidy xs a.syms) (hroom : xs.length ≤ MAX_SYMS) {name : Name}
    (hname : name ∈ xs) (hshort : name.length ≤ 31) (stmtPc : ℤ) (expr : Ptr) :
    (a.exec stmtPc (.equ name expr)).syms.find =
        assign a.syms.find (equDefinition stmtPc name expr) ∧
      Tidy xs (a.exec stmtPc (.equ name expr)).syms := by
  rw [exec, assign, eval_equDefinition]
  split
  · exact find_define h hroom hname hshort _
  · rw [(a.emits_report _).syms]
    exact ⟨rfl, h⟩

/-- **A line** makes the definitions that stand in it. -/
theorem find_nextLine (h : Tidy xs a.syms) (hroom : xs.length ≤ MAX_SYMS) {raw : List Char}
    (hnames : ∀ name ∈ (parseLine raw).names, name ∈ xs ∧ name.length ≤ 31) :
    (a.nextLine raw).syms.find = Relaxation.pass ((parseLine raw).definitions a.pc) a.syms.find ∧
      Tidy xs (a.nextLine raw).syms := by
  change ((a.defineLabel (parseLine raw)).execLine a.pc (parseLine raw)).syms.find = _ ∧
    Tidy xs ((a.defineLabel (parseLine raw)).execLine a.pc (parseLine raw)).syms
  generalize parseLine raw = line at hnames ⊢
  obtain ⟨label, stmt⟩ := line
  have hlabel : (a.defineLabel ⟨label, stmt⟩).syms.find =
      Relaxation.pass (label.map (labelDefinition a.pc)).toList a.syms.find ∧
        Tidy xs (a.defineLabel ⟨label, stmt⟩).syms := by
    cases label with
    | none => exact ⟨rfl, h⟩
    | some name =>
      obtain ⟨hname, hshort⟩ := hnames name (by simp [Line.names])
      exact find_define h hroom hname hshort a.pc
  rw [Line.definitions, pass_append, ← hlabel.1]
  cases stmt with
  | none => exact ⟨rfl, hlabel.2⟩
  | some stmt =>
    by_cases hequ : ∃ name expr, stmt = .equ name expr
    · obtain ⟨name, expr, rfl⟩ := hequ
      obtain ⟨hname, hshort⟩ := hnames name (by simp [Line.names])
      exact find_exec hlabel.2 hroom hname hshort a.pc expr
    · have hframe := exec_frame (a.defineLabel ⟨label, some stmt⟩) a.pc
        fun name expr heq => hequ ⟨name, expr, heq⟩
      rw [execLine, hframe.1]
      refine ⟨?_, hlabel.2⟩
      cases stmt with
      | equ name expr => exact absurd ⟨name, expr, rfl⟩ hequ
      | _ => rfl

/-- An operand without symbols has the same value under every table. -/
theorem operand_constant (a : Asm) (stmtPc : ℤ) {ops : List Ptr}
    (h : ∀ op ∈ ops[0]?.toList, refsOf op = []) :
    a.operand stmtPc ops 0 = (Asm.init 0).operand stmtPc ops 0 := by
  unfold operand
  cases hop : ops[0]? with
  | none => rfl
  | some op =>
    have hrefs := h op (by rw [hop]; exact List.mem_singleton_self op)
    have hagree : Env.Agrees ⟨a.syms, stmtPc⟩ ⟨(Asm.init 0).syms, stmtPc⟩ (refsOf op) :=
      ⟨rfl, fun name hname => absurd (hrefs ▸ hname) List.not_mem_nil⟩
    obtain ⟨hvalue, hok⟩ := evaluate_congr hagree
    exact Prod.ext hvalue hok

/-- **The location counter** goes the same way in every pass. -/
theorem pc_nextLine (a : Asm) {raw : List Char}
    (h : ∀ op ∈ (parseLine raw).locationOperands, refsOf op = []) :
    (a.nextLine raw).pc = (parseLine raw).next a.pc := by
  change ((a.defineLabel (parseLine raw)).execLine a.pc (parseLine raw)).pc = _
  generalize parseLine raw = line at h ⊢
  obtain ⟨label, stmt⟩ := line
  have hpc := a.defineLabel_pc ⟨label, stmt⟩
  rw [execLine, Line.next]
  cases stmt with
  | none => exact hpc
  | some stmt =>
    cases stmt with
    | equ name expr =>
      dsimp only
      rw [exec]
      split
      · rw [define_pc, hpc]
        rfl
      · rw [(emits_report _ _).pc, hpc]
        exact Int.add_zero _
    | org ops =>
      dsimp only
      rw [exec, operand_constant _ _ h, Stmt.next]
      split
      · rfl
      · exact hpc
    | finish => exact hpc
    | ds ops =>
      dsimp only
      rw [exec, operand_constant _ _ h, Stmt.next, hpc]
    | db ops =>
      dsimp only
      rw [(emits_db _ _ ops).pc, hpc, Stmt.next, Nat.one_mul]
    | dw ops =>
      dsimp only
      rw [(emits_dw _ _ ops).pc, hpc, Stmt.next]
      push_cast
      rfl
    | instr m ops =>
      dsimp only
      rw [exec, (emits_execInstr _ _ m ops).pc, hpc, Stmt.next]
    | unknown mnemonic =>
      dsimp only
      rw [exec, (emits_report _ _).pc, hpc]
      exact Int.add_zero _

/-- **The lines** make their definitions, one after the other. -/
theorem find_assembleLines (h : Tidy xs a.syms) (hroom : xs.length ≤ MAX_SYMS)
    (hconst : ∀ raw ∈ lines, ∀ op ∈ (parseLine raw).locationOperands, refsOf op = [])
    (hnames : ∀ name ∈ definedNames lines, name ∈ xs ∧ name.length ≤ 31) :
    (a.assembleLines lines).syms.find = Relaxation.pass (definitions a.pc lines) a.syms.find ∧
      Tidy xs (a.assembleLines lines).syms := by
  induction lines generalizing a with
  | nil => exact ⟨rfl, h⟩
  | cons raw lines ih =>
    obtain ⟨hfind, htidy⟩ := find_nextLine h hroom fun name hname =>
      hnames name (List.mem_append_left _ hname)
    have hrest := ih htidy (fun raw' hraw' => hconst raw' (List.mem_cons_of_mem _ hraw'))
      fun name hname => hnames name (List.mem_append_right _ hname)
    rw [a.pc_nextLine (hconst raw List.mem_cons_self), hfind] at hrest
    rw [definitions, pass_append]
    exact hrest

/-- A line whose definitions find their values in the table changes nothing. -/
theorem quiet_nextLine (he : a.emitting = false) {raw : List Char}
    (h : ∀ d ∈ (parseLine raw).definitions a.pc, ∀ v, d.eval a.syms.find = some v →
      a.syms.find d.name = some v) :
    (a.nextLine raw).syms = a.syms ∧ (a.nextLine raw).changed = a.changed := by
  change ((a.defineLabel (parseLine raw)).execLine a.pc (parseLine raw)).syms = _ ∧
    ((a.defineLabel (parseLine raw)).execLine a.pc (parseLine raw)).changed = _
  generalize parseLine raw = line at h ⊢
  obtain ⟨label, stmt⟩ := line
  have hlabel : a.defineLabel ⟨label, stmt⟩ = a := by
    cases label with
    | none => rfl
    | some name =>
      exact define_eq_self (h (labelDefinition a.pc name) (by simp [Line.definitions]) a.pc rfl)
  rw [hlabel, execLine]
  cases stmt with
  | none => exact ⟨rfl, rfl⟩
  | some stmt =>
    by_cases hequ : ∃ name expr, stmt = .equ name expr
    · obtain ⟨name, expr, rfl⟩ := hequ
      have hd := h (equDefinition a.pc name expr) (by simp [Line.definitions])
      rw [eval_equDefinition] at hd
      dsimp only
      rw [exec]
      split
      · next hok =>
        have hfind : a.syms.find name = some (evaluate ⟨a.syms, a.pc⟩ expr).1 := hd _ (if_pos hok)
        rw [define_eq_self hfind]
        exact ⟨rfl, rfl⟩
      · rw [report, he, if_neg Bool.false_ne_true]
        exact ⟨rfl, rfl⟩
    · exact a.exec_frame a.pc fun name expr heq => hequ ⟨name, expr, heq⟩

theorem quiet_assembleLines (he : a.emitting = false)
    (hconst : ∀ raw ∈ lines, ∀ op ∈ (parseLine raw).locationOperands, refsOf op = [])
    (h : ∀ d ∈ definitions a.pc lines, ∀ v, d.eval a.syms.find = some v →
      a.syms.find d.name = some v) : (a.assembleLines lines).changed = a.changed := by
  induction lines generalizing a with
  | nil => rfl
  | cons raw lines ih =>
    obtain ⟨hsyms, hchanged⟩ := quiet_nextLine he fun d hd => h d (List.mem_append_left _ hd)
    have hpc := a.pc_nextLine (hconst raw List.mem_cons_self)
    have hrest := ih (by rw [(a.extends_nextLine raw).emitting, he])
      (fun raw' hraw' => hconst raw' (List.mem_cons_of_mem _ hraw')) (by
        rw [hpc, hsyms]
        exact fun d hd => h d (List.mem_append_right _ hd))
    rw [assembleLines_cons, hrest, hchanged]

end Asm

/-! ## Pass after pass -/

variable {lines : List (List Char)} {f : ℕ} {a : Asm}

namespace Layered

/-- The table after `n` passes over the definitions. -/
def table (lines : List (List Char)) (n : ℕ) : Table Name ℤ :=
  (pass (definitions 0 lines))^[n] fun _ => none

theorem uses_definitions {d : Definition Name ℤ} (hd : d ∈ definitions 0 lines) {y : Name}
    (hy : y ∈ d.deps) : Uses lines d.name y := by
  obtain ⟨pre, raw, post, rfl, hline⟩ := mem_definitions.mp hd
  rcases Line.mem_definitions.mp hline with ⟨name, -, rfl⟩ | ⟨name, expr, hstmt, rfl⟩
  · exact absurd hy List.not_mem_nil
  · refine List.mem_flatMap.mpr ⟨raw, List.mem_append_right _ List.mem_cons_self, ?_⟩
    rw [hstmt]
    exact List.mem_map_of_mem hy

variable (h : Layered lines f)

include h

theorem nodup : (names (definitions 0 lines)).Nodup := by
  rw [names_definitions]
  exact h.once

theorem irrefl (x : Name) : ¬ Uses lines x x := fun huse =>
  h.acyclic x (Relation.TransGen.single huse)

theorem within (x : Name) : Within (Uses lines) (Before (names (definitions 0 lines))) f x := by
  rw [names_definitions]
  exact h.forward x

/-- A pass of the assembler is a pass over the definitions. -/
theorem find_pass (htidy : Tidy (definedNames lines) a.syms) :
    (a.pass lines).syms.find = pass (definitions 0 lines) a.syms.find ∧
      Tidy (definedNames lines) (a.pass lines).syms :=
  Asm.find_assembleLines
    (a := { a with changed := false, emitting := false, pc := 0, curLine := 0 })
    htidy h.room h.constant fun name hname => ⟨hname, h.short name hname⟩

/-- A pass under a table that a pass over the definitions does not change. -/
theorem changed_pass (hfixed : pass (definitions 0 lines) a.syms.find = a.syms.find) :
    (a.pass lines).changed = false :=
  Asm.quiet_assembleLines
    (a := { a with changed := false, emitting := false, pc := 0, curLine := 0 })
    rfl h.constant fun _ hd _ hv => get_of_fixed h.nodup hfixed hd hv

/-- **The loop ends** with the table of some pass, which another pass does not change. -/
theorem passes_eq_some {m n : ℕ} (htidy : Tidy (definedNames lines) a.syms)
    (hfind : a.syms.find = table lines n) (hbudget : f + 2 ≤ n + m) (hm : 0 < m) :
    ∃ b, passes lines m a = some b ∧ b.changed = false ∧ ∃ j, b.syms.find = table lines j ∧
      pass (definitions 0 lines) (table lines j) = table lines j := by
  induction m generalizing a n with
  | zero => exact absurd hm (Nat.lt_irrefl 0)
  | succ m ih =>
    obtain ⟨hpass, htidy'⟩ := h.find_pass htidy
    rw [hfind] at hpass
    rw [passes]
    cases hchanged : (a.pass lines).changed with
    | false =>
      have hext : Asm.Extends _ (a.pass lines) := Asm.extends_assembleLines _ lines
      have hsyms : (a.pass lines).syms = a.syms := (hext.quiet hchanged).2
      refine ⟨a.pass lines, rfl, hchanged, n, ?_, ?_⟩
      · rw [hsyms, hfind]
      · rw [← hpass, hsyms, hfind]
    | true =>
      have hearly : n ≤ f := by
        by_contra hlate
        have hfixed := pass_iterate_succ h.nodup h.irrefl (fun d hd y hy => uses_definitions hd hy)
          (Nat.lt_of_not_le hlate) (fun d _ => h.within d.name) fun _ => none
        have hquiet := h.changed_pass (a := a) (by rw [hfind]; exact hfixed)
        exact Bool.false_ne_true (by rw [← hquiet, hchanged])
      have hnext : (a.pass lines).syms.find = table lines (n + 1) := by
        rw [hpass, table, table, Function.iterate_succ_apply']
      obtain ⟨b, hb⟩ := ih htidy' hnext (by omega) (by omega)
      exact ⟨b, hb⟩

end Layered

/-! ## The solution -/

/-- A solution of the definitions is a solution of the source. -/
theorem solution_iff (syms : Symbols) :
    Solution lines syms ↔ Solves (definitions 0 lines) syms.find := by
  constructor
  · intro h
    refine ⟨fun d hd => ?_, ?_⟩
    · obtain ⟨pre, raw, post, hlines, hline⟩ := mem_definitions.mp hd
      rcases Line.mem_definitions.mp hline with ⟨name, hname, rfl⟩ | ⟨name, expr, hstmt, rfl⟩
      · exact h.label pre raw post name hlines hname
      · rw [eval_equDefinition]
        exact h.equ pre raw post name expr hlines hstmt
    · rw [names_definitions]
      exact h.only
  · intro h
    refine ⟨fun pre raw post name hlines hlabel => ?_,
      fun pre raw post name expr hlines hstmt => ?_, ?_⟩
    · exact h.value (labelDefinition (location pre) name) (mem_definitions.mpr
        ⟨pre, raw, post, hlines, Line.mem_definitions.mpr (Or.inl ⟨name, hlabel, rfl⟩)⟩)
    · rw [← eval_equDefinition _ name]
      exact h.value (equDefinition (location pre) name expr) (mem_definitions.mpr
        ⟨pre, raw, post, hlines, Line.mem_definitions.mpr (Or.inr ⟨name, expr, hstmt, rfl⟩)⟩)
    · have honly := h.only
      rwa [names_definitions] at honly

/-- More passes than needed do no harm. -/
theorem passes_of_le {m n : ℕ} (hmn : m ≤ n) {b : Asm} (h : passes lines m a = some b) :
    passes lines n a = some b := by
  induction m generalizing a n with
  | zero => cases h
  | succ m ih =>
    obtain ⟨n, rfl⟩ := Nat.exists_eq_succ_of_ne_zero (show n ≠ 0 by omega)
    rw [passes] at h ⊢
    split at h
    · next hchanged =>
      rw [if_pos hchanged]
      exact ih (by omega) h
    · next hchanged => rwa [if_neg hchanged]

/-- Every symbol that an EQU uses is defined, and its expression is one: it is in order as soon as
its symbols have values. -/
structure WellFormed (lines : List (List Char)) : Prop where
  defined : ∀ x y, Uses lines x y → y ∈ definedNames lines
  inOrder : ∀ raw ∈ lines, ∀ name expr, (parseLine raw).stmt = some (.equ name expr) →
    ∃ env, (evaluate env expr).2.ok = true

theorem WellFormed.eval_isSome (h : WellFormed lines) {d : Definition Name ℤ}
    (hd : d ∈ definitions 0 lines) : ∃ t, (d.eval t).isSome := by
  obtain ⟨pre, raw, post, rfl, hline⟩ := mem_definitions.mp hd
  rcases Line.mem_definitions.mp hline with ⟨name, -, rfl⟩ | ⟨name, expr, hstmt, rfl⟩
  · exact ⟨fun _ => none, rfl⟩
  · obtain ⟨env, hok⟩ := h.inOrder raw (List.mem_append_right _ List.mem_cons_self) name expr hstmt
    have hrefs := refs_of_ok hok
    rw [refs_evaluate] at hrefs
    refine ⟨env.syms.find, ?_⟩
    rw [eval_equDefinition, if_pos]
    · rfl
    · exact evaluate_ok_mono hrefs hok

/-- **The pass loop converges**: after at most `f + 2` passes it ends with a pass that changes
nothing, at the only solution of the definitions. In a well-formed source the solution has a value
for every symbol. -/
theorem passLoop_layered (imageSize : ℤ) (lines : List (List Char)) (f : ℕ) (h : Layered lines f)
    (hf : f ≤ 14) : ∃ a, passes lines (f + 2) (Asm.init imageSize) = some a ∧
      passLoop imageSize lines = some a ∧ a.changed = false ∧ Solution lines a.syms ∧
      (∀ syms, Solution lines syms → ∀ name, syms.find name = a.syms.find name) ∧
      (WellFormed lines → ∀ name ∈ definedNames lines, (a.syms.find name).isSome) := by
  have htidy : Tidy (definedNames lines) (Asm.init imageSize).syms :=
    ⟨List.nodup_nil, fun s hs => absurd hs List.not_mem_nil⟩
  obtain ⟨a, hpasses, hchanged, j, hfind, hfixed⟩ :=
    h.passes_eq_some (m := f + 2) (n := 0) htidy rfl (by omega) (by omega)
  have hsolves : Solves (definitions 0 lines) a.syms.find := by
    rw [hfind]
    exact solves_of_fixed h.nodup hfixed
  have huses : ∀ d ∈ definitions 0 lines, ∀ y ∈ d.deps, Uses lines d.name y :=
    fun d hd y hy => Layered.uses_definitions hd hy
  have hbudget : f + 2 ≤ MAX_PASSES := Nat.add_le_add_right hf 2
  refine ⟨a, hpasses, passes_of_le hbudget hpasses, hchanged, (solution_iff a.syms).mpr hsolves,
    fun syms hsyms name => ?_, fun hwf name hname => ?_⟩
  · have hunique := ((solution_iff syms).mp hsyms).unique h.irrefl huses
      (fun d _ => h.within d.name) hsolves
    exact congrFun hunique name
  · rw [← names_definitions 0 lines] at hname
    refine hsolves.isSome h.irrefl huses (fun d _ => h.within d.name) (fun d hd y hy => ?_)
      (fun d hd => hwf.eval_isSome hd) hname
    rw [names_definitions]
    exact hwf.defined _ _ (huses d hd y hy)

/-- `A EQU B+1`, `B EQU C+1`, `  ORG 100H`, `C: NOP`: two forward references on one path. -/
def staircase : List (List Char) :=
  ["A EQU B+1\n".toList, "B EQU C+1\n".toList, "  ORG 100H\n".toList, "C: NOP\n".toList]

theorem layered_staircase : Layered staircase 2 := by
  have huses : equUses staircase = [(['A'], ['B']), (['B'], ['C'])] := by decide +kernel
  have hrank : ∀ x y, Uses staircase x y →
      (if y = ['A'] then 2 else if y = ['B'] then 1 else 0) <
        if x = ['A'] then 2 else if x = ['B'] then 1 else 0 := by
    intro x y h
    rw [Uses, huses, List.mem_cons, List.mem_singleton] at h
    rcases h with h | h
    · obtain ⟨rfl, rfl⟩ := Prod.mk.inj h
      decide
    · obtain ⟨rfl, rfl⟩ := Prod.mk.inj h
      decide
  refine ⟨by decide +kernel, by decide +kernel, by decide +kernel, by decide +kernel,
    acyclic_of_rank hrank, fun x y n h => (h.le_rank hrank).trans ?_⟩
  split
  · exact Nat.le_refl 2
  · split
    · decide
    · decide

/-- It takes four passes, and no fewer. -/
theorem passLoop_layered_staircase :
    ∃ a, passes staircase 4 (Asm.init 2048) = some a ∧ Solution staircase a.syms := by
  obtain ⟨a, hpasses, -, -, hsolution, -⟩ :=
    passLoop_layered 2048 staircase 2 layered_staircase (by decide)
  exact ⟨a, hpasses, hsolution⟩

example : (passes staircase 3 (Asm.init 2048)).isNone = true := by decide +kernel

end Umk80
