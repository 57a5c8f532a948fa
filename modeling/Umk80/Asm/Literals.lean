import Umk80.Asm.Data
import Umk80.Asm.Encoding

/-!
# Character literals

A character literal alone in a place that takes an expression: in DB and DW, in an EQU, and as the
value of an instruction. What the line does then is compared with what the character's code would
do. Comments and operands leave every literal alone, but two steps do not. The colon of a literal
ends a label if the line has none. And the operands of an instruction are put in uppercase if they
are short, which a literal always is. DB and DW leave their operands as they are, at every place of
a list.

## Main definitions

* `Position`, `Stands` — the places, and a line with a literal in one of them
* `Position.effect` — what the line is to do
* `Means` — the literal means its character

## Main results

* `assembleLine_literal` — what the line does
* `assembleLine_listed_iff` — what a DB or DW does with a literal at any place of its list
* `means_iff` — which literals mean their characters
-/

namespace Umk80

open CString

/-! ## Places -/

/-- The text of a literal. -/
def literal (c : Char) : List Char := [QUOTE, c, QUOTE]

/-- The places for an expression: a data directive, an EQU with blanks behind it, an instruction
with a value only, and one with a register, a comma and a value, with blanks around the comma. -/
inductive Position
  | data (d : Directive)
  | equ (gap : List Char)
  | imm (m : Mnem)
  | regImm (m : Mnem) (reg b b' : List Char) (r : ℕ)

/-- The line has a literal in a place. -/
def Stands (l : SourceLine) (c : Char) : Position → Prop
  | .data d => l.word.map Char.toUpper = d.name.toList ∧ l.field = literal c
  | .equ gap =>
    gap ≠ [] ∧ (∀ b ∈ gap, isBlank b = true) ∧ l.field = "EQU".toList ++ gap ++ literal c
  | .imm m => MNEM.find? (·.name.toList == l.word.map Char.toUpper) = some m ∧
    m.kind.roles = [.value] ∧ m.kind ≠ .rst ∧ l.field = literal c
  | .regImm m reg b b' r => MNEM.find? (·.name.toList == l.word.map Char.toUpper) = some m ∧
    (∃ role, m.kind.roles = [role, .value] ∧ role.code (reg.map Char.toUpper) = some r) ∧
    IsName reg ∧ (∀ c ∈ b, isBlank c = true) ∧ (∀ c ∈ b', isBlank c = true) ∧
    l.field = reg ++ b ++ ',' :: (b' ++ literal c)

namespace Position

/-- What a line with this first word is to do in the place of an expression with the code of `c` as
its value. -/
def effect (word : Name) (c : Char) (a : Asm) : Position → Asm
  | data d => a.emitBytes (d.bytes c.toNat)
  | equ _ => a.define word c.toNat
  | imm m => a.emitBytes (m.code [] :: m.kind.arg.bytes c.toNat)
  | regImm m _ _ _ r => a.emitBytes (m.code [r] :: m.kind.arg.bytes c.toNat)

/-- The character that the evaluator gets to see. -/
def seen (c : Char) : Position → Char
  | data _ | equ _ => c
  | imm _ | regImm .. => c.toUpper

end Position

/-- **The literal means its character**: the line does what the character's code does there. -/
def Means (l : SourceLine) (pos : Position) (c : Char) : Prop :=
  ∀ a : Asm, a.assembleLine l.text = pos.effect (l.word.map Char.toUpper) c (a.labelled l)

/-! ## Characters -/

/-- Uppercase makes no NUL and no quote of another character. -/
theorem toUpper_ascii {c : Char} (hc : c.toNat < 128) : c.toUpper.toNat < 128 ∧
    (c ≠ NUL → c.toUpper ≠ NUL) ∧ (c ≠ QUOTE → c.toUpper ≠ QUOTE) := by
  have hall : ∀ n : Fin 128, (Char.ofNat n).toUpper.toNat < 128 ∧
      (Char.ofNat n ≠ NUL → (Char.ofNat n).toUpper ≠ NUL) ∧
      (Char.ofNat n ≠ QUOTE → (Char.ofNat n).toUpper ≠ QUOTE) := by
    decide +kernel
  have h := hall ⟨c.toNat, hc⟩
  rw [Char.ofNat_toNat] at h
  exact h

theorem ascii_of_isNameChar {c : Char} (h : isNameChar c = true) : c.toNat < 128 := by
  rw [isNameChar, Bool.or_assoc] at h
  rcases Bool.or_eq_true _ _ ▸ h with halnum | hmark
  · rcases Bool.or_eq_true _ _ ▸ halnum with halpha | hdigit
    · have := toNat_of_isAlpha halpha
      omega
    · have := toNat_of_isDigit hdigit
      omega
  · have hc : c = '_' ∨ c = '?' := by simpa using hmark
    rcases hc with rfl | rfl
    · decide
    · decide

/-! ## Registers -/

theorem IsName.trimmed {s : List Char} (h : IsName s) : Trimmed s where
  ne := h.ne
  no_nul := h.quoted.ne_nul (List.Subset.refl _)
  head := fun c hc => isBlank_of_isSpace
    (harmless_of_isNameChar (h.chars c (List.mem_of_mem_head? hc))).2
  last := fun c hc => isTrailing_of_isSpace
    (harmless_of_isNameChar (h.chars c (List.mem_of_getLast? hc))).2

/-- The uppercase of a name has no NUL. -/
theorem IsName.upper_ne_nul {s : List Char} (h : IsName s) : ∀ c ∈ s.map Char.toUpper, c ≠ NUL := by
  intro c hc
  obtain ⟨d, hd, rfl⟩ := List.mem_map.mp hc
  have hd := h.chars d hd
  exact (toUpper_ascii (ascii_of_isNameChar hd)).2.1 (harmless_of_isNameChar hd).1.nul

/-- What an operand is read as, if it is a register. -/
def Role.read (role : Role) (p : Ptr) : Option ℕ :=
  match role with
  | .reg => reg8 (some p)
  | .pair stack => regpair stack (some p)
  | .value => none

/-- Registers have short names. -/
theorem length_of_code {role : Role} (hrole : role ≠ .value) {t : List Char} {r : ℕ}
    (ht : ∀ c ∈ t, c ≠ NUL) (h : role.code t = some r) : t.length ≤ 3 := by
  cases role with
  | value => exact absurd rfl hrole
  | reg =>
    match t with
    | [] => decide
    | [_] => simp
    | c :: d :: t =>
      have hd : deref ((c :: d :: t ++ [NUL]).drop 1) ≠ NUL := ht d (by simp)
      rw [Role.code, reg8, if_pos hd] at h
      cases h
  | pair stack =>
    rw [Role.code, regpair, cstr_append ht] at h
    split at h
    · simp [*]
    split at h
    · simp [*]
    split at h
    · simp [*]
    split at h
    · simp [*]
    split at h
    · simp [*]
    · cases h

theorem read_of_holds {role : Role} (hrole : role ≠ .value) {p : Ptr} {t : List Char}
    (hp : Holds p t) (hne : t ≠ []) (hnul : ∀ c ∈ t, c ≠ NUL) : role.read p = role.code t := by
  cases role with
  | value => exact absurd rfl hrole
  | reg => exact reg8_holds hp hne
  | pair stack => exact regpair_holds hp hnul stack

/-! ## What the line does -/

namespace Asm

variable {a : Asm} {stmtPc : ℤ} {m : Mnem} {ops : List Ptr} {v : ℤ}

theorem value_of_operand {i : ℕ} (h : a.operand stmtPc ops i = (v, true)) :
    a.value stmtPc ops i m = (v, a) := by
  rw [value, h]
  rfl

/-- An instruction with a value only. -/
theorem execInstr_imm (hroles : m.kind.roles = [.value]) (hrst : m.kind ≠ .rst)
    (hv : a.operand stmtPc ops 0 = (v, true)) :
    a.execInstr stmtPc m ops = a.emitBytes (m.code [] :: m.kind.arg.bytes v) := by
  rw [execInstr]
  dsimp only
  rw [value_of_operand hv]
  cases hkind : m.kind with
  | imm8 | addr | port => simp [Mnem.code, hkind, Kind.arg, Arg.bytes, emitBytes, emitWord]
  | rst => exact absurd hkind hrst
  | _ => simp [hkind, Kind.roles] at hroles

/-- An instruction with a register and a value. -/
theorem execInstr_regImm {role : Role} (hroles : m.kind.roles = [role, .value]) {q p : Ptr} {r : ℕ}
    (hr : role.read q = some r) (hv : a.operand stmtPc [q, p] 1 = (v, true)) :
    a.execInstr stmtPc m [q, p] = a.emitBytes (m.code [r] :: m.kind.arg.bytes v) := by
  rw [execInstr]
  dsimp only
  generalize "invalid register in ".toList ++ m.name.toList = badRegister
  generalize "invalid register pair in ".toList ++ m.name.toList = badPair
  cases hkind : m.kind with
  | mvi =>
    obtain rfl : Role.reg = role := by simpa [hkind, Kind.roles] using hroles
    have hreg : reg8 [q, p][0]? = some r := hr
    rw [hreg, register, value_of_operand hv]
    simp [Mnem.code, hkind, Kind.arg, Arg.bytes, emitBytes]
  | lxi =>
    obtain rfl : Role.pair false = role := by simpa [hkind, Kind.roles] using hroles
    have hpair : regpair false [q, p][0]? = some r := hr
    rw [hpair, register, value_of_operand hv]
    simp [Mnem.code, hkind, Kind.arg, Arg.bytes, emitBytes, emitWord]
  | _ => simp [hkind, Kind.roles] at hroles

end Asm

variable {l : SourceLine} {c : Char} {pos : Position}

theorem quoted_literal (hquote : c ≠ QUOTE) (hnul : c ≠ NUL) : Quoted operandMarks (literal c) :=
  .literal hquote hnul .nil

theorem shortUpper_literal (c : Char) : shortUpper (literal c) = literal c.toUpper := by
  have hquote : QUOTE.toUpper = QUOTE := by decide
  simp [shortUpper, literal, hquote]

theorem operand_literal (hquote : c ≠ QUOTE) {p : Ptr} (hp : Holds p (literal c)) (a : Asm)
    (stmtPc : ℤ) {ops : List Ptr} {i : ℕ} (hi : ops[i]? = some p) :
    a.operand stmtPc ops i = ((c.toNat : ℤ), true) := by
  obtain ⟨z, rfl⟩ := hp
  obtain ⟨refs, heval⟩ := (derives_literal hquote ⟨a.syms, stmtPc⟩).evaluate z
  rw [Asm.operand, hi]
  dsimp only
  rw [literal, heval]

/-- The operands of an instruction, in uppercase where they are short. -/
theorem splitOperands_listed {field : List Char} {texts : List (List Char)}
    (hlist : Listed field texts) (hquoted : ∀ t ∈ texts, Quoted operandMarks t)
    (hupper : ∀ t ∈ texts, ∀ c ∈ shortUpper t, c ≠ NUL) (hfield : ∀ c ∈ field, c ≠ NUL)
    (hlen : texts.length ≤ 8) {rest : Ptr} (hrest : Holds rest field) :
    List.Forall₂ Holds (splitOperands upperShort rest) (texts.map shortUpper) := by
  have h := splitOperands_padded (g := shortUpper) hrest hfield (hlist.commaPieces hquoted)
    (fun t ht => ⟨hlist.trimmed t ht, fun p hp => holds_upperShort (hlist.trimmed t ht).no_nul hp⟩)
    fun t ht => by
      have hne : shortUpper t ≠ [] := by
        unfold shortUpper
        split
        · simp [(hlist.trimmed t ht).ne]
        · exact (hlist.trimmed t ht).ne
      obtain ⟨c, s, hs⟩ := List.exists_cons_of_ne_nil hne
      exact ⟨c, s, hs, hupper t ht c (by simp [hs])⟩
  rw [List.take_of_length_le hlen] at h
  exact h

/-- The statement of an EQU with a literal. -/
theorem exec_equ_literal (hquote : c ≠ QUOTE) {p : Ptr} (hp : Holds p (literal c)) (a : Asm)
    (stmtPc : ℤ) (word : Name) : a.exec stmtPc (.equ word p) = a.define word c.toNat := by
  obtain ⟨z, rfl⟩ := hp
  obtain ⟨refs, heval⟩ := (derives_literal hquote ⟨a.syms, stmtPc⟩).evaluate z
  rw [Asm.exec, literal, heval]
  rfl

theorem startsEqu_literal (c : Char) : startsEqu (literal c) = false := rfl

/-- The name of a register is not EQU. -/
theorem startsEqu_register {role : Role} {reg b rest : List Char} {r : ℕ} (hreg : IsName reg)
    (hcode : role.code (reg.map Char.toUpper) = some r) (hrole : role ≠ .value)
    (hb : ∀ c ∈ b, isBlank c = true) : startsEqu (reg ++ b ++ ',' :: rest) = false := by
  rw [Bool.eq_false_iff]
  intro hequ
  obtain ⟨hstart, hblank⟩ := Bool.and_eq_true _ _ ▸ hequ
  have htake : ∀ t u : List Char, (∀ d ∈ t, isNameChar d = true) →
      (∀ d ∈ u.head?, isNameChar d = false) → (t ++ u).takeWhile isNameChar = t := by
    intro t u ht hu
    rw [List.takeWhile_append_of_pos ht]
    cases u with
    | nil => simp
    | cons d u => rw [List.takeWhile_cons_of_neg (by simp [hu d rfl]), List.append_nil]
  have hblanks (d : Char) (hd : isBlank d = true) : isNameChar d = false := by
    by_contra hname
    have hspace := (harmless_of_isNameChar (Bool.not_eq_false _ ▸ hname)).2
    rw [isBlank_of_isSpace hspace] at hd
    cases hd
  -- the word before the blank is both EQU and the register
  have hequWord : (reg ++ b ++ ',' :: rest).takeWhile isNameChar = "EQU".toList := by
    have hequ : (reg ++ b ++ ',' :: rest).take 3 = "EQU".toList := beq_iff_eq.mp hstart
    rw [← List.take_append_drop 3 (reg ++ b ++ ',' :: rest), hequ]
    refine htake _ _ (by decide) fun d hd => hblanks d ?_
    rw [deref, List.headD_eq_head?_getD, hd] at hblank
    exact hblank
  have hregWord : (reg ++ b ++ ',' :: rest).takeWhile isNameChar = reg := by
    rw [List.append_assoc]
    refine htake _ _ hreg.chars fun d hd => ?_
    cases b with
    | nil =>
      obtain rfl := Option.some.inj hd
      decide
    | cons e b =>
      obtain rfl := Option.some.inj hd
      exact hblanks _ (hb _ List.mem_cons_self)
  have hnone : role.code ("EQU".toList.map Char.toUpper) = none := by
    cases role with
    | reg => decide
    | pair stack =>
      cases stack
      all_goals decide
    | value => exact absurd rfl hrole
  rw [← hregWord, hequWord, hnone] at hcode
  cases hcode

/-- **A line with a literal** does what the character does that the evaluator sees, unless the
literal ends a label. -/
theorem assembleLine_literal (hstands : Stands l c pos) (hascii : 32 ≤ c.toNat ∧ c.toNat ≤ 126)
    (hquote : c ≠ QUOTE) (hcolon : l.label = none → ':' ∉ l.field) (a : Asm) :
    a.assembleLine l.text =
      pos.effect (l.word.map Char.toUpper) (pos.seen c) (a.labelled l) := by
  have hnul : c ≠ NUL := by
    rintro rfl
    exact absurd hascii.1 (by decide)
  obtain ⟨-, huppernul, hupperquote⟩ := toUpper_ascii (c := c) (by omega)
  have hquoted : Quoted operandMarks (literal c) := quoted_literal hquote hnul
  have hlist (hfield : l.field = literal c) : Listed l.field [literal c] := by
    rw [hfield]
    exact .last (trimmed_literal hnul) (Padded.refl _)
  have hshort : ∀ d ∈ shortUpper (literal c), d ≠ NUL := by
    rw [shortUpper_literal]
    exact (trimmed_literal (huppernul hnul)).no_nul
  cases pos with
  | data d =>
    obtain ⟨hword, hfield⟩ := hstands
    have hline := SourceLine.assembleLine_data (a := a) hword (hlist hfield)
      (show 1 ≤ 8 by decide) hcolon (hfield ▸ startsEqu_literal c)
      (.cons (derives_literal hquote _) .nil)
    rw [List.flatMap_singleton] at hline
    exact hline
  | equ gap =>
    obtain ⟨hgap, hblank, hfield⟩ := hstands
    obtain ⟨rest, ⟨z, rfl⟩, hline⟩ := l.parseLine_text hcolon
    have hpadded : Padded (gap ++ literal c) (literal c) := ⟨gap, [], rfl, hblank, nofun⟩
    have hp := (trimmed_literal hnul).holds_trim hpadded z
    have hequ : startsEqu l.field = true := by
      obtain ⟨b, gap', rfl⟩ := List.exists_cons_of_ne_nil hgap
      rw [hfield]
      exact hblank b List.mem_cons_self
    have hdrop : (l.field ++ NUL :: z).drop 3 = gap ++ literal c ++ NUL :: z := by
      rw [hfield]
      simp
    rw [statementOf, startsEqu_append, hequ, if_pos rfl, hdrop] at hline
    rw [Asm.assembleLine_of_parseLine hline]
    exact exec_equ_literal hquote hp _ _ _
  | imm m =>
    obtain ⟨hfind, hroles, hrst, hfield⟩ := hstands
    obtain ⟨rest, hrest, hline⟩ := l.parseLine_text hcolon
    have hops := splitOperands_listed (hlist hfield) (by simpa using hquoted)
      (by simpa using hshort) l.field_trimmed.no_nul (by simp) hrest
    rw [statementOf_find hrest (hfield ▸ startsEqu_literal c) hfind] at hline
    rw [Asm.assembleLine_of_parseLine hline]
    generalize splitOperands upperShort rest = ops at hops
    cases hops with
    | cons hp hnil =>
      cases hnil
      rw [shortUpper_literal] at hp
      exact Asm.execInstr_imm hroles hrst (operand_literal (hupperquote hquote) hp _ _ rfl)
  | regImm m reg b b' r =>
    obtain ⟨hfind, ⟨role, hroles, hcode⟩, hreg, hb, hb', hfield⟩ := hstands
    obtain ⟨rest, hrest, hline⟩ := l.parseLine_text hcolon
    have hrole : role ≠ .value := by
      rintro rfl
      cases hkind : m.kind
      all_goals simp [hkind, Kind.roles] at hroles
    have hshortReg : shortUpper reg = reg.map Char.toUpper := by
      have hlen := length_of_code hrole hreg.upper_ne_nul hcode
      rw [List.length_map] at hlen
      exact if_pos hlen
    have hpair : Listed l.field [reg, literal c] := by
      rw [hfield]
      refine .more hreg.trimmed ⟨[], b, rfl, nofun, fun c hc => isTrailing_of_isBlank (hb c hc)⟩
        (.last (trimmed_literal hnul) ⟨b', [], ?_, hb', nofun⟩)
      simp
    have hops := splitOperands_listed hpair
      (List.forall_mem_cons.mpr ⟨quoted_of_isNameChar hreg.chars, by simpa using hquoted⟩)
      (List.forall_mem_cons.mpr ⟨hshortReg ▸ hreg.upper_ne_nul, by simpa using hshort⟩)
      l.field_trimmed.no_nul (by simp) hrest
    rw [statementOf_find hrest (hfield ▸ startsEqu_register hreg hcode hrole hb) hfind] at hline
    rw [Asm.assembleLine_of_parseLine hline]
    generalize splitOperands upperShort rest = ops at hops
    cases hops with
    | cons hq htail =>
      cases htail with
      | cons hp hnil =>
        cases hnil
        rw [hshortReg] at hq
        rw [shortUpper_literal] at hp
        have hread := read_of_holds hrole hq (by simp [hreg.ne]) hreg.upper_ne_nul
        exact Asm.execInstr_regImm hroles (by rw [hread, hcode])
          (operand_literal (hupperquote hquote) hp _ _ rfl)

/-! ## Literals in a list -/

/-- **A literal at any place of a list** of DB or DW: its code is emitted between the bytes of the
operands in front of it and behind it, exactly if no colon ends a label. -/
theorem assembleLine_listed_iff (d : Directive) {before after : List (List Char)}
    (hword : l.word.map Char.toUpper = d.name.toList)
    (hlist : Listed l.field (before ++ literal c :: after))
    (hlen : before.length + after.length ≤ 7)
    (hequ : startsEqu l.field = false) (hquote : c ≠ QUOTE) {a : Asm} {vs ws : List ℤ}
    (hvs : List.Forall₂ (Derives ⟨(a.labelled l).syms, a.pc⟩) before vs)
    (hws : List.Forall₂ (Derives ⟨(a.labelled l).syms, a.pc⟩) after ws) :
    a.assembleLine l.text = (a.labelled l).emitBytes
        (vs.flatMap d.bytes ++ (d.bytes c.toNat ++ ws.flatMap d.bytes)) ↔
      (l.label = none → ':' ∉ l.field) := by
  have hvalues : List.Forall₂ (Derives ⟨(a.labelled l).syms, a.pc⟩) (before ++ literal c :: after)
      (vs ++ (c.toNat : ℤ) :: ws) :=
    List.rel_append hvs (.cons (derives_literal hquote _) hws)
  constructor
  · intro h hlabel hmem
    obtain ⟨name, p, u, w, hp, -, -, hline⟩ := l.parseLine_colon hlabel hmem
    obtain ⟨mnemonic, hstmt⟩ := parseStatement_quote hp
    have hpc := SourceLine.pc_of_silent hline ⟨mnemonic, hstmt.imp_right And.right⟩ a
    rw [h, ((a.labelled l).emits_emitBytes _).pc, Asm.labelled, Asm.defineLabel_pc,
      List.length_append, List.length_append, d.length_bytes] at hpc
    have hsize : 0 < d.size := by
      cases d
      all_goals decide
    omega
  · intro hcolon
    have hline := SourceLine.assembleLine_data hword hlist (by simp; omega) hcolon hequ hvalues
    rw [List.flatMap_append, List.flatMap_cons] at hline
    exact hline

/-! ## When the character is kept -/

/-- What is in front of the character has no colon. -/
theorem Stands.exists_before (h : Stands l c pos) : ∃ v, l.field = v ++ [c, QUOTE] ∧ ':' ∉ v := by
  have hquote : ':' ≠ QUOTE := by decide
  cases pos with
  | data d => exact ⟨[QUOTE], h.2, by simp [hquote]⟩
  | equ gap =>
    obtain ⟨-, hgap, hfield⟩ := h
    refine ⟨"EQU".toList ++ gap ++ [QUOTE], by simp [hfield, literal], ?_⟩
    simp [hquote, colon_notMem_of_isBlank hgap]
  | imm m => exact ⟨[QUOTE], h.2.2.2, by simp [hquote]⟩
  | regImm m reg b b' r =>
    obtain ⟨-, -, hreg, hb, hb', hfield⟩ := h
    refine ⟨reg ++ b ++ ',' :: (b' ++ [QUOTE]), by simp [hfield, literal], ?_⟩
    simp [hquote, hreg.colon_notMem, colon_notMem_of_isBlank hb, colon_notMem_of_isBlank hb']

theorem Stands.colon_notMem (h : Stands l c pos) (hc : c ≠ ':') : ':' ∉ l.field := by
  obtain ⟨v, hfield, hv⟩ := h.exists_before
  simp [hfield, hv, hc.symm, show ':' ≠ QUOTE by decide]

/-- A colon in a line without a label leaves a statement that is reported. -/
theorem Stands.errors_ne (h : Stands l ':' pos) (hlabel : l.label = none) {a : Asm}
    (he : a.emitting = true) : (a.assembleLine l.text).errors ≠ [] := by
  obtain ⟨v, hfield, hv⟩ := h.exists_before
  obtain ⟨name, p, u, w, hp, hfield', hu, hline⟩ := l.parseLine_colon hlabel (by simp [hfield])
  have hnil : w = [] := by
    have hrest := dropWhile_ne_append hu (QUOTE :: w)
    have hfirst : v ++ [':', QUOTE] = v ++ ':' :: [QUOTE] := rfl
    rw [← hfield', hfield, hfirst, dropWhile_ne_append hv] at hrest
    simpa using hrest.symm
  obtain ⟨mnemonic, hunknown | ⟨hne, -⟩⟩ := parseStatement_quote hp
  · have hlabel := a.extends_defineLabel ⟨some name, some (parseStatement p)⟩
    rw [Asm.assembleLine, hline, Asm.execLine]
    dsimp only
    rw [hunknown, Asm.exec, Asm.report, ← hunknown, if_pos (by rw [hlabel.emitting, he])]
    simp [Asm.err]
  · exact absurd hnil hne

theorem length_arg_bytes (arg : Arg) (v : ℤ) : (arg.bytes v).length ≤ 2 := by
  cases arg
  all_goals simp [Arg.bytes]

theorem arg_ne_none {k : Kind} (hrst : k ≠ .rst) (hlast : k.roles.getLast? = some .value) :
    k.arg ≠ .none := by
  cases k with
  | mvi | lxi | imm8 | addr | port => decide
  | rst => exact absurd rfl hrst
  | _ => exact absurd hlast (by decide)

/-- A byte shows which character it is the code of. -/
theorem Arg.bytes_inj {arg : Arg} (harg : arg ≠ .none) {x y : ℕ} (hx : x < 128) (hy : y < 128)
    (h : arg.bytes x = arg.bytes y) : x = y := by
  have hbyte : BitVec.ofInt 8 (x : ℤ) = BitVec.ofInt 8 (y : ℤ) := by
    cases arg with
    | none => exact absurd rfl harg
    | imm8 | imm16 => exact (List.cons.inj h).1
  have hnat := congrArg BitVec.toNat hbyte
  simp only [BitVec.ofInt_natCast, BitVec.toNat_ofNat] at hnat
  omega

namespace Asm

variable {a : Asm}

theorem emitBytes_inj (he : a.emitting = true) (h0 : 0 ≤ a.pc) {bs bs' : List U8}
    (hfit : a.pc + bs.length ≤ a.imageSize) (hfit' : a.pc + bs'.length ≤ a.imageSize)
    (h : a.emitBytes bs = a.emitBytes bs') : bs = bs' := by
  have hbs := (wrote_emitBytes he h0 hfit).bytesBetween h0
  rw [h, (wrote_emitBytes he h0 hfit').bytesBetween h0] at hbs
  exact hbs.symm

end Asm

/-- At the start of the emitting pass the effect is not an error. -/
theorem errors_effect (pos : Position) (word : Name) (c : Char) :
    (pos.effect word c Asm.fresh).errors = [] := by
  have hemit {bs : List U8} (hlen : bs.length ≤ 3) : (Asm.fresh.emitBytes bs).errors = [] :=
    (Asm.wrote_emitBytes rfl (Int.le_refl 0) (show (0 : ℤ) + bs.length ≤ 2048 by omega)).errors
  have harg (m : Mnem) : (m.kind.arg.bytes c.toNat).length + 1 ≤ 3 :=
    Nat.succ_le_succ (length_arg_bytes _ _)
  cases pos with
  | data d =>
    refine hemit ?_
    cases d
    all_goals simp [Directive.bytes]
  | equ gap => rfl
  | imm m => exact hemit (harg m)
  | regImm m reg b b' r => exact hemit (harg m)

/-- **Character literals.** A literal alone in a place for an expression means its character,
exactly if it is no colon in a line without a label, and no small letter in an instruction. -/
theorem means_iff (l : SourceLine) (c : Char) (pos : Position) (hstands : Stands l c pos)
    (hascii : 32 ≤ c.toNat ∧ c.toNat ≤ 126) (hquote : c ≠ QUOTE) :
    Means l pos c ↔ (l.label = none → c ≠ ':') ∧ pos.seen c = c := by
  constructor
  · intro h
    have hcolon : l.label = none → c ≠ ':' := by
      rintro hlabel rfl
      refine hstands.errors_ne hlabel (a := Asm.fresh) rfl ?_
      have hsame : Asm.fresh.labelled l = Asm.fresh := by
        rw [Asm.labelled, SourceLine.labelName, hlabel]
        rfl
      rw [h Asm.fresh, hsame]
      exact errors_effect pos _ _
    refine ⟨hcolon, ?_⟩
    have hline := assembleLine_literal hstands hascii hquote
      (fun hlabel => hstands.colon_notMem (hcolon hlabel)) Asm.fresh
    rw [h Asm.fresh] at hline
    have hlabel := Asm.fresh.extends_defineLabel ⟨l.labelName, none⟩
    have hpc : (Asm.fresh.labelled l).pc = 0 := Asm.defineLabel_pc _ _
    have hsize : (Asm.fresh.labelled l).imageSize = 2048 := hlabel.imageSize
    -- the bytes of an instruction tell the characters apart
    have hbytes {m : Mnem} {op : U8} (harg : m.kind.arg ≠ .none)
        (heq : (Asm.fresh.labelled l).emitBytes (op :: m.kind.arg.bytes c.toNat) =
          (Asm.fresh.labelled l).emitBytes (op :: m.kind.arg.bytes c.toUpper.toNat)) :
        c.toUpper = c := by
      have hfit (v : ℤ) : (Asm.fresh.labelled l).pc + (op :: m.kind.arg.bytes v).length ≤
          (Asm.fresh.labelled l).imageSize := by
        have := length_arg_bytes m.kind.arg v
        rw [hpc, hsize, List.length_cons]
        omega
      have hlist := Asm.emitBytes_inj hlabel.emitting (Int.le_of_eq hpc.symm) (hfit _) (hfit _) heq
      have hnat := Arg.bytes_inj harg (by omega) (toUpper_ascii (c := c) (by omega)).1
        (List.cons.inj hlist).2
      have hchar := congrArg Char.ofNat hnat
      rw [Char.ofNat_toNat, Char.ofNat_toNat] at hchar
      exact hchar.symm
    cases pos with
    | data d => rfl
    | equ gap => rfl
    | imm m =>
      obtain ⟨-, hroles, hrst, -⟩ := hstands
      exact hbytes (arg_ne_none hrst (by rw [hroles]; rfl)) hline
    | regImm m reg b b' r =>
      obtain ⟨-, ⟨role, hroles, -⟩, -⟩ := hstands
      refine hbytes (arg_ne_none ?_ (by rw [hroles]; rfl)) hline
      intro hrst
      simp [hrst, Kind.roles] at hroles
  · rintro ⟨hcolon, hseen⟩ a
    have hline := assembleLine_literal hstands hascii hquote
      (fun hlabel => hstands.colon_notMem (hcolon hlabel)) a
    rw [hseen] at hline
    exact hline

/-- `MARK EQU ';' ; a semicolon`. -/
def markLine : SourceLine where
  lead := []
  label := none
  word := "MARK".toList
  gap := [' ']
  field := "EQU ".toList ++ literal ';'
  trail := [' ']
  comment := some " a semicolon\n".toList
  lead_blank := blank_nil
  label_name := no_label
  word_name := ⟨by decide, by decide⟩
  gap_ne := space_ne_nil
  gap_blank := blank_space
  field_trimmed := ⟨by decide, by decide, by decide, by decide⟩
  field_quoted := (Quoted.of_forall (by decide)).append (.literal (by decide) (by decide) .nil)
  trail_trailing := trailing_space
  comment_text := by decide
  length_text := by decide

theorem means_iff_mark : Means markLine (.equ [' ']) ';' :=
  (means_iff markLine ';' (.equ [' ']) ⟨by decide, by decide, rfl⟩ (by decide) (by decide)).mpr
    ⟨fun _ => by decide, rfl⟩

/-- `MVI A,'a'`. -/
def smallLine : SourceLine where
  lead := [' ']
  label := none
  word := "MVI".toList
  gap := [' ']
  field := "A,".toList ++ literal 'a'
  trail := ['\n']
  comment := none
  lead_blank := blank_space
  label_name := no_label
  word_name := ⟨by decide, by decide⟩
  gap_ne := space_ne_nil
  gap_blank := blank_space
  field_trimmed := ⟨by decide, by decide, by decide, by decide⟩
  field_quoted := (Quoted.of_forall (by decide)).append (.literal (by decide) (by decide) .nil)
  trail_trailing := trailing_newline
  comment_text := no_comment
  length_text := by decide

/-- In an instruction a small letter is assembled as the capital letter. -/
theorem not_means_small : Stands smallLine 'a' (.regImm ⟨"MVI", 0x06, .mvi⟩ ['A'] [] [] 7) ∧
    ¬ Means smallLine (.regImm ⟨"MVI", 0x06, .mvi⟩ ['A'] [] [] 7) 'a' := by
  refine ⟨⟨by decide +kernel, ⟨.reg, rfl, by decide⟩, ⟨by decide, by decide⟩, nofun, nofun,
    rfl⟩, ?_⟩
  intro h
  have hrun : (Asm.fresh.assembleLine smallLine.text).image 1 = 0x41 := by decide +kernel
  rw [h Asm.fresh] at hrun
  exact absurd hrun (by decide +kernel)

end Umk80
