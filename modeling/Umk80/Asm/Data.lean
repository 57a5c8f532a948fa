import Umk80.Asm.Grammar
import Umk80.Asm.RoundTrip
import Umk80.Asm.SourceLine

/-!
# Data directives

A DB or DW with a list of operands, each of them an expression of the grammar. The text of an
expression has no comma outside its character literals, so that the list comes apart at the commas
it was joined with. But only 8 operands are kept, and the others are dropped without a message.
A list that starts with a symbol called EQU makes the line an EQU, and a colon in it may end a
label; then no byte is emitted at all. In every other case each operand is emitted.

## Main definitions

* `Listed` — a field with a list of operands
* `Directive` — DB and DW
* `EmitsAll` — every operand is emitted, and counted in every pass

## Main results

* `Derives.quoted` — an expression has complete character literals and no comma outside of them
* `Asm.exec_data` — the bytes of operands that are in order
* `SourceLine.assembleLine_data` — what a line with such operands does
* `emitsAll_iff` — which data directives emit every operand
-/

namespace Umk80

open CString

/-! ## The text of an expression -/

theorem exists_blanks (s : List Char) : ∃ b, s = b ++ skipBlanks s ∧ Quoted operandMarks b := by
  refine ⟨s.takeWhile isBlank, List.takeWhile_append_dropWhile.symm, ?_⟩
  exact .of_kind (by decide) fun c hc => List.mem_takeWhile_imp hc

/-- Blanks, and text behind them. -/
theorem exists_quoted {s u r : List Char} (h : skipBlanks s = u ++ r) (hu : Quoted operandMarks u) :
    ∃ p, s = p ++ r ∧ Quoted operandMarks p := by
  obtain ⟨b, hs, hb⟩ := exists_blanks s
  refine ⟨b ++ u, ?_, hb.append hu⟩
  rw [List.append_assoc, ← h]
  exact hs

theorem quoted_of_isNameChar {s : List Char} (h : ∀ c ∈ s, isNameChar c = true) :
    Quoted operandMarks s :=
  .of_kind (by decide) h

/-- **The part of a text that the grammar reads** has complete character literals, and no comma
outside of them. -/
theorem Parses.quoted {env : Env} {cat : Cat} {s r : List Char} {v : ℤ}
    (h : Parses env cat s v r) (hnul : NUL ∉ s) :
    ∃ p, s = p ++ r ∧ Quoted operandMarks p := by
  have hsub {s r : List Char} (hsuffix : r <:+ s) (hnul : NUL ∉ s) : NUL ∉ r :=
    fun hmem => hnul (hsuffix.mem hmem)
  -- an operator in front of something else
  have hcons {s t r : List Char} {c : Char} (h : skipBlanks s = c :: t) (hc : c ∉ operandMarks)
      (ht : ∃ p, t = p ++ r ∧ Quoted operandMarks p) : ∃ p, s = p ++ r ∧ Quoted operandMarks p := by
    obtain ⟨p, rfl, hp⟩ := ht
    exact exists_quoted (u := c :: p) h (.plain hc hp)
  have htrans {s t r : List Char} (hs : ∃ p, s = p ++ t ∧ Quoted operandMarks p)
      (ht : ∃ p, t = p ++ r ∧ Quoted operandMarks p) : ∃ p, s = p ++ r ∧ Quoted operandMarks p := by
    obtain ⟨p, rfl, hp⟩ := hs
    obtain ⟨q, rfl, hq⟩ := ht
    exact ⟨p ++ q, (List.append_assoc _ _ _).symm, hp.append hq⟩
  induction h with
  | pc h => exact hcons h (by decide) ⟨[], rfl, .nil⟩
  | paren h _ hclose ih =>
    have ht := ih (hsub (suffix_of_skipBlanks h) hnul)
    exact hcons h (by decide) (htrans ht (hcons hclose (by decide) ⟨[], rfl, .nil⟩))
  | @literal s r c h hquote =>
    have hmem : c ∈ skipBlanks s := by
      rw [h]
      simp
    refine exists_quoted (u := [QUOTE, c, QUOTE]) h (.literal hquote ?_ .nil)
    rintro rfl
    exact hnul ((skipBlanks_suffix s).mem hmem)
  | @number s tok r v h htok =>
    refine exists_quoted h (quoted_of_isNameChar fun c hc => ?_)
    rw [← htok] at hc
    rw [isNameChar, List.mem_takeWhile_imp hc]
    rfl
  | @symbol s tok r v h htok =>
    refine exists_quoted h (quoted_of_isNameChar fun c hc => ?_)
    rw [← htok] at hc
    exact List.mem_takeWhile_imp hc
  | @not s r v h _ ih =>
    have hsuffix := (List.drop_suffix 3 _).trans (skipBlanks_suffix s)
    obtain ⟨p, hp, hquoted⟩ := ih (hsub hsuffix hnul)
    have hword : (skipBlanks s).take 3 = "NOT".toList :=
      beq_iff_eq.mp (Bool.and_eq_true _ _ ▸ h).1
    refine exists_quoted (u := "NOT".toList ++ p) ?_ (Quoted.append ?_ hquoted)
    · rw [List.append_assoc, ← hp, ← hword, List.take_append_drop]
    · exact .of_forall (by decide)
  | neg h _ ih | pos h _ ih =>
    exact hcons h (by decide) (ih (hsub (suffix_of_skipBlanks h) hnul))
  | factor _ ih => exact ih hnul
  | expr hterm _ ih ih' => exact htrans (ih hnul) (ih' (hsub hterm.suffix hnul))
  | done => exact ⟨[], rfl, .nil⟩
  | plus h hterm _ ih ih' | minus h hterm _ ih ih' =>
    have ht := hsub (suffix_of_skipBlanks h) hnul
    exact hcons h (by decide) (htrans (ih ht) (ih' (hsub hterm.suffix ht)))

theorem Derives.quoted {env : Env} {text : List Char} {v : ℤ} (h : Derives env text v)
    (hnul : ∀ c ∈ text, c ≠ NUL) : Quoted operandMarks text := by
  obtain ⟨r, hparses, hr⟩ := h
  obtain ⟨p, rfl, hp⟩ := hparses.quoted fun hmem => hnul _ hmem rfl
  obtain ⟨b, hb, hquoted⟩ := exists_blanks r
  rw [hr, List.append_nil] at hb
  rw [hb]
  exact hp.append hquoted

/-! ## Lists of operands -/

/-- A list of operands with commas between them, and blanks around each. -/
inductive Listed : List Char → List (List Char) → Prop
  | last {piece t : List Char} (ht : Trimmed t) (h : Padded piece t) : Listed piece [t]
  | more {piece t rest : List Char} {texts : List (List Char)} (ht : Trimmed t)
    (h : Padded piece t) (hrest : Listed rest texts) : Listed (piece ++ ',' :: rest) (t :: texts)

variable {field : List Char} {texts : List (List Char)}

theorem Listed.ne_nil (h : Listed field texts) : texts ≠ [] := by
  cases h
  all_goals exact List.cons_ne_nil _ _

theorem Listed.trimmed (h : Listed field texts) : ∀ t ∈ texts, Trimmed t := by
  induction h with
  | last ht =>
    intro t hmem
    rw [List.mem_singleton.mp hmem]
    exact ht
  | more ht _ _ ih =>
    intro t hmem
    rcases List.mem_cons.mp hmem with rfl | hmem
    · exact ht
    · exact ih t hmem

theorem Padded.quoted {piece t : List Char} (h : Padded piece t) (ht : Quoted operandMarks t) :
    Quoted operandMarks piece := by
  obtain ⟨b, e, rfl, hb, he⟩ := h
  have hblanks {s : List Char} (hs : ∀ c ∈ s, isTrailing c = true) : Quoted operandMarks s :=
    .of_kind (by decide) hs
  exact (hblanks fun c hc => isTrailing_of_isBlank (hb c hc)).append (ht.append (hblanks he))

/-- **A list comes apart** at the commas that it was joined with. -/
theorem Listed.commaPieces (h : Listed field texts) (ht : ∀ t ∈ texts, Quoted operandMarks t) :
    List.Forall₂ Padded (commaPieces false field) texts := by
  induction h with
  | last _ h =>
    have hpiece := h.quoted (ht _ List.mem_cons_self)
    have hsplit := hpiece.commaPieces []
    rw [List.append_nil] at hsplit
    rw [hsplit]
    exact List.Forall₂.cons (by simpa using h) List.Forall₂.nil
  | @more _ _ rest _ _ h _ ih =>
    have hpiece := h.quoted (ht _ List.mem_cons_self)
    have hcomma : Umk80.commaPieces false (',' :: rest) = [] :: Umk80.commaPieces false rest := rfl
    rw [hpiece.commaPieces, hcomma]
    exact List.Forall₂.cons (by simpa using h) (ih fun t hmem => ht t (List.mem_cons_of_mem _ hmem))

/-! ## Directives -/

/-- The data directives. -/
inductive Directive
  | db
  | dw
deriving DecidableEq

namespace Directive

def name : Directive → String
  | db => "DB"
  | dw => "DW"

def stmt : Directive → List Ptr → Stmt
  | db => .db
  | dw => .dw

/-- The bytes of a value: the low one, or the low two with the lower first. -/
def bytes : Directive → ℤ → List U8
  | db, v => [BitVec.ofInt 8 v]
  | dw, v => [BitVec.ofInt 8 v, BitVec.ofInt 8 (v >>> (8 : ℕ))]

def size : Directive → ℕ
  | db => 1
  | dw => 2

theorem length_bytes (d : Directive) (v : ℤ) : (d.bytes v).length = d.size := by
  cases d
  all_goals rfl

/-- A directive emits its operands one after the other. -/
theorem exec_stmt (d : Directive) (a : Asm) (stmtPc : ℤ) (ops : List Ptr) :
    a.exec stmtPc (d.stmt ops) = ops.foldl (fun a op =>
      (a.datum stmtPc d.name op).2.emitBytes (d.bytes (a.datum stmtPc d.name op).1)) a := by
  cases d
  all_goals rfl

end Directive

namespace Asm

/-- The number of bytes does not depend on the operands. -/
theorem emits_data (d : Directive) (a : Asm) (stmtPc : ℤ) (ops : List Ptr) :
    Emits (d.size * ops.length) a (a.exec stmtPc (d.stmt ops)) := by
  cases d with
  | db => exact a.emits_db stmtPc ops
  | dw => exact a.emits_dw stmtPc ops

/-- **The bytes of operands** that are in order. -/
theorem exec_data (d : Directive) {a : Asm} {stmtPc : ℤ} {ops : List Ptr} {vs : List ℤ}
    (h : List.Forall₂ (fun op v => (evaluate ⟨a.syms, stmtPc⟩ op).1 = v ∧
      (evaluate ⟨a.syms, stmtPc⟩ op).2.ok = true) ops vs) :
    a.exec stmtPc (d.stmt ops) = a.emitBytes (vs.flatMap d.bytes) := by
  rw [d.exec_stmt]
  generalize hsyms : a.syms = syms at h
  induction h generalizing a with
  | nil => rfl
  | @cons op v ops vs hop _ ih =>
    obtain ⟨hv, hok⟩ := hop
    have hdatum : a.datum stmtPc d.name op = (v, a) := by
      unfold datum
      dsimp only
      rw [hsyms, hv, if_pos hok]
    have hsame : (a.emitBytes (d.bytes v)).syms = syms := by
      rw [(a.emits_emitBytes _).syms, hsyms]
    rw [List.foldl_cons, List.flatMap_cons, hdatum, emitBytes_append]
    exact ih hsame

/-- The table with the label of a line. -/
def labelled (a : Asm) (l : SourceLine) : Asm := a.defineLabel ⟨l.labelName, none⟩

theorem assembleLine_of_parseLine {l : SourceLine} {stmt : Stmt}
    (h : parseLine l.text = ⟨l.labelName, some stmt⟩) (a : Asm) :
    a.assembleLine l.text = (a.labelled l).exec a.pc stmt := by
  rw [assembleLine, h]
  rfl

end Asm

/-- **Every operand of a data directive is emitted**: the location counter advances by their bytes
in every pass, and in the emitting pass their values are written if they have one. -/
structure EmitsAll (l : SourceLine) (d : Directive) (texts : List (List Char)) : Prop where
  pc : ∀ a : Asm, (a.assembleLine l.text).pc = a.pc + (d.size * texts.length : ℕ)
  bytes : ∀ (a : Asm) (vs : List ℤ), a.emitting = true → 0 ≤ a.pc →
    a.pc + (d.size * texts.length : ℕ) ≤ a.imageSize →
    List.Forall₂ (Derives ⟨(a.labelled l).syms, a.pc⟩) texts vs →
      Asm.Wrote (vs.flatMap d.bytes) (a.labelled l) (a.assembleLine l.text)

/-- Two relations between lists, one after the other. -/
theorem forall₂_comp {α β γ : Type} {R : α → β → Prop} {S : β → γ → Prop} {T : α → γ → Prop}
    (h : ∀ x y z, R x y → S y z → T x z) {xs : List α} {ys : List β} {zs : List γ}
    (hR : List.Forall₂ R xs ys) (hS : List.Forall₂ S ys zs) : List.Forall₂ T xs zs := by
  induction hR generalizing zs with
  | nil =>
    cases hS
    exact List.Forall₂.nil
  | cons hx _ ih =>
    cases hS with
    | cons hy hS => exact List.Forall₂.cons (h _ _ _ hx hy) (ih hS)

theorem exists_of_forall₂ {α β : Type} {R : α → β → Prop} {xs : List α} {ys : List β}
    (h : List.Forall₂ R xs ys) : ∀ x ∈ xs, ∃ y, R x y := by
  induction h with
  | nil => exact nofun
  | cons hx _ ih => exact List.forall_mem_cons.mpr ⟨⟨_, hx⟩, ih⟩

namespace SourceLine

variable {l : SourceLine} {d : Directive}

theorem statementOf_directive (hword : l.word.map Char.toUpper = d.name.toList) {rest : Ptr}
    (hrest : Holds rest l.field) : statementOf (l.word.map Char.toUpper) rest =
      if startsEqu l.field then .equ d.name.toList (trim (rest.drop 3))
      else d.stmt (splitOperands id rest) := by
  obtain ⟨z, rfl⟩ := hrest
  rw [hword, statementOf, startsEqu_append]
  cases d
  all_goals rfl

/-- A statement without bytes. -/
theorem pc_of_silent {name : Option Name} {stmt : Stmt}
    (hline : parseLine l.text = ⟨name, some stmt⟩)
    (hstmt : ∃ mnemonic, stmt = .unknown mnemonic ∨ ∃ expr, stmt = .equ mnemonic expr) (a : Asm) :
    (a.assembleLine l.text).pc = a.pc := by
  rw [Asm.assembleLine, hline, Asm.execLine]
  dsimp only
  obtain ⟨mnemonic, rfl | ⟨expr, rfl⟩⟩ := hstmt
  · rw [Asm.exec, (Asm.emits_report _ _).pc, Asm.defineLabel_pc]
    exact Int.add_zero _
  · rw [Asm.exec]
    split
    · rw [Asm.define_pc, Asm.defineLabel_pc]
    · rw [(Asm.emits_report _ _).pc, Asm.defineLabel_pc]
      exact Int.add_zero _

/-- The statement of a data line, with the operands that are kept. -/
theorem parseLine_data (hword : l.word.map Char.toUpper = d.name.toList)
    (hlist : Listed l.field texts) (hquoted : ∀ t ∈ texts, Quoted operandMarks t)
    (hcolon : l.label = none → ':' ∉ l.field) (hequ : startsEqu l.field = false) :
    ∃ ops, List.Forall₂ Holds ops (texts.take 8) ∧
      parseLine l.text = ⟨l.labelName, some (d.stmt ops)⟩ := by
  obtain ⟨rest, hrest, hline⟩ := l.parseLine_text hcolon
  have hsplit := splitOperands_padded (f := id) (g := id) hrest l.field_trimmed.no_nul
    (hlist.commaPieces hquoted) (fun t ht => ⟨hlist.trimmed t ht, fun p hp => hp⟩) fun t ht => by
      obtain ⟨c, t', rfl⟩ := List.exists_cons_of_ne_nil (hlist.trimmed t ht).ne
      exact ⟨c, t', rfl, (hlist.trimmed _ ht).no_nul c List.mem_cons_self⟩
  rw [List.map_id] at hsplit
  refine ⟨_, hsplit, ?_⟩
  rw [hline, statementOf_directive hword hrest, hequ]
  rfl

/-- **A data line whose operands have values** emits their bytes. -/
theorem assembleLine_data (hword : l.word.map Char.toUpper = d.name.toList)
    (hlist : Listed l.field texts) (hlen : texts.length ≤ 8)
    (hcolon : l.label = none → ':' ∉ l.field) (hequ : startsEqu l.field = false) {a : Asm}
    {vs : List ℤ} (hvs : List.Forall₂ (Derives ⟨(a.labelled l).syms, a.pc⟩) texts vs) :
    a.assembleLine l.text = (a.labelled l).emitBytes (vs.flatMap d.bytes) := by
  have hquoted : ∀ t ∈ texts, Quoted operandMarks t := by
    intro t ht
    obtain ⟨v, h⟩ := exists_of_forall₂ hvs t ht
    exact h.quoted (hlist.trimmed t ht).no_nul
  obtain ⟨ops, hops, hline⟩ := parseLine_data hword hlist hquoted hcolon hequ
  rw [List.take_of_length_le hlen] at hops
  rw [Asm.assembleLine_of_parseLine hline]
  refine Asm.exec_data d (forall₂_comp (fun op t v hop ht => ?_) hops hvs)
  obtain ⟨z, rfl⟩ := hop
  obtain ⟨refs, heval⟩ := ht.evaluate z
  rw [heval]
  exact ⟨rfl, rfl⟩

end SourceLine

/-- **Data directives.** Every operand is emitted, exactly if there are no more than 8 of them, the
list does not start like the expression of an EQU, and it has no colon unless the line has a
label. -/
theorem emitsAll_iff (l : SourceLine) (d : Directive) (texts : List (List Char))
    (hword : l.word.map Char.toUpper = d.name.toList) (hlist : Listed l.field texts)
    (hderives : ∀ t ∈ texts, ∃ env v, Derives env t v) :
    EmitsAll l d texts ↔ texts.length ≤ 8 ∧ startsEqu l.field = false ∧
      (l.label = none → ':' ∉ l.field) := by
  have hquoted : ∀ t ∈ texts, Quoted operandMarks t := by
    intro t ht
    obtain ⟨env, v, h⟩ := hderives t ht
    exact h.quoted (hlist.trimmed t ht).no_nul
  have hsize : 0 < d.size := by
    cases d
    all_goals decide
  constructor
  · intro h
    have hpos : 0 < d.size * texts.length :=
      Nat.mul_pos hsize (List.length_pos_iff.mpr hlist.ne_nil)
    have hmoves (hsame : ∀ a : Asm, (a.assembleLine l.text).pc = a.pc) : False := by
      have hpc := h.pc (Asm.init 0)
      rw [hsame] at hpc
      omega
    have hcolon : l.label = none → ':' ∉ l.field := by
      intro hlabel hmem
      obtain ⟨name, p, u, w, hp, -, -, hline⟩ := l.parseLine_colon hlabel hmem
      obtain ⟨mnemonic, hstmt⟩ := parseStatement_quote hp
      exact hmoves (SourceLine.pc_of_silent hline ⟨mnemonic, hstmt.imp_right And.right⟩)
    have hequ : startsEqu l.field = false := by
      rw [Bool.eq_false_iff]
      intro hequ
      obtain ⟨rest, hrest, hline⟩ := l.parseLine_text hcolon
      rw [SourceLine.statementOf_directive hword hrest, if_pos hequ] at hline
      exact hmoves (SourceLine.pc_of_silent hline ⟨_, Or.inr ⟨_, rfl⟩⟩)
    refine ⟨?_, hequ, hcolon⟩
    obtain ⟨ops, hops, hline⟩ := SourceLine.parseLine_data hword hlist hquoted hcolon hequ
    have hpc := h.pc (Asm.init 0)
    rw [Asm.assembleLine_of_parseLine hline, (Asm.emits_data d _ _ ops).pc, Asm.labelled,
      Asm.defineLabel_pc, hops.length_eq, List.length_take] at hpc
    have hmul : d.size * min 8 texts.length = d.size * texts.length := by omega
    have hmin := Nat.eq_of_mul_eq_mul_left hsize hmul
    omega
  · rintro ⟨hlen, hequ, hcolon⟩
    obtain ⟨ops, hops, hline⟩ := SourceLine.parseLine_data hword hlist hquoted hcolon hequ
    rw [List.take_of_length_le hlen] at hops
    constructor
    · intro a
      rw [Asm.assembleLine_of_parseLine hline, (Asm.emits_data d _ _ ops).pc, Asm.labelled,
        Asm.defineLabel_pc, hops.length_eq]
    · intro a vs he h0 hfit hvs
      have hlabel := a.extends_defineLabel ⟨l.labelName, none⟩
      have hpc : (a.labelled l).pc = a.pc := a.defineLabel_pc _
      have hsize' : (a.labelled l).imageSize = a.imageSize := hlabel.imageSize
      have hcount : (vs.flatMap d.bytes).length = d.size * texts.length := by
        rw [List.length_flatMap, hvs.length_eq]
        simp [d.length_bytes, Nat.mul_comm]
      rw [SourceLine.assembleLine_data hword hlist hlen hcolon hequ hvs]
      have hemit : (a.labelled l).emitting = true := by
        rw [← he]
        exact hlabel.emitting
      refine Asm.wrote_emitBytes hemit ?_ ?_
      · rw [hpc]
        exact h0
      · rw [hpc, hcount, hsize']
        exact hfit

/-! ## Two lists -/

theorem derives_literal {c : Char} (hc : c ≠ QUOTE) (env : Env) :
    Derives env [QUOTE, c, QUOTE] c.toNat :=
  ⟨[], .expr (.factor (.literal rfl hc)) .done, rfl⟩

theorem trimmed_literal {c : Char} (hc : c ≠ NUL) : Trimmed [QUOTE, c, QUOTE] where
  ne := List.cons_ne_nil _ _
  no_nul := by simp [hc, show QUOTE ≠ NUL by decide]
  head := by simp [show isBlank QUOTE = false by decide]
  last := by simp [show isTrailing QUOTE = false by decide]

/-- The digit of a number. -/
def digitText (n : Fin 10) : List Char := [Char.ofNat (48 + n)]

theorem derives_digit (n : Fin 10) (env : Env) : Derives env (digitText n) (n : ℕ) := by
  have htext : ∀ n : Fin 10, skipBlanks (digitText n) = digitText n ++ [] ∧
      (skipBlanks (digitText n)).takeWhile Char.isAlphanum = digitText n ∧
      (skipBlanks (digitText n)).head?.any Char.isDigit = true ∧
      constant (digitText n) = some ((n : ℕ) : ℤ) := by
    decide
  obtain ⟨htok, htake, hstart, hv⟩ := htext n
  exact ⟨[], .expr (.factor (.number htok htake hstart hv)) .done, rfl⟩

theorem trimmed_digit (n : Fin 10) : Trimmed (digitText n) := by
  have htext : ∀ n : Fin 10, digitText n ≠ [] ∧ (∀ c ∈ digitText n, c ≠ NUL) ∧
      (∀ c ∈ (digitText n).head?, isBlank c = false) ∧
      ∀ c ∈ (digitText n).getLast?, isTrailing c = false := by
    decide
  obtain ⟨hne, hnul, hhead, hlast⟩ := htext n
  exact ⟨hne, hnul, hhead, hlast⟩

/-- `TAB: dw ',' , 2 ; a comma`. -/
def commaLine : SourceLine where
  lead := []
  label := some ("TAB".toList, [' '])
  word := "dw".toList
  gap := [' ']
  field := [QUOTE, ',', QUOTE] ++ " , 2".toList
  trail := [' ']
  comment := some " a comma\n".toList
  lead_blank := blank_nil
  label_name := by
    rintro x hx
    obtain rfl := Option.some.inj hx
    exact ⟨⟨by decide, by decide⟩, by decide⟩
  word_name := ⟨by decide, by decide⟩
  gap_ne := space_ne_nil
  gap_blank := blank_space
  field_trimmed := ⟨by decide, by decide, by decide, by decide⟩
  field_quoted := .literal (by decide) (by decide) (.of_forall (by decide))
  trail_trailing := trailing_space
  comment_text := by decide
  length_text := by decide

theorem emitsAll_iff_comma : EmitsAll commaLine .dw [[QUOTE, ',', QUOTE], digitText 2] := by
  have hfirst : Padded [QUOTE, ',', QUOTE, ' '] [QUOTE, ',', QUOTE] :=
    ⟨[], [' '], rfl, by decide, by decide⟩
  have hlist : Listed commaLine.field [[QUOTE, ',', QUOTE], digitText 2] :=
    .more (trimmed_literal (by decide)) hfirst
      (.last (trimmed_digit 2) ⟨[' '], [], rfl, by decide, by decide⟩)
  refine (emitsAll_iff commaLine .dw _ (by decide) hlist ?_).mpr ⟨by decide, by decide, nofun⟩
  simp only [List.forall_mem_cons]
  exact ⟨⟨⟨[], 0⟩, _, derives_literal (by decide) _⟩, ⟨⟨[], 0⟩, _, derives_digit 2 _⟩, nofun⟩

/-- `DB 1,2,3,4,5,6,7,8,9`. -/
def nineLine : SourceLine where
  lead := [' ']
  label := none
  word := "DB".toList
  gap := [' ']
  field := "1,2,3,4,5,6,7,8,9".toList
  trail := ['\n']
  comment := none
  lead_blank := blank_space
  label_name := no_label
  word_name := ⟨by decide, by decide⟩
  gap_ne := space_ne_nil
  gap_blank := blank_space
  field_trimmed := ⟨by decide, by decide, by decide, by decide⟩
  field_quoted := .of_forall (by decide)
  trail_trailing := trailing_newline
  comment_text := no_comment
  length_text := by decide

/-- The ninth operand is dropped. -/
theorem not_emitsAll_nine : ∃ texts, Listed nineLine.field texts ∧
    (∀ t ∈ texts, ∃ env v, Derives env t v) ∧ ¬ EmitsAll nineLine .db texts := by
  have hmore {n : Fin 10} {rest : List Char} {texts : List (List Char)} (h : Listed rest texts) :
      Listed (digitText n ++ ',' :: rest) (digitText n :: texts) :=
    .more (trimmed_digit n) (Padded.refl _) h
  refine ⟨[1, 2, 3, 4, 5, 6, 7, 8, 9].map digitText, ?_, ?_, ?_⟩
  · exact hmore (n := 1) (hmore (n := 2) (hmore (n := 3) (hmore (n := 4) (hmore (n := 5)
      (hmore (n := 6) (hmore (n := 7) (hmore (n := 8)
        (.last (trimmed_digit 9) (Padded.refl _)))))))))
  · intro t ht
    obtain ⟨n, -, rfl⟩ := List.mem_map.mp ht
    exact ⟨⟨[], 0⟩, _, derives_digit n _⟩
  · intro h
    have hpc := h.pc (Asm.init 2048)
    have hrun : ((Asm.init 2048).assembleLine nineLine.text).pc = 8 := by decide +kernel
    rw [hrun] at hpc
    exact absurd hpc (by decide)

end Umk80
