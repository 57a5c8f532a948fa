import Mathlib.Data.List.Forall2
import Umk80.Asm.Assembler

/-!
# Plain lines

A line of the kind the disassembler prints: blanks, a word, and operands of letters and digits
between commas, with no label, comment, character literal or blank inside. Taking such a line
apart in place gives its word and its operands, and an operand that starts with a digit is a
constant.

## Main definitions

* `Plain`, `plainLine` — a word, so many blanks, and the text of the operands
* `Holds` — a pointer to a given string

## Main results

* `parseLine_plainLine` — the statement of a plain line
* `holds_splitOperands` — its operands
* `evaluate_number`, `evaluate_name` — the value of an operand
-/

namespace Umk80

open CString

/-! ## Characters -/

def isPlain (c : Char) : Bool := c.isAlphanum || c == ','

theorem toNat_of_isAlpha {c : Char} (h : c.isAlpha = true) :
    (65 ≤ c.toNat ∧ c.toNat ≤ 90) ∨ (97 ≤ c.toNat ∧ c.toNat ≤ 122) := by
  rcases Bool.or_eq_true _ _ ▸ h with hupper | hlower
  · exact Or.inl (of_decide_eq_true hupper)
  · obtain ⟨hlow, hhigh⟩ := Bool.and_eq_true _ _ ▸ hlower
    exact Or.inr ⟨of_decide_eq_true hlow, of_decide_eq_true hhigh⟩

theorem toNat_of_isDigit {c : Char} (h : c.isDigit = true) : 48 ≤ c.toNat ∧ c.toNat ≤ 57 := by
  obtain ⟨hlow, hhigh⟩ := Bool.and_eq_true _ _ ▸ h
  exact ⟨of_decide_eq_true hlow, of_decide_eq_true hhigh⟩

theorem toNat_of_isAlphanum {c : Char} (h : c.isAlphanum = true) :
    48 ≤ c.toNat ∧ c ≠ ':' ∧ c ≠ ';' := by
  have hnat : 48 ≤ c.toNat := by
    rcases Bool.or_eq_true _ _ ▸ h with halpha | hdigit
    · have := toNat_of_isAlpha halpha
      omega
    · exact (toNat_of_isDigit hdigit).1
  refine ⟨hnat, ?_, ?_⟩
  · rintro rfl
    exact absurd h (by decide)
  · rintro rfl
    exact absurd h (by decide)

/-- What the assembler looks for in a line is not plain. -/
structure Harmless (c : Char) : Prop where
  nul : c ≠ NUL
  quote : c ≠ QUOTE
  semicolon : c ≠ ';'
  colon : c ≠ ':'
  dollar : c ≠ '$'

theorem harmless_of_isPlain {c : Char} (h : isPlain c = true) : Harmless c ∧ isSpace c = false := by
  rcases Bool.or_eq_true _ _ ▸ h with halnum | hcomma
  · obtain ⟨hnat, hcolon, hsemicolon⟩ := toNat_of_isAlphanum halnum
    have hne (d : Char) (hd : d.toNat < 48) : c ≠ d := by
      rintro rfl
      omega
    refine ⟨⟨hne _ (by decide), hne _ (by decide), hsemicolon, hcolon, hne _ (by decide)⟩, ?_⟩
    have hspace : c ≠ ' ' := hne _ (by decide)
    have htab : c ≠ '\t' := hne _ (by decide)
    simp only [isSpace, isBlank, beq_eq_false_iff_ne.mpr hspace, beq_eq_false_iff_ne.mpr htab,
      Bool.false_or, Bool.and_eq_false_iff, decide_eq_false_iff_not]
    omega
  · rw [beq_iff_eq.mp hcomma]
    exact ⟨⟨by decide, by decide, by decide, by decide, by decide⟩, by decide⟩

theorem harmless_blank : Harmless ' ' := ⟨by decide, by decide, by decide, by decide, by decide⟩

theorem isBlank_of_isSpace {c : Char} (h : isSpace c = false) : isBlank c = false :=
  (Bool.or_eq_false_iff.mp h).1

theorem isTrailing_of_isSpace {c : Char} (h : isSpace c = false) : isTrailing c = false := by
  have hr : c ≠ '\r' := by
    rintro rfl
    exact absurd h (by decide)
  have hn : c ≠ '\n' := by
    rintro rfl
    exact absurd h (by decide)
  rw [isTrailing, isBlank_of_isSpace h, beq_eq_false_iff_ne.mpr hr, beq_eq_false_iff_ne.mpr hn]
  rfl

/-! ## Strings in memory -/

/-- `p` points to the string `s`. -/
def Holds (p : Ptr) (s : List Char) : Prop := ∃ z, p = s ++ NUL :: z

theorem cstr_append {s : List Char} (h : ∀ c ∈ s, c ≠ NUL) (z : Ptr) :
    cstr (s ++ NUL :: z) = s :=
  takeWhile_ne_append (fun hmem => h NUL hmem rfl) z

/-- **Trimming** takes the blanks off both ends of a string. -/
theorem trim_append {b s t : List Char} (hb : ∀ c ∈ b, isBlank c = true)
    (hs : ∀ c ∈ s, c ≠ NUL) (hhead : ∀ c ∈ s.head?, isBlank c = false)
    (hlast : ∀ c ∈ s.getLast?, isTrailing c = false) (hne : s ≠ [])
    (ht : ∀ c ∈ t, isTrailing c = true ∧ c ≠ NUL) (z : Ptr) :
    Holds (trim (b ++ (s ++ (t ++ NUL :: z)))) s := by
  have hdrop : (b ++ (s ++ (t ++ NUL :: z))).dropWhile isBlank = s ++ (t ++ NUL :: z) := by
    rw [List.dropWhile_append_of_pos hb]
    obtain ⟨c, s', rfl⟩ := List.exists_cons_of_ne_nil hne
    rw [List.cons_append, List.dropWhile_cons_of_neg]
    rw [hhead c rfl]
    exact Bool.false_ne_true
  have hcstr : cstr (s ++ (t ++ NUL :: z)) = s ++ t := by
    rw [← List.append_assoc]
    refine cstr_append (fun c hc => ?_) z
    rcases List.mem_append.mp hc with hc | hc
    · exact hs c hc
    · exact (ht c hc).2
  have hkept : (s ++ t).rdropWhile isTrailing = s := by
    rw [List.rdropWhile, List.reverse_append, List.dropWhile_append_of_pos]
    · obtain ⟨c, s', hrev⟩ := List.exists_cons_of_ne_nil (List.reverse_ne_nil_iff.mpr hne)
      have hc : isTrailing c = false := by
        refine hlast c ?_
        rw [← List.head?_reverse, hrev]
        rfl
      rw [hrev, List.dropWhile_cons_of_neg (by rw [hc]; exact Bool.false_ne_true), ← hrev,
        List.reverse_reverse]
    · exact fun c hc => (ht c (List.mem_reverse.mp hc)).1
  unfold trim
  dsimp only
  rw [hdrop, hcstr, hkept, List.set_append_right _ _ (Nat.le_refl _), Nat.sub_self]
  cases t with
  | nil => exact ⟨z, rfl⟩
  | cons c t => exact ⟨t ++ NUL :: z, rfl⟩

/-- A string without blanks at its ends. -/
structure Trimmed (s : List Char) : Prop where
  ne : s ≠ []
  no_nul : ∀ c ∈ s, c ≠ NUL
  head : ∀ c ∈ s.head?, isBlank c = false
  last : ∀ c ∈ s.getLast?, isTrailing c = false

/-- A string with blanks around it. -/
def Padded (piece s : List Char) : Prop :=
  ∃ b t, piece = b ++ (s ++ t) ∧ (∀ c ∈ b, isBlank c = true) ∧ ∀ c ∈ t, isTrailing c = true

theorem Padded.refl (s : List Char) : Padded s s := ⟨[], [], by simp, by simp, by simp⟩

theorem ne_nul_of_isTrailing {c : Char} (h : isTrailing c = true) : c ≠ NUL := by
  rintro rfl
  exact absurd h (by decide)

theorem Trimmed.holds_trim {piece s : List Char} (hs : Trimmed s) (h : Padded piece s) (z : Ptr) :
    Holds (trim (piece ++ NUL :: z)) s := by
  obtain ⟨b, t, rfl, hb, ht⟩ := h
  rw [List.append_assoc, List.append_assoc]
  exact trim_append hb hs.no_nul hs.head hs.last hs.ne
    (fun c hc => ⟨ht c hc, ne_nul_of_isTrailing (ht c hc)⟩) z

theorem stripComment_append {s : List Char} (h : ∀ c ∈ s, c ≠ NUL ∧ c ≠ QUOTE ∧ c ≠ ';') (z : Ptr) :
    stripComment false (s ++ NUL :: z) = s ++ NUL :: z := by
  induction s with
  | nil => rw [List.nil_append, stripComment, if_pos rfl]
  | cons c s ih =>
    obtain ⟨hnul, hquote, hsemicolon⟩ := h c List.mem_cons_self
    rw [List.cons_append, stripComment, if_neg hnul, if_neg hquote,
      if_neg fun hc => hsemicolon hc.1, ih fun d hd => h d (List.mem_cons_of_mem _ hd)]

/-- A short line is copied whole. -/
theorem holds_copyLine {raw : List Char} (hraw : ∀ c ∈ raw, c ≠ NUL) (hlen : raw.length ≤ 511) :
    Holds (copyLine raw) raw := by
  have hcstr : cstr raw = raw :=
    List.takeWhile_eq_self_iff.mpr fun c hc => bne_iff_ne.mpr (hraw c hc)
  have hpos : MAX_LINE - raw.length = MAX_LINE - raw.length - 1 + 1 := by
    unfold MAX_LINE
    omega
  refine ⟨List.replicate (MAX_LINE - raw.length - 1) NUL, ?_⟩
  rw [copyLine, hcstr, List.take_of_length_le (show raw.length ≤ MAX_LINE - 1 from hlen),
    ← List.replicate_succ, ← hpos]

/-- A word with nothing behind it. -/
theorem parseStatement_word {word : List Char} (hword : ∀ c ∈ word, c ≠ NUL ∧ isSpace c = false)
    (z : Ptr) : parseStatement (word ++ NUL :: z) =
      statementOf (word.map Char.toUpper) (NUL :: z) := by
  have hspace (c : Char) (hc : c ∈ word) : (!isSpace c) = true := by rw [(hword c hc).2]; rfl
  rw [parseStatement, cstr_append fun c hc => (hword c hc).1,
    List.takeWhile_eq_self_iff.mpr hspace, List.drop_left]
  rfl

/-- A word, and a string behind blanks. -/
theorem parseStatement_append {word gap s : List Char}
    (hword : ∀ c ∈ word, c ≠ NUL ∧ isSpace c = false) (hgap : gap ≠ [])
    (hblank : ∀ c ∈ gap, isBlank c = true) (hs : Trimmed s) (z : Ptr) : ∃ rest, Holds rest s ∧
      parseStatement (word ++ (gap ++ s) ++ NUL :: z) =
        statementOf (word.map Char.toUpper) rest := by
  obtain ⟨b, gap, rfl⟩ := List.exists_cons_of_ne_nil hgap
  have hb : isSpace b = true := by
    rw [isSpace, hblank b List.mem_cons_self]
    rfl
  have hnul (c : Char) (hc : isBlank c = true) : c ≠ NUL := by
    rintro rfl
    exact absurd hc (by decide)
  have hall : ∀ c ∈ word ++ (b :: gap ++ s), c ≠ NUL := by
    intro c hc
    rcases List.mem_append.mp hc with hc | hc
    · exact (hword c hc).1
    rcases List.mem_append.mp hc with hc | hc
    · exact hnul c (hblank c hc)
    · exact hs.no_nul c hc
  have hspace (c : Char) (hc : c ∈ word) : (!isSpace c) = true := by rw [(hword c hc).2]; rfl
  have htake : (cstr (word ++ (b :: gap ++ s) ++ NUL :: z)).takeWhile (fun c => !isSpace c) =
      word := by
    rw [cstr_append hall, List.takeWhile_append_of_pos hspace, List.cons_append,
      List.takeWhile_cons_of_neg (by simp [hb]), List.append_nil]
  have hdrop : (word ++ (b :: gap ++ s) ++ NUL :: z).drop word.length =
      b :: (gap ++ s ++ NUL :: z) := by
    rw [List.append_assoc, List.drop_left]
    rfl
  have hpadded : Padded (gap ++ s) s :=
    ⟨gap, [], by simp, fun c hc => hblank c (List.mem_cons_of_mem _ hc), by simp⟩
  refine ⟨trim (gap ++ s ++ NUL :: z), hs.holds_trim hpadded z, ?_⟩
  have hderef : deref (b :: (gap ++ s ++ NUL :: z)) ≠ NUL := hnul b (hblank b List.mem_cons_self)
  rw [parseStatement, htake, hdrop, if_neg hderef]
  rfl

/-! ## Plain lines -/

/-- A word and the text of its operands, with `gap` blanks between them if there are any. -/
structure Plain (word : List Char) (gap : ℕ) (text : List Char) : Prop where
  word_ne : word ≠ []
  word_alnum : ∀ c ∈ word, c.isAlphanum = true
  text_plain : ∀ c ∈ text, isPlain c = true
  gap_iff : gap = 0 ↔ text = []
  short : word.length + gap + text.length ≤ 500

/-- The line that the disassembler prints. -/
def plainLine (word : List Char) (gap : ℕ) (text : List Char) : List Char :=
  List.replicate 6 ' ' ++ (word ++ List.replicate gap ' ' ++ text) ++ ['\n']

namespace Plain

variable {word text : List Char} {gap : ℕ} (h : Plain word gap text)

include h

theorem word_plain : ∀ c ∈ word, isPlain c = true := fun c hc => by
  rw [isPlain, h.word_alnum c hc]
  rfl

theorem harmless : ∀ c ∈ word ++ List.replicate gap ' ' ++ text, Harmless c := by
  intro c hc
  rcases List.mem_append.mp hc with hc | hc
  · rcases List.mem_append.mp hc with hc | hc
    · exact (harmless_of_isPlain (h.word_plain c hc)).1
    · rw [List.eq_of_mem_replicate hc]
      exact harmless_blank
  · exact (harmless_of_isPlain (h.text_plain c hc)).1

theorem trimmed_core : Trimmed (word ++ List.replicate gap ' ' ++ text) where
  ne := List.append_ne_nil_of_left_ne_nil (List.append_ne_nil_of_left_ne_nil h.word_ne _) _
  no_nul c hc := (h.harmless c hc).nul
  head c hc := by
    obtain ⟨d, w, hw⟩ := List.exists_cons_of_ne_nil h.word_ne
    have hd := h.word_plain d (by rw [hw]; exact List.mem_cons_self)
    rw [hw, List.append_assoc, List.cons_append, List.head?_cons, Option.mem_some_iff] at hc
    rw [← hc]
    exact isBlank_of_isSpace (harmless_of_isPlain hd).2
  last c hc := by
    have hplain : isPlain c = true := by
      by_cases htext : text = []
      · rw [h.gap_iff.mpr htext, htext] at hc
        simp only [List.replicate_zero, List.append_nil] at hc
        exact h.word_plain c (List.mem_of_getLast? hc)
      · rw [List.getLast?_append_of_ne_nil _ htext] at hc
        exact h.text_plain c (List.mem_of_getLast? hc)
    exact isTrailing_of_isSpace (harmless_of_isPlain hplain).2

/-- What is left of the line without its comment and the blanks around it. -/
theorem holds_line :
    Holds (trim (stripComment false (copyLine (plainLine word gap text))))
      (word ++ List.replicate gap ' ' ++ text) := by
  have hmem (c : Char) (hc : c ∈ plainLine word gap text) : c ≠ NUL ∧ c ≠ QUOTE ∧ c ≠ ';' := by
    rcases List.mem_append.mp hc with hc | hc
    · rcases List.mem_append.mp hc with hc | hc
      · have hblank : c = ' ' := List.eq_of_mem_replicate hc
        rw [hblank]
        exact ⟨harmless_blank.nul, harmless_blank.quote, harmless_blank.semicolon⟩
      · have hharm := h.harmless c hc
        exact ⟨hharm.nul, hharm.quote, hharm.semicolon⟩
    · rw [List.mem_singleton.mp hc]
      exact ⟨by decide, by decide, by decide⟩
  have hlen : (plainLine word gap text).length ≤ 507 := by
    have := h.short
    simp only [plainLine, List.length_append, List.length_replicate, List.length_singleton]
    omega
  obtain ⟨z, hcopy⟩ := holds_copyLine (fun c hc => (hmem c hc).1) (hlen.trans (by decide))
  rw [hcopy, stripComment_append hmem]
  have hpadded : Padded (plainLine word gap text) (word ++ List.replicate gap ' ' ++ text) := by
    refine ⟨List.replicate 6 ' ', ['\n'], List.append_assoc _ _ _, ?_, by decide⟩
    intro c hc
    rw [List.eq_of_mem_replicate hc]
    rfl
  exact h.trimmed_core.holds_trim hpadded z

theorem newline_notMem : '\n' ∉ word ++ List.replicate gap ' ' ++ text := by
  have hplain : isPlain '\n' = false := by decide
  intro hc
  rcases List.mem_append.mp hc with hc | hc
  · rcases List.mem_append.mp hc with hc | hc
    · rw [h.word_plain _ hc] at hplain
      cases hplain
    · exact absurd (List.eq_of_mem_replicate hc) (by decide)
  · rw [h.text_plain _ hc] at hplain
    cases hplain

theorem trimmed_text (hne : text ≠ []) : Trimmed text where
  ne := hne
  no_nul c hc := (harmless_of_isPlain (h.text_plain c hc)).1.nul
  head c hc := isBlank_of_isSpace
    (harmless_of_isPlain (h.text_plain c (List.mem_of_mem_head? hc))).2
  last c hc := isTrailing_of_isSpace
    (harmless_of_isPlain (h.text_plain c (List.mem_of_getLast? hc))).2

/-- The word, and a pointer to the text of the operands. -/
theorem parseStatement_holds {s : Ptr} (hs : Holds s (word ++ List.replicate gap ' ' ++ text)) :
    ∃ rest, Holds rest text ∧ parseStatement s = statementOf (word.map Char.toUpper) rest := by
  obtain ⟨z, rfl⟩ := hs
  have hword (c : Char) (hc : c ∈ word) : c ≠ NUL ∧ isSpace c = false :=
    (harmless_of_isPlain (h.word_plain c hc)).imp_left Harmless.nul
  by_cases htext : text = []
  · rw [h.gap_iff.mpr htext, htext, List.replicate_zero, List.append_nil, List.append_nil]
    exact ⟨NUL :: z, ⟨z, rfl⟩, parseStatement_word hword z⟩
  · rw [List.append_assoc word]
    refine parseStatement_append hword ?_ ?_ (h.trimmed_text htext) z
    · exact fun hnil => htext (h.gap_iff.mp (List.replicate_eq_nil_iff ' ' |>.mp hnil))
    · intro c hc
      rw [List.eq_of_mem_replicate hc]
      rfl

/-- **A plain line** has no label, and the statement of its word. -/
theorem parseLine_plainLine : ∃ rest, Holds rest text ∧
    parseLine (plainLine word gap text) =
      ⟨none, some (statementOf (word.map Char.toUpper) rest)⟩ := by
  obtain ⟨z, hz⟩ := h.holds_line
  obtain ⟨rest, hrest, hstmt⟩ := h.parseStatement_holds ⟨z, rfl⟩
  obtain ⟨c, s', hcons⟩ := List.exists_cons_of_ne_nil h.word_ne
  have hc := (harmless_of_isPlain (h.word_plain c (by rw [hcons]; exact List.mem_cons_self))).1
  have hderef : deref (word ++ List.replicate gap ' ' ++ text ++ NUL :: z) = c := by
    rw [hcons]
    rfl
  have hcolon : ':' ∉ cstr (word ++ List.replicate gap ' ' ++ text ++ NUL :: z) := by
    rw [cstr_append fun c hc => (h.harmless c hc).nul]
    exact fun hmem => (h.harmless _ hmem).colon rfl
  refine ⟨rest, hrest, ?_⟩
  rw [parseLine, hz]
  dsimp only
  rw [hderef, if_neg hc.nul, if_neg hc.dollar, if_neg hcolon, parseRest, hderef, if_neg hc.nul,
    hstmt]

end Plain

/-! ## Operands -/

/-- The field starts like that of an EQU. -/
def startsEqu (field : List Char) : Bool := startsWith field "EQU" && isBlank (deref (field.drop 3))

/-- What is behind the field does not matter. -/
theorem startsEqu_append (field : List Char) (z : Ptr) :
    (startsWith (field ++ NUL :: z) "EQU" && isBlank (deref ((field ++ NUL :: z).drop 3))) =
      startsEqu field :=
  startsWith_and_append (by decide) isBlank field z

/-- A plain rest of a line is no EQU. -/
theorem not_startsEqu_of_plain {text : List Char} (htext : ∀ c ∈ text, isPlain c = true) :
    startsEqu text = false := by
  rw [startsEqu, Bool.and_eq_false_iff]
  right
  cases hdrop : text.drop 3 with
  | nil => decide
  | cons c s =>
    have hmem : c ∈ text.drop 3 := by simp [hdrop]
    exact isBlank_of_isSpace (harmless_of_isPlain (htext c (List.mem_of_mem_drop hmem))).2

theorem not_equ_of_plain {rest : Ptr} {text : List Char} (hrest : Holds rest text)
    (htext : ∀ c ∈ text, isPlain c = true) :
    (startsWith rest "EQU" && isBlank (deref (rest.drop 3))) = false := by
  obtain ⟨z, rfl⟩ := hrest
  rw [startsEqu_append, not_startsEqu_of_plain htext]

/-- A mnemonic of the instruction table. -/
theorem statementOf_find {rest : Ptr} {text : List Char} (hrest : Holds rest text)
    (htext : startsEqu text = false) {mnemonic : Name} {m : Mnem}
    (hm : MNEM.find? (·.name.toList == mnemonic) = some m) :
    statementOf mnemonic rest = .instr m (splitOperands upperShort rest) := by
  have hdirective (d : Name) (hd : MNEM.find? (·.name.toList == d) = none) : mnemonic ≠ d := by
    rintro rfl
    rw [hd] at hm
    cases hm
  obtain ⟨z, rfl⟩ := hrest
  rw [statementOf, startsEqu_append, htext, if_neg Bool.false_ne_true,
    if_neg (hdirective _ (by decide +kernel)), if_neg (hdirective _ (by decide +kernel)),
    if_neg (hdirective _ (by decide +kernel)), if_neg (hdirective _ (by decide +kernel)),
    if_neg (hdirective _ (by decide +kernel)), hm]

theorem statementOf_instr {rest : Ptr} {text : List Char} (hrest : Holds rest text)
    (htext : ∀ c ∈ text, isPlain c = true) {mnemonic : Name} {m : Mnem}
    (hm : MNEM.find? (·.name.toList == mnemonic) = some m) :
    statementOf mnemonic rest = .instr m (splitOperands upperShort rest) :=
  statementOf_find hrest (not_startsEqu_of_plain htext) hm

theorem commaPieces_cons {c : Char} (hc : c.isAlphanum = true) (s : List Char) :
    commaPieces false (c :: s) = (commaPieces false s).modifyHead (c :: ·) := by
  have hquote : c ≠ QUOTE := by
    rintro rfl
    exact absurd hc (by decide)
  have hcomma : c ≠ ',' := by
    rintro rfl
    exact absurd hc (by decide)
  rw [commaPieces, if_neg hquote]
  exact if_neg fun hand => hcomma hand.1

theorem commaPieces_alnum {s : List Char} (h : ∀ c ∈ s, c.isAlphanum = true) :
    commaPieces false s = [s] := by
  induction s with
  | nil => rfl
  | cons c s ih =>
    rw [commaPieces_cons (h c List.mem_cons_self), ih fun d hd => h d (List.mem_cons_of_mem _ hd)]
    rfl

theorem commaPieces_comma {s : List Char} (h : ∀ c ∈ s, c.isAlphanum = true) (t : List Char) :
    commaPieces false (s ++ ',' :: t) = s :: commaPieces false t := by
  induction s with
  | nil => rfl
  | cons c s ih =>
    rw [List.cons_append, commaPieces_cons (h c List.mem_cons_self),
      ih fun d hd => h d (List.mem_cons_of_mem _ hd)]
    rfl

/-- A piece between commas that needs no trimming and no change of case. -/
structure Piece (s : List Char) : Prop where
  ne : s ≠ []
  alnum : ∀ c ∈ s, c.isAlphanum = true
  cased : ∀ c ∈ s, c.toUpper = c

theorem Piece.isPlain {s : List Char} (h : Piece s) (c : Char) (hc : c ∈ s) :
    isPlain c = true := by
  rw [Umk80.isPlain, h.alnum c hc]
  rfl

theorem Piece.trimmed {s : List Char} (h : Piece s) : Trimmed s where
  ne := h.ne
  no_nul := fun c hc => (harmless_of_isPlain (h.isPlain c hc)).1.nul
  head := fun c hc => isBlank_of_isSpace
    (harmless_of_isPlain (h.isPlain c (List.mem_of_mem_head? hc))).2
  last := fun c hc => isTrailing_of_isSpace
    (harmless_of_isPlain (h.isPlain c (List.mem_of_getLast? hc))).2

/-- What `upperShort` makes of a string. -/
def shortUpper (s : List Char) : List Char := if s.length ≤ 3 then s.map Char.toUpper else s

theorem holds_upperShort {s : List Char} (h : ∀ c ∈ s, c ≠ NUL) {p : Ptr} (hp : Holds p s) :
    Holds (upperShort p) (shortUpper s) := by
  obtain ⟨z, rfl⟩ := hp
  have hcstr := cstr_append h z
  rw [upperShort, shortUpper, hcstr]
  split
  · refine ⟨z, ?_⟩
    rw [upper, hcstr, List.drop_left]
  · exact ⟨z, rfl⟩

/-- Uppercasing leaves a piece alone. -/
theorem Piece.holds_upperShort {s : List Char} (h : Piece s) {p : Ptr} (hp : Holds p s) :
    Holds (upperShort p) s := by
  have hs := Umk80.holds_upperShort h.trimmed.no_nul hp
  have hmap : s.map Char.toUpper = s := by
    rw [List.map_congr_left h.cased, List.map_id']
  rw [shortUpper, hmap, ite_self] at hs
  exact hs

/-- The operands among the pieces between the commas, each treated by `f`, which makes `g s` of the
string `s`. Those beyond the first `n` are dropped. The memory after a piece goes on with a NUL. -/
theorem layOut_padded {f : Ptr → Ptr} {g : List Char → List Char} (z : Ptr)
    {pieces texts : List (List Char)} (h : List.Forall₂ Padded pieces texts)
    (htexts : ∀ s ∈ texts, Trimmed s ∧ ∀ p, Holds p s → Holds (f p) (g s)) (n : ℕ) :
    List.Forall₂ Holds (layOut f (NUL :: z) n pieces).2 ((texts.take n).map g) := by
  induction h generalizing n with
  | nil =>
    rw [layOut, List.take_nil]
    exact List.Forall₂.nil
  | @cons piece s pieces texts hpiece hrest ih =>
    obtain ⟨hs, hf⟩ := htexts s List.mem_cons_self
    have hoperand (mem : Ptr) {ops : List Ptr} (hops : List.Forall₂ Holds ops
        ((texts.take (n - 1)).map g)) : List.Forall₂ Holds
          (layOut.operand f n piece (NUL :: mem) ops).2 (((s :: texts).take n).map g) := by
      rw [layOut.operand]
      cases n with
      | zero => exact List.Forall₂.nil
      | succ n => exact List.Forall₂.cons (hf _ (hs.holds_trim hpiece mem)) hops
    cases hrest with
    | nil =>
      rw [layOut]
      exact hoperand z (by simp)
    | cons hnext hrest =>
      rw [layOut]
      · exact hoperand _ (ih (fun t ht => htexts t (List.mem_cons_of_mem _ ht)) (n - 1))
      · exact fun h => List.cons_ne_nil _ _ h

/-- **The operands** of a statement: the first 8 of the strings between the commas. -/
theorem splitOperands_padded {f : Ptr → Ptr} {g : List Char → List Char} {rest : Ptr}
    {text : List Char} {texts : List (List Char)} (hrest : Holds rest text)
    (htext : ∀ c ∈ text, c ≠ NUL) (h : List.Forall₂ Padded (commaPieces false text) texts)
    (htexts : ∀ s ∈ texts, Trimmed s ∧ ∀ p, Holds p s → Holds (f p) (g s))
    (hg : ∀ s ∈ texts, ∃ c s', g s = c :: s' ∧ c ≠ NUL) :
    List.Forall₂ Holds (splitOperands f rest) ((texts.take 8).map g) := by
  obtain ⟨z, rfl⟩ := hrest
  have hlay := layOut_padded z h htexts 8
  unfold splitOperands
  dsimp only
  rw [cstr_append htext, List.drop_left]
  generalize (layOut f (NUL :: z) 8 (commaPieces false text)).2 = ops at hlay
  split
  · rename_i op
    obtain ⟨b, l, hop, -, htake⟩ := List.forall₂_cons_left_iff.mp hlay
    obtain ⟨s, hs, rfl⟩ := List.mem_map.mp (htake.symm ▸ List.mem_cons_self : b ∈ _)
    obtain ⟨c, s', hc, hnul⟩ := hg s (List.mem_of_mem_take hs)
    obtain ⟨z', rfl⟩ := hop
    rw [hc] at hlay ⊢
    rw [if_neg (show deref (c :: s' ++ NUL :: z') ≠ NUL from hnul)]
    exact hlay
  · exact hlay

/-- **The operands of a plain line**, at most 8 of them. -/
theorem holds_splitOperands {f : Ptr → Ptr} (hf : ∀ s p, Piece s → Holds p s → Holds (f p) s)
    {text : List Char} {rest : Ptr} (hrest : Holds rest text) (htext : ∀ c ∈ text, isPlain c = true)
    (hpieces : ∀ s ∈ commaPieces false text, Piece s)
    (hlen : (commaPieces false text).length ≤ 8) :
    List.Forall₂ Holds (splitOperands f rest) (commaPieces false text) := by
  have hpadded : List.Forall₂ Padded (commaPieces false text) (commaPieces false text) :=
    List.forall₂_same.mpr fun s _ => Padded.refl s
  have h := splitOperands_padded (g := id) hrest
    (fun c hc => (harmless_of_isPlain (htext c hc)).1.nul) hpadded
    (fun s hs => ⟨(hpieces s hs).trimmed, fun p hp => hf s p (hpieces s hs) hp⟩)
    (fun s hs => by
      obtain ⟨c, s', rfl⟩ := List.exists_cons_of_ne_nil (hpieces s hs).ne
      exact ⟨c, s', rfl, (hpieces _ hs).trimmed.no_nul c List.mem_cons_self⟩)
  rw [List.map_id, List.take_of_length_le hlen] at h
  exact h

/-! ## Values -/

/-- A token of letters and digits, with a first character that is none of the operators. -/
structure Token (tok : List Char) (c : Char) : Prop where
  head : tok.head? = some c
  alnum : ∀ d ∈ tok, d.isAlphanum = true
  no_not : c ≠ 'N'

namespace Token

variable {tok : List Char} {c : Char} (h : Token tok c)

include h

theorem head_ne {d : Char} (hd : d.isAlphanum = false) : c ≠ d := by
  rintro rfl
  have hc := h.alnum c (List.mem_of_head? h.head)
  rw [hd] at hc
  cases hc

theorem skip (z : Ptr) (ok : Bool) (refs : List Name) :
    (Scan.mk (tok ++ NUL :: z) ok refs).skip = ⟨tok ++ NUL :: z, ok, refs⟩ := by
  obtain ⟨s, rfl⟩ := List.head?_eq_some_iff.mp h.head
  have hspace := (harmless_of_isPlain (c := c) (by
    rw [isPlain, h.alnum c List.mem_cons_self]
    rfl)).2
  rw [Scan.skip]
  dsimp only
  rw [List.cons_append, List.dropWhile_cons_of_neg]
  rw [isBlank_of_isSpace hspace]
  exact Bool.false_ne_true

theorem peek (z : Ptr) (ok : Bool) (refs : List Name) :
    (Scan.mk (tok ++ NUL :: z) ok refs).peek = c := by
  obtain ⟨s, rfl⟩ := List.head?_eq_some_iff.mp h.head
  rfl

theorem takeWhile_append {p : Char → Bool} (hp : ∀ d, d.isAlphanum = true → p d = true)
    (hnul : p NUL = false) (z : Ptr) : (tok ++ NUL :: z).takeWhile p = tok := by
  rw [List.takeWhile_append_of_pos fun d hd => hp d (h.alnum d hd),
    List.takeWhile_cons_of_neg (by rw [hnul]; exact Bool.false_ne_true), List.append_nil]

/-- A token is an operand if it is a factor. -/
theorem evaluate_eq {env : Env} {z : Ptr} {v : ℤ} {ok : Bool} {refs : List Name}
    (hfactor : ∀ n, evalFactor env (n + 1) ⟨tok ++ NUL :: z, true, []⟩ =
      some (v, ⟨NUL :: z, ok, refs⟩)) :
    evaluate env (tok ++ NUL :: z) = (v, ⟨NUL :: z, ok, refs⟩) := by
  have hterm (n : ℕ) : evalTerm env (n + 2) ⟨tok ++ NUL :: z, true, []⟩ =
      some (v, ⟨NUL :: z, ok, refs⟩) := by
    have hnot : startsWith (tok ++ NUL :: z) "NOT" = false := by
      obtain ⟨s, rfl⟩ := List.head?_eq_some_iff.mp h.head
      refine beq_eq_false_iff_ne.mpr fun heq => h.no_not ?_
      have hN : some c = some 'N' := congrArg (fun l : List Char => l[0]?) heq
      exact Option.some.inj hN
    rw [evalTerm, h.skip, h.peek]
    dsimp only
    rw [hnot, Bool.false_and, if_neg Bool.false_ne_true, if_neg (h.head_ne (by decide)),
      if_neg (h.head_ne (by decide)), hfactor]
  have hmore (n : ℕ) : evalMore env (n + 1) v ⟨NUL :: z, ok, refs⟩ =
      some (v, ⟨NUL :: z, ok, refs⟩) := rfl
  obtain ⟨n, hn⟩ : ∃ n, 3 * (tok ++ NUL :: z).length + 3 = n + 3 := ⟨_, rfl⟩
  have hexpr := evalExpr_evaluate env (tok ++ NUL :: z)
  rw [hn, evalExpr, hterm] at hexpr
  have hvalue : evalMore env (n + 2) v ⟨NUL :: z, ok, refs⟩ = _ := hexpr
  rw [hmore] at hvalue
  exact (Option.some.inj hvalue).symm

/-- **A constant.** -/
theorem evaluate_number (hc : c.isDigit = true) (hlen : tok.length ≤ 63) (env : Env) (z : Ptr) :
    evaluate env (tok ++ NUL :: z) = (number tok, ⟨NUL :: z, true, []⟩) := by
  refine h.evaluate_eq fun n => ?_
  rw [evalFactor, h.skip, h.peek]
  dsimp only
  rw [if_neg (h.head_ne (by decide)), if_neg (h.head_ne (by decide)),
    if_neg (h.head_ne (by decide)), if_pos hc,
    h.takeWhile_append (fun _ hd => hd) (by decide), List.take_of_length_le hlen, Scan.drop]
  dsimp only
  rw [List.drop_left]

/-- **A symbol** without a value. -/
theorem evaluate_name (hc : c.isAlpha = true) (stmtPc : ℤ) (z : Ptr) :
    (evaluate ⟨[], stmtPc⟩ (tok ++ NUL :: z)).2.ok = false := by
  have hdigit : c.isDigit = false := by
    cases hd : c.isDigit with
    | false => rfl
    | true =>
      have hletter := toNat_of_isAlpha hc
      have hnumber := toNat_of_isDigit hd
      omega
  have hname : isNameStart c = true := by
    rw [isNameStart, hc]
    rfl
  have heq : evaluate ⟨[], stmtPc⟩ (tok ++ NUL :: z) =
      (0, ⟨NUL :: z, false, [(tok.take 31).map Char.toUpper]⟩) := h.evaluate_eq fun n => by
      rw [evalFactor, h.skip, h.peek]
      dsimp only
      rw [if_neg (h.head_ne (by decide)), if_neg (h.head_ne (by decide)),
        if_neg (h.head_ne (by decide)), hdigit, if_neg Bool.false_ne_true, if_pos hname, evalSymbol]
      dsimp only
      rw [h.takeWhile_append (fun d hd => by rw [isNameChar, hd]; rfl) (by decide), Scan.drop]
      dsimp only
      rw [List.drop_left]
      rfl
  rw [heq]

end Token

end Umk80
