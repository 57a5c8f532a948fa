import Umk80.Asm.Effects
import Umk80.Asm.Plain

/-!
# Source lines

A line as a programmer writes it: perhaps a label with a colon, a word, an operand field, and
perhaps a comment, with blanks between them. In the field every character literal is complete, and
a colon stands in a literal only. Such a line is taken apart as it was put together, with one
exception. The colon of a label is looked for without regard to literals, so that in a line without
a label the first colon of the field ends a label that nobody wrote.

## Main definitions

* `Quoted` — a text with complete character literals
* `SourceLine` — the parts of a line, and what they may be

## Main results

* `SourceLine.parseLine_text` — the label and the statement of a source line
* `SourceLine.parseLine_colon` — what becomes of a line with a colon but no label
-/

namespace Umk80

open CString

/-! ## Character literals -/

/-- A text with complete character literals, and none of the characters `bad` outside of them. -/
inductive Quoted (bad : List Char) : List Char → Prop
  | nil : Quoted bad []
  | plain {c : Char} {s : List Char} (hc : c ∉ bad) (hs : Quoted bad s) : Quoted bad (c :: s)
  | literal {c : Char} {s : List Char} (hquote : c ≠ QUOTE) (hnul : c ≠ NUL) (hs : Quoted bad s) :
    Quoted bad (QUOTE :: c :: QUOTE :: s)

/-- What a comment or the end of the line would be. -/
def lineMarks : List Char := [NUL, QUOTE, ';']

/-- What the operand field is free of. -/
def fieldMarks : List Char := ':' :: lineMarks

/-- What an operand is free of. -/
def operandMarks : List Char := ',' :: fieldMarks

namespace Quoted

variable {bad bad' s t : List Char}

theorem mono (h : Quoted bad s) (hsub : bad' ⊆ bad) : Quoted bad' s := by
  induction h with
  | nil => exact .nil
  | plain hc _ ih => exact .plain (fun hmem => hc (hsub hmem)) ih
  | literal hquote hnul _ ih => exact .literal hquote hnul ih

theorem append (h : Quoted bad s) (h' : Quoted bad t) : Quoted bad (s ++ t) := by
  induction h with
  | nil => exact h'
  | plain hc _ ih => exact .plain hc ih
  | literal hquote hnul _ ih => exact .literal hquote hnul ih

theorem of_forall (h : ∀ c ∈ s, c ∉ bad) : Quoted bad s := by
  induction s with
  | nil => exact .nil
  | cons c s ih =>
    exact .plain (h c List.mem_cons_self) (ih fun d hd => h d (List.mem_cons_of_mem _ hd))

/-- Characters of a kind that no mark is of. -/
theorem of_kind {p : Char → Bool} (hp : ∀ c ∈ bad, p c = false) (h : ∀ c ∈ s, p c = true) :
    Quoted bad s :=
  of_forall fun c hc hmem => by
    have hno := hp c hmem
    rw [h c hc] at hno
    exact Bool.true_eq_false.mp hno

theorem ne_nul (h : Quoted bad s) (hbad : lineMarks ⊆ bad) : ∀ c ∈ s, c ≠ NUL := by
  induction h with
  | nil => exact fun c hc => absurd hc List.not_mem_nil
  | plain hc _ ih =>
    intro d hd
    rcases List.mem_cons.mp hd with rfl | hd
    · rintro rfl
      exact hc (hbad (by simp [lineMarks]))
    · exact ih d hd
  | literal _ hnul _ ih =>
    intro d hd
    simp only [List.mem_cons] at hd
    rcases hd with rfl | rfl | rfl | hd
    · decide
    · exact hnul
    · decide
    · exact ih d hd

/-- A comment does not start in a character literal. -/
theorem stripComment (h : Quoted bad s) (hbad : lineMarks ⊆ bad) (p : Ptr) :
    stripComment false (s ++ p) = s ++ Umk80.stripComment false p := by
  induction h with
  | nil => rfl
  | @plain c s hc _ ih =>
    have hne (d : Char) (hd : d ∈ lineMarks) : c ≠ d := by
      rintro rfl
      exact hc (hbad hd)
    rw [List.cons_append, Umk80.stripComment, if_neg (hne NUL (by simp [lineMarks])),
      if_neg (hne QUOTE (by simp [lineMarks])),
      if_neg fun hand => hne ';' (by simp [lineMarks]) hand.1, ih]
    rfl
  | literal hquote hnul _ ih =>
    simp only [List.cons_append]
    rw [Umk80.stripComment, if_neg (by decide), if_pos rfl, Umk80.stripComment, if_neg hnul,
      if_neg hquote, if_neg fun hand => Bool.false_ne_true hand.2.symm, Umk80.stripComment,
      if_neg (by decide), if_pos rfl]
    exact congrArg (fun l => QUOTE :: _ :: QUOTE :: l) ih

/-- Nor does an operand end in one. -/
theorem commaPieces (h : Quoted operandMarks s) (t : List Char) :
    commaPieces false (s ++ t) = (Umk80.commaPieces false t).modifyHead (s ++ ·) := by
  have hhead (l : List (List Char)) (f g : List Char → List Char) :
      (l.modifyHead f).modifyHead g = l.modifyHead (g ∘ f) := List.modifyHead_modifyHead
  induction h with
  | nil => exact (congrFun List.modifyHead_id _).symm
  | @plain c s hc _ ih =>
    have hne (d : Char) (hd : d ∈ operandMarks) : c ≠ d := by
      rintro rfl
      exact hc hd
    rw [List.cons_append, Umk80.commaPieces, if_neg (hne QUOTE (by decide)),
      if_neg fun hand => hne ',' (by decide) hand.1, ih, hhead]
    rfl
  | @literal c s hquote hnul _ ih =>
    simp only [List.cons_append]
    rw [Umk80.commaPieces, if_pos rfl, if_neg (by decide), Umk80.commaPieces, if_neg hquote,
      if_neg (by simp), Umk80.commaPieces, if_pos rfl, if_neg (by decide)]
    simp only [Bool.not_false, Bool.not_true]
    rw [ih, hhead, hhead, hhead]
    rfl

/-- A colon in the field is a character literal. -/
theorem exists_colon (h : Quoted bad s) (hbad : fieldMarks ⊆ bad) (hmem : ':' ∈ s) :
    ∃ u w, s = u ++ ':' :: QUOTE :: w ∧ ':' ∉ u := by
  induction h with
  | nil => exact absurd hmem List.not_mem_nil
  | @plain c s hc _ ih =>
    have hne : ':' ≠ c := by
      rintro rfl
      exact hc (hbad (by decide))
    obtain ⟨u, w, rfl, hu⟩ := ih ((List.mem_cons.mp hmem).resolve_left hne)
    exact ⟨c :: u, w, rfl, fun hmem => hu ((List.mem_cons.mp hmem).resolve_left hne)⟩
  | @literal c s hquote hnul _ ih =>
    have hne : ':' ≠ QUOTE := by decide
    by_cases hc : ':' = c
    · subst hc
      exact ⟨[QUOTE], s, rfl, fun hmem => hne (List.mem_singleton.mp hmem)⟩
    · simp only [List.mem_cons, hne, hc, false_or] at hmem
      obtain ⟨u, w, rfl, hu⟩ := ih hmem
      refine ⟨QUOTE :: c :: QUOTE :: u, w, rfl, ?_⟩
      simp only [List.mem_cons, hne, hc, false_or]
      exact hu

end Quoted

/-- No mnemonic starts with a quote. -/
theorem parseStatement_quote {w : List Char} {p : Ptr} (hp : Holds p (QUOTE :: w)) :
    ∃ mnemonic, parseStatement p = .unknown mnemonic ∨
      w ≠ [] ∧ ∃ expr, parseStatement p = .equ mnemonic expr := by
  obtain ⟨z, rfl⟩ := hp
  have hword : ∃ v, (cstr (QUOTE :: w ++ NUL :: z)).takeWhile (fun c => !isSpace c) =
      QUOTE :: v := by
    refine ⟨(cstr (w ++ NUL :: z)).takeWhile fun c => !isSpace c, ?_⟩
    rw [List.cons_append, cstr, List.takeWhile_cons_of_pos (by decide),
      List.takeWhile_cons_of_pos (by decide)]
    rfl
  have hname (v d : Name) (hd : d.head? ≠ some QUOTE) : (QUOTE :: v).map Char.toUpper ≠ d := by
    rintro rfl
    exact hd (congrArg some (show QUOTE.toUpper = QUOTE by decide))
  have hmnem (v : Name) : MNEM.find? (·.name.toList == (QUOTE :: v).map Char.toUpper) = none := by
    have hall : ∀ m ∈ MNEM, m.name.toList.head? ≠ some QUOTE := by decide +kernel
    refine List.find?_eq_none.mpr fun m hm heq => ?_
    exact hname v _ (hall m hm) (beq_iff_eq.mp heq).symm
  have hstmt (v : Name) (rest : Ptr) :
      statementOf ((QUOTE :: v).map Char.toUpper) rest = .unknown ((QUOTE :: v).map Char.toUpper) ∨
        startsWith rest "EQU" = true ∧
          ∃ expr, statementOf ((QUOTE :: v).map Char.toUpper) rest =
            .equ ((QUOTE :: v).map Char.toUpper) expr := by
    rw [statementOf]
    by_cases hequ : (startsWith rest "EQU" && isBlank (deref (rest.drop 3))) = true
    · exact Or.inr ⟨(Bool.and_eq_true _ _ ▸ hequ).1, _, if_pos hequ⟩
    · left
      rw [if_neg hequ, if_neg (hname v _ (by decide)), if_neg (hname v _ (by decide)),
        if_neg (hname v _ (by decide)), if_neg (hname v _ (by decide)),
        if_neg (hname v _ (by decide)), hmnem v]
  obtain ⟨v, hv⟩ := hword
  refine ⟨(QUOTE :: v).map Char.toUpper, ?_⟩
  rw [parseStatement, hv]
  rcases hstmt v _ with hunknown | ⟨hequ, hexpr⟩
  · exact Or.inl hunknown
  · refine Or.inr ⟨?_, hexpr⟩
    rintro rfl
    obtain rfl : v = [] := List.cons.inj hv |>.2.symm
    exact Bool.false_ne_true hequ

/-! ## Lines -/

/-- A name, or a mnemonic. -/
structure IsName (s : List Char) : Prop where
  ne : s ≠ []
  chars : ∀ c ∈ s, isNameChar c = true

/-- The parts of a line. A label has blanks behind its colon. -/
structure LineParts where
  lead : List Char
  label : Option (List Char × List Char)
  word : List Char
  gap : List Char
  field : List Char
  trail : List Char
  comment : Option (List Char)

namespace LineParts

variable (l : LineParts)

def labelText : List Char :=
  match l.label with
  | none => []
  | some (name, blanks) => name ++ ':' :: blanks

def statement : List Char := l.word ++ (l.gap ++ l.field)

def commentText : List Char :=
  match l.comment with
  | none => []
  | some text => ';' :: text

def text : List Char :=
  l.lead ++ (l.labelText ++ l.statement ++ l.trail) ++ l.commentText

end LineParts

/-- **A source line** that fits into 511 characters. -/
structure SourceLine extends LineParts where
  lead_blank : ∀ c ∈ lead, isBlank c = true
  label_name : ∀ x ∈ label, IsName x.1 ∧ ∀ c ∈ x.2, isBlank c = true
  word_name : IsName word
  gap_ne : gap ≠ []
  gap_blank : ∀ c ∈ gap, isBlank c = true
  field_trimmed : Trimmed field
  field_quoted : Quoted fieldMarks field
  trail_trailing : ∀ c ∈ trail, isTrailing c = true
  comment_text : ∀ t ∈ comment, ∀ c ∈ t, c ≠ NUL
  length_text : toLineParts.text.length ≤ 511

/-! The parts that are alike on most lines. -/

theorem blank_nil : ∀ c ∈ ([] : List Char), isBlank c = true := List.forall_mem_nil _

theorem blank_space : ∀ c ∈ [' '], isBlank c = true := by decide

theorem space_ne_nil : [' '] ≠ [] := by decide

theorem trailing_space : ∀ c ∈ [' '], isTrailing c = true := by decide

theorem trailing_newline : ∀ c ∈ ['\n'], isTrailing c = true := by decide

theorem no_label : ∀ x ∈ (none : Option (List Char × List Char)),
    IsName x.1 ∧ ∀ c ∈ x.2, isBlank c = true :=
  fun _ h => absurd h (Option.not_mem_none _)

theorem no_comment : ∀ t ∈ (none : Option (List Char)), ∀ c ∈ t, c ≠ NUL :=
  fun _ h => absurd h (Option.not_mem_none _)

theorem harmless_of_isNameChar {c : Char} (h : isNameChar c = true) :
    Harmless c ∧ isSpace c = false := by
  rw [isNameChar, Bool.or_assoc] at h
  rcases Bool.or_eq_true _ _ ▸ h with halnum | hmark
  · exact harmless_of_isPlain (by rw [isPlain, halnum]; rfl)
  · have hc : c = '_' ∨ c = '?' := by simpa using hmark
    rcases hc with rfl | rfl
    · exact ⟨⟨by decide, by decide, by decide, by decide, by decide⟩, by decide⟩
    · exact ⟨⟨by decide, by decide, by decide, by decide, by decide⟩, by decide⟩

theorem IsName.quoted {s : List Char} (h : IsName s) : Quoted lineMarks s :=
  .of_forall fun c hc hmem => by
    have hharm := (harmless_of_isNameChar (h.chars c hc)).1
    simp only [lineMarks, List.mem_cons, List.not_mem_nil, or_false] at hmem
    rcases hmem with rfl | rfl | rfl
    · exact hharm.nul rfl
    · exact hharm.quote rfl
    · exact hharm.semicolon rfl

/-- The first character of a name. -/
theorem IsName.exists_cons {s : List Char} (h : IsName s) :
    ∃ c s', s = c :: s' ∧ Harmless c ∧ isSpace c = false := by
  obtain ⟨c, s', rfl⟩ := List.exists_cons_of_ne_nil h.ne
  exact ⟨c, s', rfl, harmless_of_isNameChar (h.chars c List.mem_cons_self)⟩

theorem IsName.colon_notMem {s : List Char} (h : IsName s) : ':' ∉ s := fun hmem =>
  (harmless_of_isNameChar (h.chars _ hmem)).1.colon rfl

theorem quoted_of_isTrailing {s : List Char} (h : ∀ c ∈ s, isTrailing c = true) :
    Quoted lineMarks s :=
  .of_kind (by decide) h

theorem isTrailing_of_isBlank {c : Char} (h : isBlank c = true) : isTrailing c = true := by
  rw [isTrailing, h]
  rfl

/-- Blanks are no colons. -/
theorem colon_notMem_of_isBlank {s : List Char} (h : ∀ c ∈ s, isBlank c = true) : ':' ∉ s :=
  fun hmem => absurd (h _ hmem) (by decide)

namespace SourceLine

variable (l : SourceLine)

theorem quoted_labelText : Quoted lineMarks l.labelText := by
  unfold LineParts.labelText
  split
  · exact .nil
  · rename_i name blanks h
    obtain ⟨hname, hblanks⟩ := l.label_name _ h
    have hquoted := quoted_of_isTrailing fun c hc => isTrailing_of_isBlank (hblanks c hc)
    exact hname.quoted.append (.plain (by decide) hquoted)

theorem quoted_statement : Quoted lineMarks l.statement := by
  have hgap := quoted_of_isTrailing fun c hc => isTrailing_of_isBlank (l.gap_blank c hc)
  exact l.word_name.quoted.append (hgap.append (l.field_quoted.mono (by decide)))

theorem trimmed_statement : Trimmed l.statement where
  ne := List.append_ne_nil_of_left_ne_nil l.word_name.ne _
  no_nul := l.quoted_statement.ne_nul (List.Subset.refl _)
  head := by
    obtain ⟨c, s, hword, -, hspace⟩ := l.word_name.exists_cons
    intro d hd
    rw [LineParts.statement, hword] at hd
    obtain rfl : c = d := Option.some.inj hd
    exact isBlank_of_isSpace hspace
  last := by
    intro c hc
    rw [LineParts.statement, ← List.append_assoc,
      List.getLast?_append_of_ne_nil _ l.field_trimmed.ne] at hc
    exact l.field_trimmed.last c hc

theorem trimmed_core : Trimmed (l.labelText ++ l.statement) where
  ne := List.append_ne_nil_of_right_ne_nil _ l.trimmed_statement.ne
  no_nul := (l.quoted_labelText.append l.quoted_statement).ne_nul (List.Subset.refl _)
  head := by
    unfold LineParts.labelText
    split
    · exact l.trimmed_statement.head
    · rename_i name blanks h
      obtain ⟨c, s, hname, -, hspace⟩ := (l.label_name _ h).1.exists_cons
      intro d hd
      dsimp only at hname
      rw [hname] at hd
      obtain rfl : c = d := Option.some.inj hd
      exact isBlank_of_isSpace hspace
  last := by
    rw [List.getLast?_append_of_ne_nil _ l.trimmed_statement.ne]
    exact l.trimmed_statement.last

/-- What is left of the line without its comment and the blanks around it. -/
theorem holds_core :
    Holds (trim (stripComment false (copyLine l.text))) (l.labelText ++ l.statement) := by
  have hlead := quoted_of_isTrailing fun c hc => isTrailing_of_isBlank (l.lead_blank c hc)
  have hfront : Quoted lineMarks (l.lead ++ (l.labelText ++ l.statement ++ l.trail)) :=
    hlead.append ((l.quoted_labelText.append l.quoted_statement).append
      (quoted_of_isTrailing l.trail_trailing))
  have hcomment : ∀ c ∈ l.commentText, c ≠ NUL := by
    unfold LineParts.commentText
    split
    · exact fun c hc => absurd hc List.not_mem_nil
    · rename_i t ht
      intro c hc
      rcases List.mem_cons.mp hc with rfl | hc
      · decide
      · exact l.comment_text t ht c hc
  have hnul : ∀ c ∈ l.text, c ≠ NUL := fun c hc =>
    (List.mem_append.mp hc).elim (hfront.ne_nul (List.Subset.refl _) c) (hcomment c)
  have hstrip (z : Ptr) : ∃ z', stripComment false (l.commentText ++ NUL :: z) = NUL :: z' := by
    unfold LineParts.commentText
    split
    · exact ⟨z, rfl⟩
    · rename_i t _
      exact ⟨t ++ NUL :: z, rfl⟩
  obtain ⟨z, hcopy⟩ := holds_copyLine hnul l.length_text
  obtain ⟨z', hz'⟩ := hstrip z
  rw [hcopy, LineParts.text, List.append_assoc, hfront.stripComment (List.Subset.refl _), hz']
  exact l.trimmed_core.holds_trim ⟨l.lead, l.trail, rfl, l.lead_blank, l.trail_trailing⟩ z'

/-- The statement, and a pointer to its operand field. -/
theorem parseStatement_holds {p : Ptr} (hp : Holds p l.statement) : ∃ rest, Holds rest l.field ∧
    parseStatement p = statementOf (l.word.map Char.toUpper) rest := by
  obtain ⟨z, rfl⟩ := hp
  have hword (c : Char) (hc : c ∈ l.word) : c ≠ NUL ∧ isSpace c = false :=
    (harmless_of_isNameChar (l.word_name.chars c hc)).imp_left Harmless.nul
  exact parseStatement_append hword l.gap_ne l.gap_blank l.field_trimmed z

theorem parseRest_statement {p : Ptr} (hp : Holds p l.statement) : ∃ rest, Holds rest l.field ∧
    parseRest p = some (statementOf (l.word.map Char.toUpper) rest) := by
  obtain ⟨rest, hrest, hstmt⟩ := l.parseStatement_holds hp
  obtain ⟨z, rfl⟩ := hp
  obtain ⟨c, s, hword, hharm, -⟩ := l.word_name.exists_cons
  have hderef : deref (l.statement ++ NUL :: z) = c := by
    rw [LineParts.statement, hword]
    rfl
  refine ⟨rest, hrest, ?_⟩
  rw [parseRest, hderef, if_neg hharm.nul, hstmt]

/-- The label that a line defines. -/
def labelName : Option Name := l.label.map fun x => (x.1.take 31).map Char.toUpper

/-- The first character that is left of the line. -/
theorem deref_core (z : Ptr) : ∃ c, deref (l.labelText ++ l.statement ++ NUL :: z) = c ∧
    Harmless c := by
  have hword : ∃ c, deref (l.statement ++ NUL :: z) = c ∧ Harmless c := by
    obtain ⟨c, s, hword, hharm, -⟩ := l.word_name.exists_cons
    refine ⟨c, ?_, hharm⟩
    rw [LineParts.statement, hword]
    rfl
  unfold LineParts.labelText
  split
  · exact hword
  · rename_i name blanks h
    obtain ⟨c, s, hname, hharm, -⟩ := (l.label_name _ h).1.exists_cons
    refine ⟨c, ?_, hharm⟩
    dsimp only at hname
    rw [hname]
    rfl

/-- The colon that ends the label, and what is behind it. -/
theorem parseLine_of_colon {name rest : List Char} (hname : ':' ∉ name)
    (hcore : l.labelText ++ l.statement = name ++ ':' :: rest) : ∃ z,
      parseLine l.text = ⟨some ((name.take 31).map Char.toUpper),
        parseRest (trim (rest ++ NUL :: z))⟩ := by
  obtain ⟨z, hz⟩ := l.holds_core
  obtain ⟨c, hderef, hharm⟩ := l.deref_core z
  have hnul := l.trimmed_core.no_nul
  refine ⟨z, ?_⟩
  rw [parseLine, hz]
  dsimp only
  rw [hderef, if_neg hharm.nul, if_neg hharm.dollar, cstr_append hnul]
  rw [hcore, if_pos (by simp), takeWhile_ne_append hname, List.append_assoc, ← List.drop_drop,
    List.drop_left]
  rfl

/-- **A source line** with a label, or without a colon in its field, is taken apart as it was put
together. -/
theorem parseLine_text (h : l.label = none → ':' ∉ l.field) : ∃ rest, Holds rest l.field ∧
    parseLine l.text =
      ⟨l.labelName, some (statementOf (l.word.map Char.toUpper) rest)⟩ := by
  unfold labelName
  cases hlabel : l.label with
  | none =>
    obtain ⟨z, hz⟩ := l.holds_core
    obtain ⟨c, hderef, hharm⟩ := l.deref_core z
    have htext : l.labelText = [] := by rw [LineParts.labelText, hlabel]
    have hcolon : ':' ∉ l.statement := by
      simp only [LineParts.statement, List.mem_append, not_or]
      exact ⟨l.word_name.colon_notMem, colon_notMem_of_isBlank l.gap_blank, h hlabel⟩
    rw [htext, List.nil_append] at hz hderef
    obtain ⟨rest, hrest, hstmt⟩ := l.parseRest_statement ⟨z, hz⟩
    refine ⟨rest, hrest, ?_⟩
    rw [parseLine]
    dsimp only
    rw [hstmt, hz, hderef, if_neg hharm.nul, if_neg hharm.dollar,
      cstr_append l.trimmed_statement.no_nul, if_neg hcolon]
    rfl
  | some x =>
    obtain ⟨name, blanks⟩ := x
    obtain ⟨hname, hblanks⟩ := l.label_name _ hlabel
    have hcore : l.labelText ++ l.statement = name ++ ':' :: (blanks ++ l.statement) := by
      rw [LineParts.labelText, hlabel]
      simp
    obtain ⟨z, hline⟩ := l.parseLine_of_colon hname.colon_notMem hcore
    have hpadded : Padded (blanks ++ l.statement) l.statement :=
      ⟨blanks, [], by simp, hblanks, by simp⟩
    have hstmt := l.trimmed_statement.holds_trim hpadded z
    obtain ⟨rest, hrest, hparse⟩ := l.parseRest_statement hstmt
    refine ⟨rest, hrest, ?_⟩
    rw [hline, hparse]
    rfl

/-- **A colon in a literal** ends a label if there is no other. What is left of the line starts with
the quote behind it. -/
theorem parseLine_colon (hlabel : l.label = none) (hcolon : ':' ∈ l.field) :
    ∃ name p u w, Holds p (QUOTE :: w) ∧ l.field = u ++ ':' :: QUOTE :: w ∧ ':' ∉ u ∧
      parseLine l.text = ⟨some name, some (parseStatement p)⟩ := by
  obtain ⟨u, w, hfield, hu⟩ := l.field_quoted.exists_colon (List.Subset.refl _) hcolon
  have hcore : l.labelText ++ l.statement =
      (l.word ++ (l.gap ++ u)) ++ ':' :: QUOTE :: w := by
    rw [LineParts.labelText, hlabel, LineParts.statement, hfield]
    simp
  have hname : ':' ∉ l.word ++ (l.gap ++ u) := by
    simp only [List.mem_append, not_or]
    exact ⟨l.word_name.colon_notMem, colon_notMem_of_isBlank l.gap_blank, hu⟩
  have htrimmed : Trimmed (QUOTE :: w) := by
    have hf := l.field_trimmed
    rw [hfield] at hf
    refine ⟨List.cons_ne_nil _ _, fun c hc => hf.no_nul c ?_, ?_, fun c hc => hf.last c ?_⟩
    · exact List.mem_append_right _ (List.mem_cons_of_mem _ hc)
    · intro c hc
      obtain rfl : QUOTE = c := Option.some.inj hc
      decide
    · rw [List.getLast?_append_of_ne_nil _ (List.cons_ne_nil _ _), List.getLast?_cons_cons]
      exact hc
  obtain ⟨z, hline⟩ := l.parseLine_of_colon hname hcore
  obtain ⟨z', hz'⟩ := htrimmed.holds_trim (Padded.refl _) z
  have hnul : deref (QUOTE :: w ++ NUL :: z') ≠ NUL := show QUOTE ≠ NUL by decide
  rw [hz', parseRest, if_neg hnul] at hline
  exact ⟨_, _, u, w, ⟨z', rfl⟩, hfield, hu, hline⟩

end SourceLine

end Umk80
