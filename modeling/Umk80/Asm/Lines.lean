import Mathlib.Data.List.TakeWhile
import Umk80.Asm.Assembler

/-!
# Reading lines

Both tools read their input with `fgets` into a buffer of 512 characters, one call after the other.
A line that fits is read whole, wherever it stands in the text: a call ends at a newline in any
case, so that lines that are too long spoil only themselves.

## Main definitions

* `IsLine` — a line, newline included, that one call reads
* `allLines` — what the calls read until the end of the text
* `Splits` — a line in a text, with the text before and behind it
* `fileLines`, `statementLines` — the lines of a file, and what `assemble_line` is called with

## Main results

* `readLines_flatten` — lines put together are read back
* `allLines_of_splits` — a line in a text is read by a call of its own
* `statementLines_eq_iff` — when every line of a source is a statement
-/

namespace Umk80

open CString

/-! ## Lines that fit -/

/-- A line that `fgets` reads whole. -/
def IsLine (l : List Char) : Prop := ∃ body, l = body ++ ['\n'] ∧ '\n' ∉ body ∧ body.length < 511

theorem IsLine.fitsLine {l : List Char} (h : IsLine l) : FitsLine MAX_LINE l := by
  obtain ⟨body, hl, hbody, hlen⟩ := h
  exact ⟨body, hl, hbody, Nat.succ_lt_succ hlen⟩

theorem fgets_append {l : List Char} (h : IsLine l) (rest : List Char) : fgets (l ++ rest) = l :=
  getLine_append h.fitsLine rest

theorem readLines_eq_getLines (n : ℕ) (text : List Char) :
    readLines n text = getLines MAX_LINE n text := by
  induction n generalizing text with
  | zero => rw [readLines, getLines]
  | succ n ih =>
    cases text with
    | nil => rfl
    | cons c text =>
      change fgets (c :: text) :: readLines n _ = getLine MAX_LINE (c :: text) :: getLines _ n _
      rw [ih]
      rfl

/-- **The lines of a text** are read in order, up to the limit. -/
theorem readLines_flatten {lines : List (List Char)} (h : ∀ l ∈ lines, IsLine l) (n : ℕ) :
    readLines n lines.flatten = lines.take n := by
  rw [readLines_eq_getLines, getLines_flatten fun l hl => (h l hl).fitsLine]

/-! ## Until the end of the text -/

/-- `while (fgets (line, 512, f))`. -/
def allLines (text : List Char) : List (List Char) := readLines text.length text

/-- How many characters a call of `fgets` reads of a text that has not ended. -/
def fgetsLength (text : List Char) : ℕ := min 511 ((text.takeWhile (· != '\n')).length + 1)

theorem fgets_eq_take (text : List Char) : fgets text = text.take (fgetsLength text) := by
  have htake : (text.take (MAX_LINE - 1)).takeWhile (· != '\n') =
      (text.takeWhile (· != '\n')).take (MAX_LINE - 1) := List.take_takeWhile.symm
  rw [fgets, htake, List.take_take, List.length_take, fgetsLength, MAX_LINE]
  congr 1
  omega

theorem fgetsLength_pos (text : List Char) : 0 < fgetsLength text := by
  unfold fgetsLength
  omega

theorem length_drop_fgets {text : List Char} (h : text ≠ []) :
    (text.drop (fgets text).length).length < text.length := by
  have hpos := fgetsLength_pos text
  have htext := List.length_pos_of_ne_nil h
  rw [fgets_eq_take, List.length_drop, List.length_take]
  omega

/-- As many calls as there are characters are enough. -/
theorem readLines_of_le {n m : ℕ} {text : List Char} (hn : text.length ≤ n)
    (hm : text.length ≤ m) : readLines n text = readLines m text := by
  induction n generalizing text m with
  | zero =>
    obtain rfl := List.eq_nil_of_length_eq_zero (Nat.le_zero.mp hn)
    cases m
    all_goals rfl
  | succ n ih =>
    by_cases htext : text = []
    · subst htext
      cases m
      all_goals rfl
    · have hdrop := length_drop_fgets htext
      have hpos := List.length_pos_of_ne_nil htext
      obtain ⟨m, rfl⟩ := Nat.exists_eq_succ_of_ne_zero (show m ≠ 0 by omega)
      rw [readLines, readLines, ih (by omega) (show _ ≤ m by omega)]
      all_goals exact htext

theorem allLines_of_ne_nil {text : List Char} (h : text ≠ []) :
    allLines text = fgets text :: allLines (text.drop (fgets text).length) := by
  have hdrop := length_drop_fgets h
  obtain ⟨n, hn⟩ := Nat.exists_eq_succ_of_ne_zero (List.length_pos_of_ne_nil h).ne'
  rw [allLines, hn, readLines]
  · rw [allLines, readLines_of_le (show _ ≤ n by omega) (Nat.le_refl _)]
  · exact h

/-! ## A line in a text -/

/-- A text that ends with a line. -/
def EndsLine (text : List Char) : Prop := ∀ c ∈ text.getLast?, c = '\n'

theorem endsLine_nil : EndsLine [] := by
  intro c hc
  cases hc

/-- A call that starts in a text that ends with a line stays within it. -/
theorem fgetsLength_append {text : List Char} (h : EndsLine text) (htext : text ≠ [])
    (rest : List Char) : fgetsLength (text ++ rest) = fgetsLength text ∧
      fgetsLength text ≤ text.length := by
  have hlast : text.getLast htext = '\n' := h _ (List.getLast?_eq_getLast_of_ne_nil htext)
  have hmem : '\n' ∈ text := hlast ▸ List.getLast_mem htext
  have hlt : (text.takeWhile (· != '\n')).length < text.length := by
    refine Nat.lt_of_le_of_ne (List.takeWhile_prefix _).length_le fun heq => ?_
    have hall := (List.takeWhile_prefix (p := (· != '\n')) (l := text)).eq_of_length heq
    exact absurd (List.takeWhile_eq_self_iff.mp hall _ hmem) (by decide)
  have happend : (text ++ rest).takeWhile (· != '\n') = text.takeWhile (· != '\n') := by
    rw [List.takeWhile_append, if_neg hlt.ne]
  refine ⟨by rw [fgetsLength, happend, fgetsLength], ?_⟩
  unfold fgetsLength
  omega

theorem EndsLine.drop {text : List Char} (h : EndsLine text) (n : ℕ) : EndsLine (text.drop n) := by
  intro c hc
  rw [List.getLast?_drop] at hc
  split at hc
  · cases hc
  · exact h c hc

/-- **Behind a line** the calls start afresh. -/
theorem allLines_append {text : List Char} (h : EndsLine text) (rest : List Char) :
    allLines (text ++ rest) = allLines text ++ allLines rest := by
  by_cases htext : text = []
  · subst htext
    rfl
  · obtain ⟨heq, hle⟩ := fgetsLength_append h htext rest
    have hfgets : fgets (text ++ rest) = fgets text := by
      rw [fgets_eq_take, heq, List.take_append_of_le_length hle, fgets_eq_take]
    have hlength : (fgets text).length ≤ text.length := by
      rw [fgets_eq_take, List.length_take]
      exact Nat.min_le_right _ _
    have hdrop := length_drop_fgets htext
    rw [allLines_of_ne_nil htext, allLines_of_ne_nil (List.append_ne_nil_of_left_ne_nil htext rest),
      hfgets, List.drop_append_of_le_length hlength, allLines_append (h.drop _) rest,
      List.cons_append]
termination_by text.length
decreasing_by exact hdrop

/-- `line` is a line of the text `before ++ (line ++ after)`. -/
structure Splits (before line after : List Char) : Prop where
  start : EndsLine before
  body : '\n' ∉ line.dropLast
  /-- Only at the end of the text may the newline be missing. -/
  stop : line.getLast? = some '\n' ∨ line ≠ [] ∧ after = []

theorem Splits.ne_nil {before line after : List Char} (h : Splits before line after) :
    line ≠ [] := by
  rcases h.stop with hlast | ⟨hne, -⟩
  · rintro rfl
    cases hlast
  · exact hne

/-- A line shorter than the buffer is read whole. -/
theorem Splits.fgets_eq {before line after : List Char} (h : Splits before line after)
    (hlen : line.length < 512) : fgets (line ++ after) = line := by
  have hne := h.ne_nil
  have hline := List.dropLast_concat_getLast hne
  have hlength := congrArg List.length hline
  rw [List.length_append, List.length_singleton] at hlength
  by_cases hlast : line.getLast hne = '\n'
  · rw [hlast] at hline
    exact fgets_append ⟨line.dropLast, hline.symm, h.body, by omega⟩ after
  · have hall : line.takeWhile (· != '\n') = line := by
      rw [List.takeWhile_eq_self_iff]
      intro c hc
      rw [← hline] at hc
      rcases List.mem_append.mp hc with hc | hc
      · exact bne_of_notMem h.body c hc
      · exact List.mem_singleton.mp hc ▸ bne_iff_ne.mpr hlast
    rcases h.stop with hstop | ⟨-, rfl⟩
    · rw [List.getLast?_eq_getLast_of_ne_nil hne] at hstop
      exact absurd (Option.some.inj hstop) hlast
    · rw [List.append_nil, fgets_eq_take, fgetsLength, hall]
      exact List.take_of_length_le (by omega)

/-- **A line in a text** is read by a call of its own. -/
theorem allLines_of_splits {before line after : List Char} (h : Splits before line after)
    (hlen : line.length < 512) :
    allLines (before ++ (line ++ after)) = allLines before ++ line :: allLines after := by
  rw [allLines_append h.start,
    allLines_of_ne_nil (List.append_ne_nil_of_left_ne_nil h.ne_nil after), h.fgets_eq hlen,
    List.drop_left]

/-- A change that touches no newline leaves the lines where they are. -/
theorem Splits.set {before raw after : List Char} (h : Splits before raw after) {k : ℕ}
    {old new : Char} (hk : raw[k]? = some old) (hold : old ≠ '\n') (hnew : new ≠ '\n') :
    Splits before (raw.set k new) after := by
  refine ⟨h.start, fun hmem => ?_, ?_⟩
  · rw [List.dropLast_eq_take, List.length_set, List.take_set] at hmem
    rcases List.mem_or_eq_of_mem_set hmem with hmem | heq
    · exact h.body (List.dropLast_eq_take ▸ hmem)
    · exact hnew heq.symm
  · rcases h.stop with hstop | ⟨hne, hafter⟩
    · refine Or.inl ?_
      rw [List.getLast?_eq_getElem?] at hstop ⊢
      have hlast : k ≠ raw.length - 1 := by
        rintro rfl
        exact hold (Option.some.inj (by rw [← hk, hstop]))
      rw [List.length_set, List.getElem?_set_ne hlast, hstop]
    · exact Or.inr ⟨mt (List.set_eq_nil_iff _ _).mp hne, hafter⟩

/-! ## The lines of a file -/

/-- The lines of a text, each with its newline. The last one may have none. -/
def fileLines : List Char → List (List Char)
  | [] => []
  | c :: text =>
    if c = '\n' then [c] :: fileLines text
    else match fileLines text with
      | [] => [[c]]
      | line :: lines => (c :: line) :: lines

/-- The first of them. -/
def firstLine (text : List Char) : List Char :=
  text.take ((text.takeWhile (· != '\n')).length + 1)

/-- What `assemble_line` is called with: the strings in the array `lines`. -/
def statementLines (source : List Char) : List (List Char) := (readLines MAX_LINES source).map cstr

theorem fileLines_of_ne_nil {text : List Char} (h : text ≠ []) :
    fileLines text = firstLine text :: fileLines (text.drop (firstLine text).length) := by
  induction text with
  | nil => exact absurd rfl h
  | cons c text ih =>
    rw [fileLines, firstLine]
    by_cases hc : c = '\n'
    · subst hc
      rfl
    · rw [if_neg hc, List.takeWhile_cons_of_pos (by simpa using hc), List.length_cons,
        List.take_succ_cons, List.length_cons, List.drop_succ_cons]
      cases text with
      | nil => rfl
      | cons d text =>
        rw [ih (List.cons_ne_nil _ _)]
        rfl

/-- A call reads the first line whole if it has at most 511 characters. -/
theorem fgets_eq_firstLine {text : List Char} (h : (firstLine text).length ≤ 511) :
    fgets text = firstLine text := by
  have hle : (text.takeWhile (· != '\n')).length ≤ text.length :=
    (List.takeWhile_prefix _).length_le
  rw [firstLine, List.length_take] at h
  rw [fgets_eq_take, fgetsLength, firstLine]
  by_cases hlen : (text.takeWhile (· != '\n')).length + 1 ≤ 511
  · rw [Nat.min_eq_right hlen]
  · rw [List.take_of_length_le (by omega), List.take_of_length_le (by omega)]

/-- The first string is the first line, if that has at most 511 characters and no NUL. -/
theorem cstr_fgets_eq_iff (text : List Char) :
    cstr (fgets text) = firstLine text ↔
      (firstLine text).length ≤ 511 ∧ ∀ c ∈ firstLine text, c ≠ NUL := by
  constructor
  · intro h
    rw [← h]
    refine ⟨(List.takeWhile_prefix _).length_le.trans ?_, fun c hc => ?_⟩
    · rw [fgets_eq_take, List.length_take, fgetsLength]
      omega
    · have hne := List.mem_takeWhile_imp hc
      exact bne_iff_ne.mp hne
  · rintro ⟨hlen, hnul⟩
    rw [fgets_eq_firstLine hlen]
    exact List.takeWhile_eq_self_iff.mpr fun c hc => bne_iff_ne.mpr (hnul c hc)

theorem readLines_eq_iff (n : ℕ) (text : List Char) :
    (readLines n text).map cstr = fileLines text ↔ (fileLines text).length ≤ n ∧
      ∀ line ∈ fileLines text, line.length ≤ 511 ∧ ∀ c ∈ line, c ≠ NUL := by
  induction n generalizing text with
  | zero =>
    rw [readLines, List.map_nil]
    constructor
    · intro h
      rw [← h]
      exact ⟨Nat.le_refl _, fun line hline => absurd hline List.not_mem_nil⟩
    · rintro ⟨hlen, -⟩
      exact (List.eq_nil_of_length_eq_zero (Nat.le_zero.mp hlen)).symm
  | succ n ih =>
    by_cases htext : text = []
    · subst htext
      simp [readLines, fileLines]
    · have hread : readLines (n + 1) text =
          fgets text :: readLines n (text.drop (fgets text).length) := by
        rw [readLines]
        exact htext
      rw [fileLines_of_ne_nil htext, hread, List.map_cons, List.cons.injEq, cstr_fgets_eq_iff,
        List.forall_mem_cons, List.length_cons, Nat.succ_le_succ_iff]
      constructor
      · rintro ⟨hfirst, hrest⟩
        rw [fgets_eq_firstLine hfirst.1, ih] at hrest
        exact ⟨hrest.1, hfirst, hrest.2⟩
      · rintro ⟨hlen, hfirst, hrest⟩
        rw [fgets_eq_firstLine hfirst.1]
        exact ⟨hfirst, (ih _).mpr ⟨hlen, hrest⟩⟩

/-- **The source is read whole**, each line as one statement and in order, exactly if it has at most
6000 lines, and each line has at most 511 characters, its newline included, and no NUL. -/
theorem statementLines_eq_iff (source : List Char) :
    statementLines source = fileLines source ↔ (fileLines source).length ≤ MAX_LINES ∧
      ∀ line ∈ fileLines source, line.length < MAX_LINE ∧ ∀ c ∈ line, c ≠ NUL := by
  have hiff := readLines_eq_iff MAX_LINES source
  simp only [MAX_LINE, Nat.lt_succ_iff]
  exact hiff

/-- A comment of 511 characters, and what looks like an instruction behind it. -/
def longComment : List Char := List.replicate 511 ';' ++ " NOP\n".toList

/-- The end of a long comment becomes a statement, without an error. -/
theorem not_statementLines_longComment :
    (umkasm 2048 longComment).map (fun image => image 0) = some 0 ∧
    statementLines longComment ≠ fileLines longComment := by
  decide +kernel

end Umk80
