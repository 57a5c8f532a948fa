import Umk80.Listing.Umkrom

/-!
# The image is the union of the lines

What `umkrom` makes of a listing, without a word about the order in which it reads the lines. A
line counts if it is no comment and has a bar. Its first word left of the bar is the LOC, and the
second, if there is one, the OBJ. The listing is in order if all of these words are readable, all
bytes have their place in the ROM, and no address gets two different bytes; then the image is the
union of the object code of the lines. Every line of a text has a part in this by its words alone,
so that the lines may stand in any order.

## Main definitions

* `contents`, `words`, `columns` — the lines of a listing, and their words left of the bar
* `InOrder` — a listing without errors
* `IsUnion` — an image that holds given bytes, and is blank elsewhere

## Main results

* `parseRow_eq` — the tokens of the tool are the words of the line
* `rowsOf_allLines` — the calls of `fgets` find the lines of the listing
* `Rom.run_spec` — what a sequence of lines leaves in the image
* `umkrom_union` — the exit code and the image, and that they do not depend on the order
-/

namespace Umk80

open CString

/-! ## The words of a line -/

/-- What stands between white space. -/
def words (s : List Char) : List (List Char) := (s.splitOnP isSpace).filter (· ≠ [])

/-- White space in front does not matter. -/
theorem words_cons {c : Char} (hc : isSpace c = true) (s : List Char) :
    words (c :: s) = words s := by
  rw [words, List.splitOnP_cons_eq_if_modifyHead, if_pos hc]
  rfl

theorem words_dropWhile (s : List Char) : words (s.dropWhile isSpace) = words s := by
  induction s with
  | nil => rfl
  | cons c s ih =>
    by_cases hc : isSpace c = true
    · rw [List.dropWhile_cons_of_pos hc, ih, words_cons hc]
    · rw [List.dropWhile_cons_of_neg hc]

/-- The first word, and the words behind it. -/
theorem words_of_head {c : Char} {s : List Char} (hc : isSpace c = false) :
    words (c :: s) = (c :: s).takeWhile (fun d => !isSpace d) ::
      words ((c :: s).dropWhile fun d => !isSpace d) := by
  have hword : ∀ d ∈ (c :: s).takeWhile (fun d => !isSpace d), isSpace d = false := fun d hd => by
    simpa using List.mem_takeWhile_imp hd
  have hne : (c :: s).takeWhile (fun d => !isSpace d) ≠ [] := by
    rw [List.takeWhile_cons_of_pos (by simp [hc])]
    exact List.cons_ne_nil _ _
  conv_lhs => rw [← List.takeWhile_append_dropWhile (p := fun d => !isSpace d) (l := c :: s)]
  cases hrest : (c :: s).dropWhile fun d => !isSpace d with
  | nil =>
    rw [List.append_nil, words, List.splitOnP_eq_singleton hword]
    simp [hne, words]
  | cons sep rest =>
    have hsep : isSpace sep = true := by
      have hhead := List.head?_dropWhile_not (fun d => !isSpace d) (c :: s)
      rw [hrest] at hhead
      simpa using hhead
    rw [words, List.splitOnP_append_cons_of_forall_mem hword sep hsep, words_cons hsep,
      List.filter_cons_of_pos (by simp [hne]), words]

theorem words_eq_nil_iff (s : List Char) : words s = [] ↔ s.dropWhile isSpace = [] := by
  rw [← words_dropWhile]
  cases hs : s.dropWhile isSpace with
  | nil => simp [words]
  | cons c t =>
    have hc : isSpace c = false := by
      have hhead := List.head?_dropWhile_not isSpace s
      rw [hs] at hhead
      simpa using hhead
    simp [words_of_head hc]

/-! ## The tokens of the tool -/

/-- What a row says, from its words. -/
def rowOfWords : List (List Char) → Row
  | [] => .blank
  | loc :: ws =>
    if loc.length ≠ 4 ∨ isHexString loc = false then .badLoc loc
    else match ws with
      | [] => .blank
      | obj :: _ =>
        if isHexString obj = false ∨ obj.length % 2 ≠ 0 then .badObj obj
        else .code (strtol 16 loc).toNat obj

theorem drop_scan (f : Char → Bool) (s : List Char) (p : ℕ) :
    s.drop (scan f s p) = (s.drop p).dropWhile f := by
  rw [scan, ← List.drop_drop]
  generalize s.drop p = u
  calc u.drop (u.takeWhile f).length
      = (u.takeWhile f ++ u.dropWhile f).drop (u.takeWhile f).length := by
        rw [List.takeWhile_append_dropWhile]
    _ = u.dropWhile f := List.drop_left

/-- The word at or behind `p` is the first of the words from there on. -/
theorem wordAt_spec (s : List Char) (p : ℕ) :
    (s.length ≤ (wordAt s p).start ∧ words (s.drop p) = []) ∨
      ((wordAt s p).start < s.length ∧ words (s.drop p) =
        (wordAt s p).text s :: words (s.drop (wordAt s p).stop)) := by
  have hstart : s.drop (wordAt s p).start = (s.drop p).dropWhile isSpace := drop_scan isSpace s p
  have hstop : s.drop (wordAt s p).stop =
      ((s.drop p).dropWhile isSpace).dropWhile fun c => !isSpace c := by
    rw [← hstart]
    exact drop_scan (fun c => !isSpace c) s _
  have htext : (wordAt s p).text s =
      ((s.drop p).dropWhile isSpace).takeWhile fun c => !isSpace c := by
    have hlen : (wordAt s p).stop - (wordAt s p).start =
        ((s.drop (wordAt s p).start).takeWhile fun c => !isSpace c).length :=
      Nat.add_sub_cancel_left _ _
    rw [Span.text, hlen, ← hstart]
    exact (List.prefix_iff_eq_take.mp (List.takeWhile_prefix _)).symm
  cases hword : (s.drop p).dropWhile isSpace with
  | nil =>
    left
    rw [hword] at hstart
    exact ⟨List.drop_eq_nil_iff.mp hstart, (words_eq_nil_iff _).mpr hword⟩
  | cons c t =>
    right
    rw [hword] at hstart hstop htext
    have hc : isSpace c = false := by
      have hhead := List.head?_dropWhile_not isSpace (s.drop p)
      rw [hword] at hhead
      simpa using hhead
    refine ⟨?_, ?_⟩
    · by_contra hlong
      rw [List.drop_eq_nil_of_le (by omega)] at hstart
      cases hstart
    · rw [← words_dropWhile, hword, words_of_head hc, htext, hstop]

/-- **The tokens of the tool are the words** left of the bar. -/
theorem parseRow_eq (left : List Char) : parseRow left = rowOfWords (words left) := by
  -- LOC ends at white space, so that nothing is lost where the tool steps over it
  have hstep : words (left.drop (if (locTok left).stop < left.length then (locTok left).stop + 1
      else (locTok left).stop)) = words (left.drop (locTok left).stop) := by
    split
    · rename_i hlt
      have hstop : left.drop (locTok left).stop = _ := drop_scan (fun c => !isSpace c) left _
      have hcons := List.drop_eq_getElem_cons hlt
      have hspace : isSpace left[(locTok left).stop] = true := by
        have hhead := List.head?_dropWhile_not (fun c => !isSpace c) (left.drop (locTok left).start)
        rw [show left.drop (locTok left).stop =
          (left.drop (locTok left).start).dropWhile fun c => !isSpace c from hstop] at hcons
        rw [hcons, List.head?_cons] at hhead
        have hnot : (!isSpace left[(locTok left).stop]) = false := hhead
        simpa using hnot
      rw [hcons, words_cons hspace]
    · rfl
  have hloc := wordAt_spec left 0
  have hobj := wordAt_spec left (if (locTok left).stop < left.length then (locTok left).stop + 1
    else (locTok left).stop)
  rw [hstep] at hobj
  rw [List.drop_zero] at hloc
  change (left.length ≤ (locTok left).start ∧ _) ∨ ((locTok left).start < left.length ∧
    _ = (locTok left).text left :: words (left.drop (locTok left).stop)) at hloc
  change (left.length ≤ (objTok left).start ∧ _) ∨ ((objTok left).start < left.length ∧
    _ = (objTok left).text left :: words (left.drop (objTok left).stop)) at hobj
  rw [parseRow]
  rcases hloc with ⟨hlen, hnil⟩ | ⟨hlen, hcons⟩
  · rw [if_pos hlen, hnil, rowOfWords]
  · rw [if_neg (Nat.not_le.mpr hlen), hcons]
    rcases hobj with ⟨hlen, hnil⟩ | ⟨hlen, hcons⟩
    · rw [if_pos hlen, hnil, rowOfWords]
    · rw [if_neg (Nat.not_le.mpr hlen), hcons, rowOfWords]

/-! ## The lines of a listing -/

/-- The lines of a text, without their newlines. -/
def contents (listing : List Char) : List (List Char) :=
  (fileLines listing).map fun line => line.takeWhile (· != '\n')

/-- The words left of the bar, if the line counts. -/
def columns (line : List Char) : Option (List (List Char)) :=
  if line.head? = some '#' then none
  else if '|' ∈ line then some (words (line.takeWhile (· != '|')))
  else none

/-- What the tool finds left of the bar, if there is one. -/
def rowOf (line : Ptr) : Option Row := (barOf line).map fun bar => parseRow (line.take bar)

theorem strchr_eq (s : List Char) (c : Char) :
    strchr s c = if c ∈ s then some (s.takeWhile (· != c)).length else none := by
  induction s with
  | nil => rfl
  | cons d s ih =>
    rw [strchr, List.findIdx?_cons]
    by_cases hd : d = c
    · subst hd
      simp
    · rw [if_neg (by simpa using hd), List.takeWhile_cons_of_pos (by simpa using hd)]
      rw [strchr] at ih
      rw [ih]
      by_cases hmem : c ∈ s
      · simp [hmem]
      · simp [hmem, Ne.symm hd]

/-- A newline at the end changes nothing. -/
theorem rowOf_append {line e : List Char} (hline : ∀ c ∈ line, c ≠ NUL)
    (he : e = [] ∨ e = ['\n']) : rowOf (line ++ e) = (columns line).map rowOfWords := by
  have hcstr : cstr (line ++ e) = line ++ e := by
    refine List.takeWhile_eq_self_iff.mpr fun c hc => bne_iff_ne.mpr ?_
    rcases List.mem_append.mp hc with hc | hc
    · exact hline c hc
    · rcases he with rfl | rfl
      · exact absurd hc List.not_mem_nil
      · rw [List.mem_singleton.mp hc]
        decide
  have hbar : '|' ∉ e := by
    rcases he with rfl | rfl
    · exact List.not_mem_nil
    · decide
  have hderef : deref (line ++ e) = '#' ↔ line.head? = some '#' := by
    cases line with
    | nil =>
      rcases he with rfl | rfl
      · decide
      · decide
    | cons c line =>
      change c = '#' ↔ some c = some '#'
      rw [Option.some.injEq]
  have hmem : '|' ∈ line ++ e ↔ '|' ∈ line := by simp [hbar]
  rw [rowOf, columns, barOf, hcstr, strchr_eq]
  by_cases hhash : line.head? = some '#'
  · rw [if_pos (hderef.mpr hhash), if_pos hhash]
    rfl
  rw [if_neg (mt hderef.mp hhash), if_neg hhash]
  by_cases hin : '|' ∈ line
  · have htake : (line ++ e).takeWhile (· != '|') = line.takeWhile (· != '|') := by
      rw [List.takeWhile_append, if_neg]
      intro hlen
      have hall := (List.takeWhile_prefix (· != '|')).eq_of_length hlen
      rw [← hall] at hin
      have hbar := List.mem_takeWhile_imp hin
      exact absurd hbar (by decide)
    rw [if_pos (hmem.mpr hin), if_pos hin, Option.map_some, Option.map_some,
      ← List.prefix_iff_eq_take.mp (List.takeWhile_prefix _), htake, parseRow_eq]
  · rw [if_neg (mt hmem.mp hin), if_neg hin]
    rfl

/-- The first line of a text is its content, and a newline unless the text ends. -/
theorem exists_firstLine (text : List Char) :
    ∃ e, firstLine text = text.takeWhile (· != '\n') ++ e ∧ (e = [] ∨ e = ['\n']) ∧
      text = text.takeWhile (· != '\n') ++ (e ++ text.drop (firstLine text).length) := by
  have hhead := List.head?_dropWhile_not (· != '\n') text
  have hsplit := List.takeWhile_append_dropWhile (p := (· != '\n')) (l := text)
  rw [firstLine]
  generalize text.takeWhile (· != '\n') = t at hsplit ⊢
  generalize text.dropWhile (· != '\n') = d at hhead hsplit
  subst hsplit
  rw [List.take_length_add_append]
  cases d with
  | nil => exact ⟨[], rfl, Or.inl rfl, by simp⟩
  | cons c rest =>
    obtain rfl : c = '\n' := by simpa using hhead
    exact ⟨['\n'], rfl, Or.inr rfl, by simp⟩

/-- The text in front of a newline. -/
theorem takeWhile_newline {t e : List Char} (ht : '\n' ∉ t) (he : e = [] ∨ e = ['\n']) :
    (t ++ e).takeWhile (· != '\n') = t := by
  rw [List.takeWhile_append_of_pos (bne_of_notMem ht)]
  rcases he with rfl | rfl
  · exact List.append_nil t
  · exact List.append_nil t

/-- **The calls of `fgets` find the lines of the listing**, those of 511 characters included, whose
newline is a line of its own for the tool. -/
theorem rowsOf_allLines {listing : List Char}
    (h : ∀ line ∈ contents listing, line.length < 512 ∧ ∀ c ∈ line, c ≠ NUL) :
    (allLines listing).filterMap rowOf =
      ((contents listing).filterMap columns).map rowOfWords := by
  induction hn : listing.length using Nat.strong_induction_on generalizing listing with
  | _ n ih =>
    by_cases hnil : listing = []
    · subst hnil
      rfl
    obtain ⟨e, hfirst, he, hlisting⟩ := exists_firstLine listing
    have hmem : '\n' ∉ listing.takeWhile (· != '\n') := fun hmem =>
      absurd (List.mem_takeWhile_imp hmem) (by decide)
    obtain ⟨t, ht⟩ : ∃ t, listing.takeWhile (· != '\n') = t := ⟨_, rfl⟩
    rw [ht] at hfirst hlisting hmem
    have hcontents : contents listing =
        t :: contents (listing.drop (firstLine listing).length) := by
      rw [contents, fileLines_of_ne_nil hnil, List.map_cons]
      congr 1
      rw [hfirst, takeWhile_newline hmem he]
    rw [hcontents, List.forall_mem_cons] at h
    obtain ⟨⟨hlen, hnul⟩, hrest⟩ := h
    have hpos : 0 < (firstLine listing).length := by
      have htext := List.length_pos_of_ne_nil hnil
      rw [firstLine, List.length_take]
      omega
    have hdrop : (listing.drop (firstLine listing).length).length < n := by
      have htext := List.length_pos_of_ne_nil hnil
      rw [List.length_drop]
      omega
    have hrows := ih _ hdrop hrest rfl
    have hcons : (allLines listing).filterMap rowOf = (rowOf (t ++ e)).toList ++
        (allLines (listing.drop (firstLine listing).length)).filterMap rowOf := by
      rw [allLines_of_ne_nil hnil]
      by_cases hshort : (firstLine listing).length ≤ 511
      · rw [fgets_eq_firstLine hshort, List.filterMap_cons, hfirst]
        cases rowOf (t ++ e)
        all_goals rfl
      · rw [hfirst, List.length_append] at hshort
        obtain rfl : e = ['\n'] := he.resolve_left fun he => by
          rw [he, List.length_nil] at hshort
          omega
        have hfull : t.length = 511 := by
          rw [List.length_singleton] at hshort
          omega
        generalize listing.drop (firstLine listing).length = rest at hlisting ⊢
        have hfgets : fgets listing = t := by
          rw [fgets_eq_take, fgetsLength, ht, hfull, Nat.min_eq_left (by decide), ← hfull, hlisting,
            List.take_left]
        have hnewline : allLines (['\n'] ++ rest) = ['\n'] :: allLines rest := by
          have hline : IsLine ['\n'] := ⟨[], rfl, List.not_mem_nil, by decide⟩
          rw [allLines_of_ne_nil (by simp), fgets_append hline, List.drop_left]
        have hrow : rowOf (t ++ ['\n']) = rowOf t := by
          rw [rowOf_append hnul (Or.inr rfl), ← List.append_nil t, rowOf_append hnul (Or.inl rfl),
            List.append_nil]
        have hnone : rowOf ['\n'] = none := rfl
        rw [hfgets, hlisting, List.drop_left, hnewline, hrow, List.filterMap_cons,
          List.filterMap_cons, hnone]
        cases rowOf t
        all_goals rfl
    rw [hcons, hcontents, rowOf_append hnul he, hrows, List.filterMap_cons]
    cases columns t
    all_goals rfl

/-! ## The run -/

namespace Rom

theorem held_of_lt {r : Rom} {addr : ℕ} (h : addr < ROM_SIZE) :
    r.held addr = if r.covered ⟨addr, h⟩ then some (r.image ⟨addr, h⟩) else none := dif_pos h

/-- The image refuses nothing but conflicts, and addresses outside of it. -/
theorem exact_store : store.Exact (· < ROM_SIZE) where
  accept r addr val hr haddr hheld := by
    change (r.place addr val).errors ≠ [] → False
    change ∀ v, r.held addr = some v → v = val at hheld
    rw [held_of_lt haddr] at hheld
    rw [place, dif_pos haddr]
    dsimp only
    rw [if_neg]
    · exact hr
    · rintro ⟨hcovered, hne⟩
      exact hne (hheld _ (if_pos hcovered))
  cell r addr val h := by
    by_contra haddr
    refine h ?_
    change (r.place addr val).errors ≠ []
    rw [place, dif_neg haddr]
    simp [err]
  get_of_put r addr val c v h := by
    change (r.place addr val).held c = some v at h
    rcases r.place_cases addr val with ⟨-, hheld⟩ | ⟨-, -, hheld⟩
    · rw [hheld] at h
      exact Or.inl h
    · rw [hheld] at h
      by_cases hc : c = addr
      · subst hc
        rw [Function.update_self] at h
        exact Or.inr ⟨rfl, (Option.some.inj h).symm⟩
      · rw [Function.update_of_ne hc] at h
        exact Or.inl h

/-- What has not been covered is blank. -/
def Blank (r : Rom) : Prop := ∀ i, r.covered i = false → r.image i = 0xFF

theorem Blank.place {r : Rom} (h : r.Blank) (addr : ℕ) (val : U8) : (r.place addr val).Blank := by
  unfold Rom.place
  split
  · dsimp only
    split
    · exact h
    · intro i hi
      by_cases heq : i = ⟨addr, ‹addr < ROM_SIZE›⟩
      · subst heq
        simp at hi
      · simp only [Function.update_of_ne heq] at hi ⊢
        exact h i hi
  · exact h

theorem Blank.row {r : Rom} (h : r.Blank) (row : Row) : (r.row row).Blank := by
  cases row with
  | blank => exact h
  | badLoc loc => exact h
  | badObj obj => exact h
  | code addr obj =>
    rw [Rom.row]
    generalize placed addr (objBytes obj) = ps
    induction ps generalizing r with
    | nil => exact h
    | cons p ps ih => exact ih (h.place p.1 p.2)

theorem Blank.run {r : Rom} (h : r.Blank) (lines : List Ptr) : (lines.foldl line r).Blank := by
  induction lines generalizing r with
  | nil => exact h
  | cons raw lines ih =>
    refine ih ?_
    unfold line
    dsimp only
    split
    · exact h
    · exact Blank.row (r := { r with lineno := r.lineno + 1 }) h _

end Rom

/-- The bytes of a row. -/
def Row.bytes : Row → List (ℕ × U8)
  | .code addr obj => placed addr (objBytes obj)
  | _ => []

def Row.readable : Row → Bool
  | .badLoc _ | .badObj _ => false
  | _ => true

/-- All rows are readable, and their bytes have a place and do not conflict. -/
structure Mergeable (rows : List Row) : Prop where
  readable : ∀ row ∈ rows, row.readable = true
  inRom : ∀ p ∈ rows.flatMap Row.bytes, p.1 < ROM_SIZE
  agree : ∀ p ∈ rows.flatMap Row.bytes, ∀ q ∈ rows.flatMap Row.bytes, p.1 = q.1 → p.2 = q.2

/-- One more row. -/
theorem mergeable_append {rows : List Row} {row : Row} : Mergeable (rows ++ [row]) ↔
    Mergeable rows ∧ row.readable = true ∧ (∀ p ∈ row.bytes, p.1 < ROM_SIZE) ∧
      (∀ p ∈ row.bytes, ∀ v, (p.1, v) ∈ rows.flatMap Row.bytes → v = p.2) ∧
      ∀ p ∈ row.bytes, ∀ q ∈ row.bytes, p.1 = q.1 → p.2 = q.2 := by
  have hbytes : (rows ++ [row]).flatMap Row.bytes = rows.flatMap Row.bytes ++ row.bytes := by simp
  constructor
  · rintro ⟨hread, hrom, hagree⟩
    rw [hbytes] at hrom hagree
    refine ⟨⟨?_, ?_, ?_⟩, hread row (by simp), ?_, ?_, ?_⟩
    · exact fun r hr => hread r (List.mem_append_left _ hr)
    · exact fun p hp => hrom p (List.mem_append_left _ hp)
    · exact fun p hp q hq => hagree p (List.mem_append_left _ hp) q (List.mem_append_left _ hq)
    · exact fun p hp => hrom p (List.mem_append_right _ hp)
    · exact fun p hp v hv =>
        hagree (p.1, v) (List.mem_append_left _ hv) p (List.mem_append_right _ hp) rfl
    · exact fun p hp q hq => hagree p (List.mem_append_right _ hp) q (List.mem_append_right _ hq)
  · rintro ⟨⟨hread, hrom, hagree⟩, hread', hrom', hold, hagree'⟩
    refine ⟨?_, ?_, ?_⟩
    · rintro r hr
      rcases List.mem_append.mp hr with hr | hr
      · exact hread r hr
      · exact List.mem_singleton.mp hr ▸ hread'
    · rw [hbytes]
      intro p hp
      exact (List.mem_append.mp hp).elim (hrom p) (hrom' p)
    · rw [hbytes]
      intro p hp q hq hpq
      rcases List.mem_append.mp hp with hp | hp
      · rcases List.mem_append.mp hq with hq | hq
        · exact hagree p hp q hq hpq
        · exact hold q hq p.2 (hpq ▸ hp)
      · rcases List.mem_append.mp hq with hq | hq
        · exact (hold p hp q.2 (hpq.symm ▸ hq)).symm
        · exact hagree' p hp q hq hpq

namespace Rom

/-- What a row leaves, if nothing was wrong before. -/
theorem row_spec {r : Rom} (hr : r.errors = []) (row : Row) :
    ((r.row row).errors = [] ↔ row.readable = true ∧ (∀ p ∈ row.bytes, p.1 < ROM_SIZE) ∧
      (∀ p ∈ row.bytes, ∀ v, r.held p.1 = some v → v = p.2) ∧
      ∀ p ∈ row.bytes, ∀ q ∈ row.bytes, p.1 = q.1 → p.2 = q.2) ∧
    ((r.row row).errors = [] → ∀ a v, (r.row row).held a = some v ↔
      r.held a = some v ∨ (a, v) ∈ row.bytes) := by
  cases row with
  | blank => simp [Rom.row, Row.readable, Row.bytes, hr]
  | badLoc loc => simp [Rom.row, Row.readable, err]
  | badObj obj => simp [Rom.row, Row.readable, err]
  | code addr obj =>
    rw [row_code]
    have hstart : ¬ store.Failed r := not_not.mpr hr
    constructor
    · have hiff := @WriteOnce.Exact.not_failed_putAll _ _ _ store _ exact_store
        (placed addr (objBytes obj)) r hstart
      exact ⟨fun h => ⟨rfl, hiff.mp (not_not.mpr h)⟩, fun h => not_not.mp (hiff.mpr h.2)⟩
    · intro h a v
      exact exact_store.get_putAll_iff (not_not.mpr h) a v

theorem line_of_rowOf {r : Rom} {raw : Ptr} :
    r.line raw = match rowOf raw with
      | none => { r with lineno := r.lineno + 1 }
      | some row => ({ r with lineno := r.lineno + 1 } : Rom).row row := by
  unfold line rowOf
  dsimp only
  cases barOf raw
  all_goals rfl

/-- **What a sequence of lines leaves**: no error exactly if their rows can be merged, and then
their bytes. -/
theorem run_spec (raws : List Ptr) :
    ((raws.foldl line init).errors = [] ↔ Mergeable (raws.filterMap rowOf)) ∧
    ((raws.foldl line init).errors = [] → ∀ a v, (raws.foldl line init).held a = some v ↔
      (a, v) ∈ (raws.filterMap rowOf).flatMap Row.bytes) := by
  induction raws using List.reverseRecOn with
  | nil =>
    refine ⟨⟨fun _ => ⟨by simp, by simp, by simp⟩, fun _ => rfl⟩, fun _ a v => ?_⟩
    simp [held, init]
  | append_singleton raws raw ih =>
    obtain ⟨hmerge, hheld⟩ := ih
    rw [List.foldl_append, List.foldl_cons, List.foldl_nil, List.filterMap_append, line_of_rowOf]
    generalize raws.foldl line init = r at hmerge hheld ⊢
    generalize raws.filterMap rowOf = rows at hmerge hheld ⊢
    cases hrow : rowOf raw with
    | none =>
      simp only [List.filterMap_cons, hrow, List.filterMap_nil, List.append_nil]
      exact ⟨hmerge, hheld⟩
    | some row =>
      have hrows : rows ++ [raw].filterMap rowOf = rows ++ [row] := by simp [hrow]
      rw [hrows, mergeable_append]
      by_cases hr : r.errors = []
      · obtain ⟨herrors, hunion⟩ :=
          row_spec (r := { r with lineno := r.lineno + 1 }) hr row
        have hold := hheld hr
        constructor
        · refine herrors.trans ⟨?_, ?_⟩
          · rintro ⟨hread, hrom, hfree, hagree⟩
            exact ⟨hmerge.mp hr, hread, hrom, fun p hp v hv => hfree p hp v ((hold _ _).mpr hv),
              hagree⟩
          · rintro ⟨-, hread, hrom, hfree, hagree⟩
            exact ⟨hread, hrom, fun p hp v hv => hfree p hp v ((hold _ _).mp hv), hagree⟩
        · intro h a v
          have hbytes : (rows ++ [row]).flatMap Row.bytes =
              rows.flatMap Row.bytes ++ row.bytes := by simp
          rw [hbytes, List.mem_append, ← hold]
          exact hunion h a v
      · have hfailed := (extends_row { r with lineno := r.lineno + 1 } row).failed hr
        exact ⟨⟨fun h => absurd h hfailed, fun h => absurd (hmerge.mpr h.1) hr⟩,
          fun h => absurd h hfailed⟩

end Rom

/-! ## The listing as a set of lines -/

/-- A readable LOC: four hexadecimal digits. -/
def isLoc (loc : List Char) : Bool := loc.length == 4 && isHexString loc

/-- A readable OBJ: pairs of hexadecimal digits. -/
def isObj (obj : List Char) : Bool := isHexString obj && obj.length % 2 == 0

/-- The words of a line are readable: a LOC, and perhaps an OBJ. -/
def readableWords : List (List Char) → Bool
  | [] => true
  | [loc] => isLoc loc
  | loc :: obj :: _ => isLoc loc && isObj obj

/-- The bytes of the OBJ, with the addresses from the LOC on. -/
def bytesOfWords : List (List Char) → List (ℕ × U8)
  | loc :: obj :: _ => placed (strtol 16 loc).toNat (objBytes obj)
  | _ => []

/-- The bytes of a listing. -/
def bytesOf (listing : List Char) : List (ℕ × U8) :=
  ((contents listing).filterMap columns).flatMap bytesOfWords

/-- **A listing in order**: every line that counts is readable, every byte has a place in the ROM,
and no address gets two different bytes. -/
structure InOrder (listing : List Char) : Prop where
  readable : ∀ ws ∈ (contents listing).filterMap columns, readableWords ws = true
  inRom : ∀ p ∈ bytesOf listing, p.1 < ROM_SIZE
  agree : ∀ p ∈ bytesOf listing, ∀ q ∈ bytesOf listing, p.1 = q.1 → p.2 = q.2

/-- The image holds these bytes, and is blank elsewhere. -/
structure IsUnion (image : Fin ROM_SIZE → U8) (bytes : List (ℕ × U8)) : Prop where
  holds : ∀ (i : Fin ROM_SIZE) (v : U8), ((i : ℕ), v) ∈ bytes → image i = v
  blank : ∀ i : Fin ROM_SIZE, (∀ v, ((i : ℕ), v) ∉ bytes) → image i = 0xFF

theorem isLoc_iff (loc : List Char) :
    isLoc loc = true ↔ ¬ (loc.length ≠ 4 ∨ isHexString loc = false) := by
  simp [isLoc]

theorem isObj_iff (obj : List Char) :
    isObj obj = true ↔ ¬ (isHexString obj = false ∨ obj.length % 2 ≠ 0) := by
  simp [isObj]

theorem readable_rowOfWords (ws : List (List Char)) :
    (rowOfWords ws).readable = readableWords ws := by
  match ws with
  | [] => rfl
  | [loc] =>
    rw [rowOfWords, readableWords]
    by_cases hloc : isLoc loc = true
    · rw [if_neg ((isLoc_iff loc).mp hloc), hloc]
      rfl
    · rw [if_pos (not_not.mp (mt (isLoc_iff loc).mpr hloc)), Bool.eq_false_iff.mpr hloc]
      rfl
  | loc :: obj :: ws =>
    rw [rowOfWords, readableWords]
    by_cases hloc : isLoc loc = true
    · rw [if_neg ((isLoc_iff loc).mp hloc), hloc]
      by_cases hobj : isObj obj = true
      · rw [if_neg ((isObj_iff obj).mp hobj), hobj]
        rfl
      · rw [if_pos (not_not.mp (mt (isObj_iff obj).mpr hobj)), Bool.eq_false_iff.mpr hobj]
        rfl
    · rw [if_pos (not_not.mp (mt (isLoc_iff loc).mpr hloc)), Bool.eq_false_iff.mpr hloc]
      rfl

/-- The bytes of readable words. -/
theorem bytes_rowOfWords {ws : List (List Char)} (h : readableWords ws = true) :
    (rowOfWords ws).bytes = bytesOfWords ws := by
  match ws with
  | [] => rfl
  | [loc] =>
    rw [rowOfWords, if_neg ((isLoc_iff loc).mp h)]
    rfl
  | loc :: obj :: ws =>
    obtain ⟨hloc, hobj⟩ := Bool.and_eq_true _ _ ▸ h
    rw [rowOfWords, if_neg ((isLoc_iff loc).mp hloc), if_neg ((isObj_iff obj).mp hobj)]
    rfl

/-- The rows of a listing can be merged if it is in order, and their bytes are its bytes. -/
theorem mergeable_iff (wss : List (List (List Char))) :
    (Mergeable (wss.map rowOfWords) ↔ (∀ ws ∈ wss, readableWords ws = true) ∧
      (∀ p ∈ wss.flatMap bytesOfWords, p.1 < ROM_SIZE) ∧
      ∀ p ∈ wss.flatMap bytesOfWords, ∀ q ∈ wss.flatMap bytesOfWords, p.1 = q.1 → p.2 = q.2) ∧
    ((∀ ws ∈ wss, readableWords ws = true) →
      (wss.map rowOfWords).flatMap Row.bytes = wss.flatMap bytesOfWords) := by
  have hbytes (h : ∀ ws ∈ wss, readableWords ws = true) :
      (wss.map rowOfWords).flatMap Row.bytes = wss.flatMap bytesOfWords := by
    rw [List.flatMap_map]
    exact List.flatMap_congr fun ws hws => bytes_rowOfWords (h ws hws)
  have hread : (∀ row ∈ wss.map rowOfWords, row.readable = true) ↔
      ∀ ws ∈ wss, readableWords ws = true := by
    simp only [List.forall_mem_map, readable_rowOfWords]
  refine ⟨⟨?_, ?_⟩, hbytes⟩
  · rintro ⟨hr, hrom, hagree⟩
    have hwords := hread.mp hr
    rw [hbytes hwords] at hrom hagree
    exact ⟨hwords, hrom, hagree⟩
  · rintro ⟨hwords, hrom, hagree⟩
    refine ⟨hread.mpr hwords, ?_, ?_⟩
    · rw [hbytes hwords]
      exact hrom
    · rw [hbytes hwords]
      exact hagree

/-- The order of the lines does not matter for what a listing says. -/
theorem InOrder.of_perm {listing listing' : List Char} (h : InOrder listing)
    (hperm : (contents listing').Perm (contents listing)) : InOrder listing' := by
  have hcolumns := hperm.filterMap columns
  have hbytes : (bytesOf listing').Perm (bytesOf listing) := hcolumns.flatMap_right _
  exact ⟨fun ws hws => h.readable ws (hcolumns.mem_iff.mp hws),
    fun p hp => h.inRom p (hbytes.mem_iff.mp hp),
    fun p hp q hq => h.agree p (hbytes.mem_iff.mp hp) q (hbytes.mem_iff.mp hq)⟩

theorem IsUnion.unique {image image' : Fin ROM_SIZE → U8} {bytes bytes' : List (ℕ × U8)}
    (h : IsUnion image bytes) (h' : IsUnion image' bytes') (hbytes : ∀ p, p ∈ bytes ↔ p ∈ bytes') :
    image = image' := by
  funext i
  by_cases hi : ∃ v, ((i : ℕ), v) ∈ bytes
  · obtain ⟨v, hv⟩ := hi
    rw [h.holds i v hv, h'.holds i v ((hbytes _).mp hv)]
  · have hnone (v : U8) : ((i : ℕ), v) ∉ bytes := fun hv => hi ⟨v, hv⟩
    rw [h.blank i hnone, h'.blank i fun v hv => hnone v ((hbytes _).mpr hv)]

/-- **The exit code and the image of a listing.** -/
theorem umkrom_spec {listing : List Char}
    (hlines : ∀ line ∈ contents listing, line.length < 512 ∧ ∀ c ∈ line, c ≠ NUL) :
    ((umkrom listing).exitCode = 0 ↔ InOrder listing) ∧
    ((umkrom listing).exitCode = 0 → IsUnion (umkrom listing).image (bytesOf listing)) := by
  obtain ⟨herrors, hheld⟩ := Rom.run_spec (allLines listing)
  rw [rowsOf_allLines hlines] at herrors hheld
  obtain ⟨hmerge, hbytes⟩ := mergeable_iff ((contents listing).filterMap columns)
  have hiff : (umkrom listing).exitCode = 0 ↔ InOrder listing := by
    rw [Rom.exitCode_eq_zero, umkrom, herrors, hmerge]
    constructor
    · rintro ⟨hread, hrom, hagree⟩
      exact ⟨hread, hrom, hagree⟩
    · rintro ⟨hread, hrom, hagree⟩
      exact ⟨hread, hrom, hagree⟩
  refine ⟨hiff, fun hexit => ?_⟩
  have hunion := hheld (Rom.exitCode_eq_zero.mp hexit)
  rw [hbytes (hiff.mp hexit).readable] at hunion
  have hblank : (umkrom listing).Blank :=
    Rom.Blank.run (r := Rom.init) (fun i _ => rfl) (allLines listing)
  constructor
  · intro i v hv
    have hi := (hunion i v).mpr hv
    rw [← umkrom, Rom.held_of_lt i.isLt] at hi
    split at hi
    · exact Option.some.inj hi
    · cases hi
  · intro i hi
    refine hblank i ?_
    by_contra hcovered
    refine hi ((umkrom listing).image i) ((hunion i _).mp ?_)
    rw [← umkrom, Rom.held_of_lt i.isLt, if_pos (Bool.not_eq_false _ ▸ hcovered)]

/-- **The union of the lines.** For a listing with short lines and without a NUL, `umkrom` returns
0 exactly if the listing is in order, and the image is then the union of its object code. So the
lines may stand in any order. -/
theorem umkrom_union (listing : List Char)
    (hlines : ∀ line ∈ contents listing, line.length < 512 ∧ ∀ c ∈ line, c ≠ NUL) :
    ((umkrom listing).exitCode = 0 ↔ InOrder listing) ∧
    ((umkrom listing).exitCode = 0 → IsUnion (umkrom listing).image (bytesOf listing)) ∧
    ∀ listing', (contents listing').Perm (contents listing) →
      (umkrom listing').exitCode = (umkrom listing).exitCode ∧
      ((umkrom listing).exitCode = 0 → (umkrom listing').image = (umkrom listing).image) := by
  obtain ⟨hiff, hunion⟩ := umkrom_spec hlines
  refine ⟨hiff, hunion, fun listing' hperm => ?_⟩
  obtain ⟨hiff', hunion'⟩ := umkrom_spec fun line hline => hlines line (hperm.mem_iff.mp hline)
  have hsame : (umkrom listing').exitCode = 0 ↔ (umkrom listing).exitCode = 0 :=
    hiff'.trans ⟨fun h => hiff.mpr (h.of_perm hperm.symm), fun h => (hiff.mp h).of_perm hperm⟩
  constructor
  · unfold Rom.exitCode at hsame ⊢
    split at hsame <;> split at hsame <;> simp_all
  · intro hexit
    have hbytes : (bytesOf listing').Perm (bytesOf listing) :=
      (hperm.filterMap columns).flatMap_right _
    exact (hunion' (hsame.mpr hexit)).unique (hunion hexit) fun p => hbytes.mem_iff

/-- Two lines that place the same byte. -/
def overlapping : List Char := "0000 C30100 | JMP 1\n0002 0076 | NOP\n".toList

theorem umkrom_union_overlapping : (umkrom overlapping).exitCode = 0 ∧
    (umkrom "0002 0076 | NOP\n0000 C30100 | JMP 1".toList).image =
      (umkrom overlapping).image := by
  obtain ⟨hiff, -, hperm⟩ := umkrom_union overlapping (by decide +kernel)
  have hexit := hiff.mpr ⟨by decide +kernel, by decide +kernel, by decide +kernel⟩
  have hswap : (contents "0002 0076 | NOP\n0000 C30100 | JMP 1".toList).Perm
      (contents overlapping) := by
    decide +kernel
  exact ⟨hexit, (hperm _ hswap).2 hexit⟩

end Umk80
