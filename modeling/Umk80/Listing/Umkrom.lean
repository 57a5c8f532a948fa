import Umk80.Asm.Lines
import Umk80.Lib.WriteOnce

/-!
# The image of the listing

`tools/umkrom.c`: the listing of the monitor has a column with addresses, one with object code and
one with source text. The tool places the object code in an image of the ROM, notes conflicts, and
copies the source column to a file for the assembler.

The messages of the tool are kept as in the assembler. What it prints about its coverage is left
out; the files are texts, so that they can always be opened and written.

## Main definitions

* `Rom` — the variables of the tool
* `Rom.place`, `Rom.line` — a byte, and a line of the listing
* `Row`, `parseRow` — what stands left of the bar
* `umkrom`, `umkromAsm` — the image and the errors, and the extracted source

## Main results

* `Rom.store` — the image is a store that is written once
* `held_of_umkrom` — without errors, all object code is in the image
-/

namespace Umk80

open CString

def ROM_SIZE : ℕ := 2048

/-- `hexval`, with `none` for -1. -/
def hexval (c : Char) : Option ℕ :=
  if '0' ≤ c ∧ c ≤ '9' then some (c.toNat - '0'.toNat)
  else if 'A' ≤ c ∧ c ≤ 'F' then some (c.toNat - 'A'.toNat + 10)
  else if 'a' ≤ c ∧ c ≤ 'f' then some (c.toNat - 'a'.toNat + 10)
  else none

/-- `is_hex_string`. -/
def isHexString (s : List Char) : Bool := s.length != 0 && s.all fun c => (hexval c).isSome

/-! ## Placing bytes -/

/-- The static data, and the number of the line. -/
structure Rom where
  image : Fin ROM_SIZE → U8
  covered : Fin ROM_SIZE → Bool
  errors : List Diagnostic
  lineno : ℕ

namespace Rom

/-- A blank EPROM. -/
def init : Rom where
  image := fun _ => 0xFF
  covered := fun _ => false
  errors := []
  lineno := 0

def err (r : Rom) (text : List Char) : Rom :=
  { r with errors := r.errors ++ [⟨r.lineno, text⟩] }

/-- `place`. -/
def place (r : Rom) (addr : ℕ) (val : U8) : Rom :=
  if h : addr < ROM_SIZE then
    let i : Fin ROM_SIZE := ⟨addr, h⟩
    if r.covered i ∧ r.image i ≠ val then
      r.err (hex 4 addr ++ " gets ".toList ++ hex 2 val.toNat ++
        " but already held ".toList ++ hex 2 (r.image i).toNat)
    else
      { r with
        image := Function.update r.image i val
        covered := Function.update r.covered i true }
  else r.err ("address ".toList ++ hex 4 addr ++ " outside the ROM".toList)

/-- What the image holds at an address, if anything has been placed there. -/
def held (r : Rom) (addr : ℕ) : Option U8 :=
  if h : addr < ROM_SIZE then if r.covered ⟨addr, h⟩ then some (r.image ⟨addr, h⟩) else none
  else none

/-- What `place` does. -/
theorem place_cases (r : Rom) (addr : ℕ) (val : U8) :
    ((r.place addr val).errors ≠ [] ∧ (r.place addr val).held = r.held) ∨
    ((r.place addr val).errors = r.errors ∧ (r.held addr = none ∨ r.held addr = some val) ∧
      (r.place addr val).held = Function.update r.held addr (some val)) := by
  unfold place
  split
  · next h =>
    dsimp only
    split
    · exact Or.inl ⟨by simp [err], rfl⟩
    · next hfree =>
      refine Or.inr ⟨rfl, ?_, ?_⟩
      · rw [held, dif_pos h]
        by_cases hcovered : r.covered ⟨addr, h⟩ = true
        · rw [if_pos hcovered]
          exact Or.inr (congrArg some (not_not.mp fun hne => hfree ⟨hcovered, hne⟩))
        · exact Or.inl (if_neg hcovered)
      · funext a
        by_cases ha : a = addr
        · subst ha
          simp [held, h]
        · have hne (h' : a < ROM_SIZE) : (⟨a, h'⟩ : Fin ROM_SIZE) ≠ ⟨addr, h⟩ := fun heq =>
            ha (congrArg Fin.val heq)
          rw [Function.update_of_ne ha]
          unfold held
          split
          · next h' => simp only [Function.update_of_ne (hne h')]
          · rfl
  · exact Or.inl ⟨by simp [err], rfl⟩

theorem errors_place (r : Rom) (addr : ℕ) (val : U8) (h : r.errors ≠ []) :
    (r.place addr val).errors ≠ [] := by
  rcases r.place_cases addr val with ⟨herr, -⟩ | ⟨herr, -⟩
  · exact herr
  · rwa [herr]

/-- The image is a store that is written once. -/
def store : WriteOnce Rom ℕ U8 where
  get := held
  put := place
  Failed r := r.errors ≠ []
  get_put r addr val h := by
    rcases r.place_cases addr val with ⟨herr, -⟩ | ⟨-, -, hheld⟩
    · exact absurd herr h
    · rw [hheld, Function.update_self]
  get_put_mono r addr val c v h := by
    rcases r.place_cases addr val with ⟨-, hheld⟩ | ⟨-, hfree, hheld⟩
    · rwa [hheld]
    · rw [hheld]
      by_cases hc : c = addr
      · subst hc
        rw [Function.update_self]
        rcases hfree with hnone | hsome
        · rw [hnone] at h
          cases h
        · rw [← hsome, h]
      · rwa [Function.update_of_ne hc]
  failed_put r addr val h := r.errors_place addr val h

end Rom

/-! ## The columns of a line -/

/-- A word of a string: where it starts, and where it ends. -/
structure Span where
  start : ℕ
  stop : ℕ

/-- The text of a word. -/
def Span.text (t : Span) (s : List Char) : List Char := (s.drop t.start).take (t.stop - t.start)

/-- The word at or behind `p`: white space is skipped, and the word ends before the next. -/
def wordAt (s : List Char) (p : ℕ) : Span where
  start := scan isSpace s p
  stop := scan (fun c => !isSpace c) s (scan isSpace s p)

/-- `loc_tok`. -/
def locTok (left : List Char) : Span := wordAt left 0

/-- `obj_tok`; where LOC ends, `if (*p) *p++` steps over the NUL it writes. -/
def objTok (left : List Char) : Span :=
  wordAt left (if (locTok left).stop < left.length then (locTok left).stop + 1
    else (locTok left).stop)

/-- `bar - line`, unless the line is a comment. -/
def barOf (line : Ptr) : Option ℕ := if deref line = '#' then none else strchr (cstr line) '|'

/-- What stands left of the bar. -/
inductive Row
  /-- Nothing, or a LOC without OBJ. -/
  | blank
  | badLoc (loc : List Char)
  | badObj (obj : List Char)
  | code (addr : ℕ) (obj : List Char)

def parseRow (left : List Char) : Row :=
  let loc := (locTok left).text left
  let obj := (objTok left).text left
  if left.length ≤ (locTok left).start then .blank
  else if loc.length ≠ 4 ∨ isHexString loc = false then .badLoc loc
  else if left.length ≤ (objTok left).start then .blank
  else if isHexString obj = false ∨ obj.length % 2 ≠ 0 then .badObj obj
  -- four digits, which `strtoul` reads as `strtol` does
  else .code (strtol 16 loc).toNat obj

/-- `(hi << 4) | lo`. -/
def byteOf (hi lo : Char) : U8 :=
  BitVec.ofNat 8 ((hexval hi).getD 0 <<< 4 ||| (hexval lo).getD 0)

/-- The bytes that pairs of digits stand for. -/
def objBytes : List Char → List U8
  | hi :: lo :: rest => byteOf hi lo :: objBytes rest
  | _ => []

/-- Bytes, with the addresses from `addr` on. -/
def placed (addr : ℕ) : List U8 → List (ℕ × U8)
  | [] => []
  | v :: vs => (addr, v) :: placed (addr + 1) vs

/-- What the rest of the loop does with the text left of the bar. -/
def Rom.row (r : Rom) : Row → Rom
  | .blank => r
  | .badLoc loc => r.err ("unreadable LOC \"".toList ++ loc ++ "\"".toList)
  | .badObj obj => r.err ("unreadable OBJ \"".toList ++ obj ++ "\"".toList)
  | .code addr obj => (placed addr (objBytes obj)).foldl (fun r p => r.place p.1 p.2) r

/-- A line of the listing. -/
def Rom.line (r : Rom) (line : Ptr) : Rom :=
  let r := { r with lineno := r.lineno + 1 }
  match barOf line with
  | none => r
  | some bar => r.row (parseRow (line.take bar))

/-- The source column of a line, as it is copied. -/
def sourceOf (line : Ptr) : List Char :=
  match barOf line with
  | none => []
  | some bar =>
    ((cstr line).drop (bar + 1)).rdropWhile (fun c => c == '\n' || c == '\r') ++ ['\n']

/-! ## The main program -/

/-- A text in UTF-8, a character for each byte. -/
def utf8 (s : String) : List Char :=
  s.toList.flatMap fun c => (String.utf8EncodeChar c).map fun b => Char.ofNat b.toNat

/-- What the extracted source starts with. -/
def ASM_HEADER : List Char :=
  ["; УМК-80 monitor source, extracted from rom/monitor.lst.\n",
    "; DO NOT EDIT: regenerate with  umkrom rom/monitor.lst ... --asm\n",
    "; Original: Р.Р.00004-01 12 01-1, «Системный монитор. Текст\n",
    "; программы», 1986, литера О1, ISIS-II 8080/8085 MACRO ASSEMBLER.\n\n"].flatMap utf8

/-- `main` from the listing to the image and the errors. -/
def umkrom (listing : List Char) : Rom := (allLines listing).foldl Rom.line Rom.init

/-- The file that `--asm` writes. -/
def umkromAsm (listing : List Char) : List Char :=
  ASM_HEADER ++ (allLines listing).flatMap sourceOf

/-- The binary file. -/
def Rom.file (r : Rom) : List U8 := List.ofFn r.image

/-- What `main` returns. -/
def Rom.exitCode (r : Rom) : ℕ := if r.errors = [] then 0 else 1

/-! ## Runs without errors -/

theorem Rom.exitCode_eq_zero {r : Rom} : r.exitCode = 0 ↔ r.errors = [] := by
  unfold exitCode
  split <;> simp_all

namespace Rom

theorem extends_err (r : Rom) (text : List Char) : store.Extends r (r.err text) :=
  ⟨fun _ _ h => h, fun _ => by simp [store, err]⟩

theorem row_code (r : Rom) (addr : ℕ) (obj : List Char) :
    r.row (.code addr obj) = store.putAll r (placed addr (objBytes obj)) := rfl

theorem extends_row (r : Rom) (row : Row) : store.Extends r (r.row row) := by
  cases row with
  | blank => exact .refl store r
  | badLoc loc => exact r.extends_err _
  | badObj obj => exact r.extends_err _
  | code addr obj => exact store.extends_putAll r _

theorem extends_line (r : Rom) (line : Ptr) : store.Extends r (r.line line) := by
  have hlineno : store.Extends r { r with lineno := r.lineno + 1 } := ⟨fun _ _ h => h, id⟩
  unfold Rom.line
  dsimp only
  split
  · exact hlineno
  · exact hlineno.trans (extends_row _ _)

end Rom

/-- The line of a run without errors: it is placed in some state whose outcome the final image
extends. -/
theorem exists_row_of_umkrom {listing : List Char} (h : (umkrom listing).errors = []) {line : Ptr}
    (hline : line ∈ allLines listing) {bar : ℕ} (hbar : barOf line = some bar) :
    ∃ r : Rom, (r.row (parseRow (line.take bar))).errors = [] ∧
      Rom.store.Extends (r.row (parseRow (line.take bar))) (umkrom listing) := by
  obtain ⟨before, after, hlines⟩ := List.append_of_mem hline
  let r := before.foldl Rom.line Rom.init
  have hrow : r.line line = ({ r with lineno := r.lineno + 1 } : Rom).row
      (parseRow (line.take bar)) := by
    rw [Rom.line, hbar]
  have hlater : Rom.store.Extends (r.line line) (umkrom listing) := by
    rw [umkrom, hlines, List.foldl_append, List.foldl_cons]
    exact Rom.store.extends_foldl Rom.extends_line after _
  rw [hrow] at hlater
  exact ⟨_, by_contra fun hf => hlater.failed hf h, hlater⟩

/-- **Without errors, the object code is in the image.** -/
theorem held_of_umkrom {listing : List Char} (h : (umkrom listing).errors = []) {line : Ptr}
    (hline : line ∈ allLines listing) {bar : ℕ} (hbar : barOf line = some bar) {addr : ℕ}
    {obj : List Char} (hrow : parseRow (line.take bar) = .code addr obj) {p : ℕ × U8}
    (hp : p ∈ placed addr (objBytes obj)) : (umkrom listing).held p.1 = some p.2 := by
  obtain ⟨r, herr, hlater⟩ := exists_row_of_umkrom h hline hbar
  rw [hrow, Rom.row_code] at herr hlater
  exact hlater.get _ _ (Rom.store.get_putAll (not_not.mpr herr) hp)

/-- **Without errors, every line is readable.** -/
theorem readable_of_umkrom {listing : List Char} (h : (umkrom listing).errors = []) {line : Ptr}
    (hline : line ∈ allLines listing) {bar : ℕ} (hbar : barOf line = some bar) :
    (∀ loc, parseRow (line.take bar) ≠ .badLoc loc) ∧
      ∀ obj, parseRow (line.take bar) ≠ .badObj obj := by
  obtain ⟨r, herr, -⟩ := exists_row_of_umkrom h hline hbar
  constructor
  all_goals
    intro text hrow
    rw [hrow] at herr
    simp [Rom.row, Rom.err] at herr

end Umk80
