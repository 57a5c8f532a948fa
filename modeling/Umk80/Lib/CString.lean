import Mathlib.Algebra.Group.Nat.Defs
import Mathlib.Data.List.DropRight
import Mathlib.Data.Nat.Notation
import Mathlib.Tactic.Common

/-!
# C strings

A pointer into a character array is what the array holds from there on, the terminating NUL and
what lies behind it included. Advancing the pointer drops a character; writing through it changes
the list. A byte is written as the character with its code.

Reading beyond the end of the array, which C leaves undefined, gives NUL.

## Main definitions

* `Ptr`, `deref`, `cstr` — pointers, `*p`, and the string at `p`
* `isSpace`, `toUpper` — from `<ctype.h>`, in the C locale
* `scan`, `strchr` — walking along a string, as indices into it
* `strtol`, `hex` — reading a constant, and printing one with `%0wlX`
* `getLine`, `getLines` — `fgets` into a buffer of some size, once and until the end of the text
* `hexBytes` — bytes, two digits each
-/

namespace CString

/-- A pointer into a character array. -/
abbrev Ptr := List Char

def NUL : Char := Char.ofNat 0

def QUOTE : Char := Char.ofNat 39

/-- What is asked of all characters of a text is decided by walking along the text, and not by going
through all characters. -/
instance (priority := high) decidableForallMem {p : Char → Prop} [DecidablePred p]
    (s : List Char) : Decidable (∀ c ∈ s, p c) :=
  List.decidableBAll p s

instance (priority := high) decidableForallMemOption {p : Char → Prop} [DecidablePred p]
    (o : Option Char) : Decidable (∀ c ∈ o, p c) :=
  match o with
  | none => isTrue nofun
  | some c => decidable_of_iff (p c) (by simp)

/-- `*p`. -/
def deref (p : Ptr) : Char := p.headD NUL

/-- The string at `p`. -/
def cstr (p : Ptr) : List Char := p.takeWhile (· != NUL)

/-- `strncmp (p, t, strlen (t)) == 0`. -/
def startsWith (p : Ptr) (t : String) : Bool := p.take t.length == t.toList

/-- Blanks and tabs. -/
def isBlank (c : Char) : Bool := c == ' ' || c == '\t'

def isSpace (c : Char) : Bool := isBlank c || (10 ≤ c.toNat && c.toNat ≤ 13)

/-- Where `fgets` reads into, once it has read `s`: what lies behind the NUL is left. -/
def refill (s : List Char) (p : Ptr) : Ptr := s ++ NUL :: p.drop (s.length + 1)

/-- `toupper` on the string at `p`, in place. -/
def upper (p : Ptr) : Ptr := (cstr p).map Char.toUpper ++ p.drop (cstr p).length

theorem length_of_startsWith {p : Ptr} {t : String} (h : startsWith p t = true) :
    t.length ≤ p.length := by
  have hlen := congrArg List.length (beq_iff_eq.mp h)
  rw [List.length_take, String.length_toList] at hlen
  omega

/-- A text that ends before `t` does is not `t`, whatever is behind it. -/
theorem startsWith_append {t : String} (ht : NUL ∉ t.toList) (s : List Char) (z : Ptr) :
    startsWith (s ++ NUL :: z) t = startsWith s t := by
  rcases Nat.lt_or_ge s.length t.length with hlt | hle
  · have hnul : NUL ∈ (s ++ NUL :: z).take t.length := by
      rw [List.take_append, Nat.succ_pred_eq_of_pos (Nat.sub_pos_of_lt hlt) |>.symm]
      exact List.mem_append_right _ List.mem_cons_self
    have hleft : startsWith (s ++ NUL :: z) t = false :=
      beq_eq_false_iff_ne.mpr fun heq => ht (heq ▸ hnul)
    rw [hleft, Bool.eq_false_iff.mpr fun h => hlt.not_ge (length_of_startsWith h)]
  · rw [startsWith, startsWith, List.take_append_of_le_length hle]

/-- `strncmp (p, t, n) == 0 && f (p[n])`, where `n` is the length of `t`. -/
theorem startsWith_and_append {t : String} (ht : NUL ∉ t.toList) (f : Char → Bool)
    (s : List Char) (z : Ptr) :
    (startsWith (s ++ NUL :: z) t && f (deref ((s ++ NUL :: z).drop t.length))) =
      (startsWith s t && f (deref (s.drop t.length))) := by
  rw [startsWith_append ht]
  cases h : startsWith s t with
  | false => rfl
  | true =>
    rw [List.drop_append_of_le_length (length_of_startsWith h)]
    cases s.drop t.length
    all_goals rfl

/-! ## Up to a character -/

theorem bne_of_notMem {s : List Char} {c : Char} (h : c ∉ s) : ∀ d ∈ s, (d != c) = true := by
  intro d hd
  refine bne_iff_ne.mpr ?_
  rintro rfl
  exact h hd

theorem takeWhile_ne_append {s : List Char} {c : Char} (h : c ∉ s) (t : List Char) :
    (s ++ c :: t).takeWhile (· != c) = s := by
  rw [List.takeWhile_append_of_pos (bne_of_notMem h), List.takeWhile_cons_of_neg (by simp),
    List.append_nil]

theorem dropWhile_ne_append {s : List Char} {c : Char} (h : c ∉ s) (t : List Char) :
    (s ++ c :: t).dropWhile (· != c) = c :: t := by
  rw [List.dropWhile_append_of_pos (bne_of_notMem h), List.dropWhile_cons_of_neg (by simp)]

/-! ## Walking along a string -/

/-- `while (*p && f (*p)) p++;` in the string `s`. -/
def scan (f : Char → Bool) (s : List Char) (p : ℕ) : ℕ := p + ((s.drop p).takeWhile f).length

/-- `strchr (s, c)`. -/
def strchr (s : List Char) (c : Char) : Option ℕ := s.findIdx? (· == c)

theorem le_scan (f : Char → Bool) (s : List Char) (p : ℕ) : p ≤ scan f s p := Nat.le_add_right _ _

/-- A walk sees nothing but the classes of the characters. -/
theorem scan_congr {f : Char → Bool} {s t : List Char} (h : s.map f = t.map f) (p : ℕ) :
    scan f s p = scan f t p := by
  have hlength (s : List Char) :
      ((s.drop p).takeWhile f).length = (((s.map f).drop p).takeWhile id).length := by
    rw [← List.map_drop, List.takeWhile_map, List.length_map]
    rfl
  rw [scan, scan, hlength, hlength, h]

theorem strchr_congr {c : Char} {s t : List Char} (h : s.map (· == c) = t.map (· == c)) :
    strchr s c = strchr t c := by
  have hmap (s : List Char) : strchr s c = (s.map (· == c)).findIdx? id := by
    rw [List.findIdx?_map]
    rfl
  rw [hmap, hmap, h]

/-- Writing another character of the same class. -/
theorem map_set_of_eq {γ : Type} {f : Char → γ} {s : List Char} {k : ℕ} {old new : Char}
    (hk : s[k]? = some old) (h : f new = f old) : (s.set k new).map f = s.map f := by
  have hmap : (s.map f)[k]? = some (f new) := by rw [List.getElem?_map, hk, Option.map_some, h]
  obtain ⟨hlt, hget⟩ := List.getElem?_eq_some_iff.mp hmap
  rw [List.map_set, ← hget, List.set_getElem_self]

theorem takeWhile_set {f : Char → Bool} {s : List Char} {k : ℕ} {old new : Char}
    (hk : s[k]? = some old) (h : f new = f old) :
    (s.set k new).takeWhile f = (s.takeWhile f).set k new := by
  have hscan := scan_congr (map_set_of_eq hk h) 0
  simp only [scan, List.drop_zero, Nat.zero_add] at hscan
  rw [List.prefix_iff_eq_take.mp (List.takeWhile_prefix (l := s.set k new) f), hscan, List.take_set,
    ← List.prefix_iff_eq_take.mp (List.takeWhile_prefix f)]

/-! ## Numbers -/

/-- The value of a digit, and 36 for what is no digit in any base. -/
def digitValue (c : Char) : ℕ :=
  if c.isDigit then c.toNat - 48
  else if c.isAlpha then c.toUpper.toNat - 55
  else 36

/-- The digits of `base` at the start of a text, read as a number. -/
def readDigits (base : ℕ) (s : List Char) : ℕ :=
  (s.takeWhile fun c => digitValue c < base).foldl (fun v c => v * base + digitValue c) 0

/-- In base 16 the digits may follow `0x`. -/
def skipPrefix (base : ℕ) (s : List Char) : List Char :=
  if base = 16 ∧ (s.take 2 = ['0', 'x'] ∨ s.take 2 = ['0', 'X']) ∧
    digitValue (deref (s.drop 2)) < 16 then s.drop 2 else s

/-- From `<ctype.h>`. -/
def isXDigit (c : Char) : Bool := digitValue c < 16

def LONG_MAX : ℕ := 2 ^ 63 - 1

/-- What a `long` of 64 bits makes of a result: two's complement, also where it overflows. -/
def toLong (v : ℤ) : ℤ := v.bmod (2 ^ 64)

/-- `strtol (s, NULL, base)` of a text that starts with a digit. -/
def strtol (base : ℕ) (s : List Char) : ℤ := min (readDigits base (skipPrefix base s)) LONG_MAX

def hexDigit (d : ℕ) : Char := if d < 10 then Char.ofNat (48 + d) else Char.ofNat (55 + d)

/-- The `k` lowest hexadecimal digits. -/
def hexLow : ℕ → ℕ → List Char
  | 0, _ => []
  | k + 1, n => hexLow k (n / 16) ++ [hexDigit (n % 16)]

/-- `%0wlX`: at least `w` digits, and as many as it takes. -/
def hex (w n : ℕ) : List Char := hexLow (max w (n.log2 / 4 + 1)) n

/-- `%u`. -/
def decimal (n : ℕ) : List Char := Nat.toDigits 10 n

/-- The sum of some bytes. -/
def byteSum (bs : List ℕ) : ℕ := bs.foldr (· + ·) 0

/-- `%02X` of one byte after the other. -/
def hexBytes (bs : List ℕ) : List Char := bs.flatMap (hexLow 2)

example : hex 4 0x1A = "001A".toList := by decide

example : strtol 16 "0x1FH".toList = 31 := by decide

example : toLong (LONG_MAX + 1) = -2 ^ 63 := by decide

/-! ## Reading lines -/

/-- `fgets (line, size, f)`: fewer than `size` characters, and none after a newline. -/
def getLine (size : ℕ) (text : List Char) : List Char :=
  let text := text.take (size - 1)
  text.take ((text.takeWhile (· != '\n')).length + 1)

/-- `while (fgets (line, size, f))`, for at most `n` lines. -/
def getLines (size : ℕ) : ℕ → List Char → List (List Char)
  | 0, _ => []
  | _, [] => []
  | n + 1, text => getLine size text :: getLines size n (text.drop (getLine size text).length)

/-- A line, newline included, that one call reads whole. -/
def FitsLine (size : ℕ) (l : List Char) : Prop :=
  ∃ body, l = body ++ ['\n'] ∧ '\n' ∉ body ∧ body.length + 1 < size

theorem FitsLine.ne_nil {size : ℕ} {l : List Char} (h : FitsLine size l) : l ≠ [] := by
  obtain ⟨body, rfl, -, -⟩ := h
  simp

theorem getLine_append {size : ℕ} {l : List Char} (h : FitsLine size l) (rest : List Char) :
    getLine size (l ++ rest) = l := by
  obtain ⟨body, rfl, hbody, hlen⟩ := h
  obtain ⟨t, ht⟩ : ∃ t, (body ++ ['\n'] ++ rest).take (size - 1) = body ++ '\n' :: t := by
    rw [List.append_assoc, List.take_append, List.take_of_length_le (by omega),
      List.singleton_append]
    obtain ⟨n, hn⟩ := Nat.exists_eq_succ_of_ne_zero (n := size - 1 - body.length) (by omega)
    rw [hn, List.take_succ_cons]
    exact ⟨_, rfl⟩
  rw [getLine, ht, takeWhile_ne_append hbody, List.take_length_add_append]
  rfl

/-- **The lines of a text** are read in order, up to the limit. -/
theorem getLines_flatten {size : ℕ} {lines : List (List Char)}
    (h : ∀ l ∈ lines, FitsLine size l) (n : ℕ) :
    getLines size n lines.flatten = lines.take n := by
  induction n generalizing lines with
  | zero =>
    rw [List.take_zero, getLines]
  | succ n ih =>
    cases lines with
    | nil => rfl
    | cons l lines =>
      have hl := h l List.mem_cons_self
      rw [getLines]
      · rw [List.flatten_cons, getLine_append hl, List.drop_left, List.take_succ_cons,
          ih fun l' hl' => h l' (List.mem_cons_of_mem _ hl')]
      · rw [List.flatten_cons]
        exact List.append_ne_nil_of_left_ne_nil hl.ne_nil _

/-- What follows the lines does not change them. -/
theorem getLines_flatten_append {size : ℕ} {lines : List (List Char)}
    (h : ∀ l ∈ lines, FitsLine size l) (rest : List Char) :
    getLines size lines.length (lines.flatten ++ rest) = lines := by
  induction lines with
  | nil => rw [List.length_nil, getLines]
  | cons l lines ih =>
    have hl := h l List.mem_cons_self
    rw [List.length_cons, List.flatten_cons, List.append_assoc, getLines]
    · rw [getLine_append hl, List.drop_left, ih fun l' hl' => h l' (List.mem_cons_of_mem _ hl')]
    · exact List.append_ne_nil_of_left_ne_nil hl.ne_nil _

/-- A text has at least as many characters as lines. -/
theorem length_le_of_fitsLine {size : ℕ} {lines : List (List Char)}
    (h : ∀ l ∈ lines, FitsLine size l) : lines.length ≤ lines.flatten.length := by
  induction lines with
  | nil => exact Nat.le_refl _
  | cons l lines ih =>
    have hl := List.length_pos_of_ne_nil (h l List.mem_cons_self).ne_nil
    have hrest := ih fun l' hl' => h l' (List.mem_cons_of_mem _ hl')
    rw [List.flatten_cons, List.length_append, List.length_cons]
    omega

/-! ## Printing and reading -/

theorem hexDigit_spec : ∀ d : Fin 16, (hexDigit d).isAlphanum = true ∧
    digitValue (hexDigit d) = d ∧ hexDigit d ≠ 'x' ∧ hexDigit d ≠ 'X' ∧
    ((hexDigit d).isDigit = true ↔ (d : ℕ) < 10) ∧
    ((hexDigit d).isAlpha = true ↔ ¬ (d : ℕ) < 10) ∧ hexDigit d ≠ 'N' ∧
    (hexDigit d).toUpper = hexDigit d := by
  decide

theorem length_hexLow (k n : ℕ) : (hexLow k n).length = k := by
  induction k generalizing n with
  | zero => rfl
  | succ k ih => rw [hexLow, List.length_append, ih, List.length_singleton]

theorem mem_hexLow {k n : ℕ} {c : Char} (h : c ∈ hexLow k n) : ∃ d : Fin 16, c = hexDigit d := by
  induction k generalizing n with
  | zero => exact absurd h List.not_mem_nil
  | succ k ih =>
    rw [hexLow] at h
    rcases List.mem_append.mp h with h | h
    · exact ih h
    · exact ⟨⟨n % 16, Nat.mod_lt _ (by decide)⟩, List.mem_singleton.mp h⟩

/-- The highest digit. -/
theorem hexLow_succ (k n : ℕ) :
    hexLow (k + 1) n = hexDigit (n / 16 ^ k % 16) :: hexLow k n := by
  induction k generalizing n with
  | zero => simp [hexLow]
  | succ k ih =>
    rw [hexLow, ih, List.cons_append, Nat.div_div_eq_div_mul, ← Nat.pow_succ']
    rfl

theorem hexLow_add (j k n : ℕ) : hexLow (j + k) n = hexLow j (n / 16 ^ k) ++ hexLow k n := by
  induction k generalizing n with
  | zero => simp [hexLow]
  | succ k ih =>
    rw [← Nat.add_assoc, hexLow, hexLow, ih, Nat.div_div_eq_div_mul, ← Nat.pow_succ',
      List.append_assoc]

/-- Digits are independent of what is above them. -/
theorem hexLow_mod (k n : ℕ) : hexLow k (n % 16 ^ k) = hexLow k n := by
  induction k generalizing n with
  | zero => rfl
  | succ k ih =>
    have hdiv : n % 16 ^ (k + 1) / 16 = n / 16 % 16 ^ k := by
      rw [Nat.pow_succ', Nat.mod_mul_right_div_self]
    have hmod : n % 16 ^ (k + 1) % 16 = n % 16 := by
      rw [Nat.pow_succ', Nat.mod_mul_right_mod]
    rw [hexLow, hexLow, hdiv, hmod, ih]

@[simp] theorem byteSum_nil : byteSum [] = 0 := rfl

@[simp] theorem byteSum_cons (b : ℕ) (bs : List ℕ) : byteSum (b :: bs) = b + byteSum bs := rfl

@[simp] theorem byteSum_append (bs cs : List ℕ) :
    byteSum (bs ++ cs) = byteSum bs + byteSum cs := by
  induction bs with
  | nil => simp
  | cons b bs ih => simp [ih, Nat.add_assoc]

theorem length_hexBytes (bs : List ℕ) : (hexBytes bs).length = 2 * bs.length := by
  induction bs with
  | nil => rfl
  | cons b bs ih =>
    rw [hexBytes, List.flatMap_cons, List.length_append, length_hexLow, ← hexBytes, ih,
      List.length_cons]
    omega

theorem hexBytes_append (bs cs : List ℕ) : hexBytes (bs ++ cs) = hexBytes bs ++ hexBytes cs :=
  List.flatMap_append

/-- The digits of the bytes from the `i`th on. -/
theorem drop_hexBytes {bs : List ℕ} {i : ℕ} (h : i ≤ bs.length) (rest : List Char) :
    (hexBytes bs ++ rest).drop (2 * i) = hexBytes (bs.drop i) ++ rest := by
  have hlen : (hexBytes (bs.take i)).length = 2 * i := by
    rw [length_hexBytes, List.length_take, Nat.min_eq_left h]
  conv_lhs => rw [← List.take_append_drop i bs]
  rw [hexBytes_append, List.append_assoc, ← hlen, List.drop_left]

theorem foldl_hexLow (k n v : ℕ) :
    (hexLow k n).foldl (fun v c => v * 16 + digitValue c) v = v * 16 ^ k + n % 16 ^ k := by
  induction k generalizing n v with
  | zero => simp [hexLow, Nat.mod_one]
  | succ k ih =>
    have hdigit := (hexDigit_spec ⟨n % 16, Nat.mod_lt _ (by decide)⟩).2.1
    have hmod : n % 16 ^ (k + 1) = n / 16 % 16 ^ k * 16 + n % 16 := by
      rw [Nat.pow_succ', Nat.mod_mul]
      omega
    rw [hexLow, List.foldl_append, ih, List.foldl_cons, List.foldl_nil, hdigit, hmod, Nat.pow_succ]
    change (v * 16 ^ k + n / 16 % 16 ^ k) * 16 + n % 16 = _
    rw [Nat.add_mul, Nat.mul_assoc, Nat.add_assoc]

/-- **What `%X` prints, `strtol` reads back.** -/
theorem strtol_hexLow {k n : ℕ} (hn : n < 16 ^ k) (hmax : n ≤ LONG_MAX) :
    strtol 16 (hexLow k n) = n := by
  have hprefix : skipPrefix 16 (hexLow k n) = hexLow k n := by
    refine if_neg fun h => ?_
    have hx : ∃ c ∈ hexLow k n, c = 'x' ∨ c = 'X' := by
      rcases h.2.1 with htake | htake
      · exact ⟨'x', List.mem_of_mem_take (by rw [htake]; simp), Or.inl rfl⟩
      · exact ⟨'X', List.mem_of_mem_take (by rw [htake]; simp), Or.inr rfl⟩
    obtain ⟨c, hc, hcx⟩ := hx
    obtain ⟨d, rfl⟩ := mem_hexLow hc
    rcases hcx with hcx | hcx
    · exact (hexDigit_spec d).2.2.1 hcx
    · exact (hexDigit_spec d).2.2.2.1 hcx
  have hall : (hexLow k n).takeWhile (fun c => digitValue c < 16) = hexLow k n := by
    rw [List.takeWhile_eq_self_iff]
    intro c hc
    obtain ⟨d, rfl⟩ := mem_hexLow hc
    rw [(hexDigit_spec d).2.1]
    exact decide_eq_true d.isLt
  rw [strtol, hprefix, readDigits, hall, foldl_hexLow, Nat.zero_mul, Nat.zero_add,
    Nat.mod_eq_of_lt hn]
  exact Int.min_eq_left (Int.ofNat_le.mpr hmax)

/-- A number that fits is printed with exactly `w` digits. -/
theorem hex_eq_hexLow {w n : ℕ} (hw : 0 < w) (hn : n < 16 ^ w) : hex w n = hexLow w n := by
  have hle : n.log2 / 4 + 1 ≤ w := by
    rcases Nat.eq_zero_or_pos n with rfl | hpos
    · exact hw
    · have hlog : n.log2 < 4 * w := by
        rw [Nat.log2_lt hpos.ne', Nat.pow_mul]
        exact hn
      omega
  rw [hex, Nat.max_eq_left hle]

end CString
