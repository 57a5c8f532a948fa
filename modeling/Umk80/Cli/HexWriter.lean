import Umk80.Cli.IntelHex
import Umk80.Lib.WhileLoop

/-!
# Records beyond the top of the address space

`save_hex` counts in 32-bit variables, of which only the addresses of the data are cut to 16 bits.
The address of a record is printed as it is, with `%04X`, which gives at least four digits and not
at most four. So a range that runs past FFFFh is written properly as long as its last record starts
below: the bytes wrap round, as everywhere else. A record that starts beyond FFFFh gets a fifth
digit, which shifts everything behind it.

With a length of more than 2^32 - 16 the counter comes round without passing the length, and the
loop never ends.

## Main definitions

* `HexSave`, `saveHex32` — the loop with its variables
* `DataLine`, `WritesHex` — what is to hold of a line, and of a call

## Main results

* `saveHex32_eq_saveHex` — with natural numbers for the variables nothing changes while no address
  leaves the 32 bits
* `writesHex_iff` — a call writes a proper file exactly if its last record starts at or below FFFFh
-/

namespace Umk80

open CString WhileLoop

/-! ## The loop -/

/-- The counter of the loop of `save_hex`, and the file. -/
structure HexSave where
  i : U32
  file : List Char

/-- One round of the loop. -/
def HexSave.round (mem : Memory) (addr : U16) (len : U32) (s : HexSave) : HexSave :=
  let n := if len - s.i < 16 then len - s.i else 16
  let a := addr.setWidth 32 + s.i
  let bytes := (List.range n.toNat).map fun k => mem.peek ((a + BitVec.ofNat 32 k).setWidth 16)
  let sum := bytes.foldl (fun sum b => sum + b.setWidth 32) (n + (a >>> 8 &&& 0xFF) + (a &&& 0xFF))
  { i := s.i + 16
    file := s.file ++ (":".toList ++ hex 2 n.toNat ++ hex 4 a.toNat ++ "00".toList ++
      bytes.flatMap (fun b => hex 2 b.toNat) ++
      hex 2 ((0x100 - (sum &&& 0xFF)) &&& 0xFF).toNat ++ "\n".toList) }

/-- `save_hex` for at most `fuel` rounds: the file, and what is printed. -/
def saveHex32 (fuel : ℕ) (path : List Char) (mem : Memory) (addr : U16) (len : U32) :
    Option (List Char × List Char) :=
  (whileLoop (fun s => s.i < len) (HexSave.round mem addr len) fuel ⟨0, []⟩).map fun s =>
    (s.file ++ ":00000001FF\n".toList,
      path ++ ": ".toList ++ decimal len.toNat ++ " bytes from ".toList ++ hex 4 addr.toNat ++
        " (Intel HEX)\n".toList)

theorem toNat_foldl_add (bs : List U8) (sum : U32) :
    (bs.foldl (fun sum b => sum + b.setWidth 32) sum).toNat =
      (sum.toNat + byteSum (bs.map BitVec.toNat)) % 2 ^ 32 := by
  induction bs generalizing sum with
  | nil => exact (Nat.mod_eq_of_lt sum.isLt).symm
  | cons b bs ih =>
    rw [List.foldl_cons, ih, BitVec.toNat_add, BitVec.toNat_setWidth, List.map_cons, byteSum_cons]
    omega

/-- The checksum in 32 bits. Only the lowest eight of the sum count. -/
theorem toNat_checksum (bs : List U8) (n a : U32) :
    (((0x100 : U32) - (bs.foldl (fun sum b => sum + b.setWidth 32)
      (n + (a >>> 8 &&& 0xFF) + (a &&& 0xFF)) &&& 0xFF)) &&& 0xFF).toNat =
      (0x100 - bs.foldl (fun sum b => sum + b.toNat)
        (n.toNat + a.toNat / 256 % 256 + a.toNat % 256) % 256) % 256 := by
  have hbound : (0x100 : U32).toNat = 0x100 := rfl
  rw [toNat_and_ff, BitVec.toNat_sub, toNat_and_ff, toNat_foldl_add, foldl_add_toNat,
    BitVec.toNat_add, BitVec.toNat_add, toNat_and_ff, toNat_and_ff, toNat_shift_eight,
    hbound]
  omega

/-- **A round** in 32 bits is one in natural numbers, as long as the address of the record fits. -/
theorem HexSave.round_eq (mem : Memory) {addr : U16} {len : U32} {s : HexSave} (hi : s.i < len)
    (h : addr.toNat + s.i.toNat < 2 ^ 32) : HexSave.round mem addr len s =
      ⟨s.i + 16, s.file ++ saveRecord mem addr len.toNat s.i.toNat⟩ := by
  have haddr := addr.isLt
  have hlen := len.isLt
  have hlt : s.i.toNat < len.toNat := hi
  have hsub : (len - s.i).toNat = len.toNat - s.i.toNat := by
    rw [BitVec.toNat_sub_of_le (BitVec.le_of_lt hi)]
  have hn : (if len - s.i < 16 then len - s.i else 16).toNat =
      if len.toNat - s.i.toNat < 16 then len.toNat - s.i.toNat else 16 := by
    have hiff : len - s.i < 16 ↔ len.toNat - s.i.toNat < 16 := by
      rw [BitVec.lt_def, hsub]
      exact Iff.rfl
    by_cases hshort : len.toNat - s.i.toNat < 16
    · rw [if_pos (hiff.mpr hshort), if_pos hshort, hsub]
    · rw [if_neg (mt hiff.mp hshort), if_neg hshort]
      rfl
  have ha : (addr.setWidth 32 + s.i).toNat = addr.toNat + s.i.toNat := by
    rw [BitVec.toNat_add, BitVec.toNat_setWidth,
      Nat.mod_eq_of_lt (show addr.toNat < 2 ^ 32 by omega), Nat.mod_eq_of_lt h]
  have hbytes (n : ℕ) : (List.range n).map (fun k => mem.peek
      ((addr.setWidth 32 + s.i + BitVec.ofNat 32 k).setWidth 16)) =
        mem.bytes (addr.toNat + s.i.toNat) n := by
    refine List.map_congr_left fun k _ => congrArg mem.peek (BitVec.eq_of_toNat_eq ?_)
    rw [BitVec.toNat_setWidth, BitVec.toNat_add, ha, BitVec.toNat_ofNat, BitVec.toNat_ofNat]
    omega
  have hsum := toNat_checksum (mem.bytes (addr.toNat + s.i.toNat)
    (if len - s.i < 16 then len - s.i else 16).toNat) (if len - s.i < 16 then len - s.i else 16)
    (addr.setWidth 32 + s.i)
  simp only [HexSave.round, hbytes, hsum]
  rw [ha, hn]
  rfl

/-- The rounds whose record is not beyond the 32 bits, one after the other. -/
theorem HexSave.iterate_round (mem : Memory) {addr : U16} {len : U32} {n : ℕ}
    (h : ∀ j < n, 16 * j < len.toNat ∧ addr.toNat + 16 * j < 2 ^ 32) :
    (HexSave.round mem addr len)^[n] ⟨0, []⟩ = ⟨BitVec.ofNat 32 (16 * n),
      (List.range n).flatMap fun j => saveRecord mem addr len.toNat (16 * j)⟩ := by
  induction n with
  | zero => rfl
  | succ n ih =>
    obtain ⟨hi, haddr⟩ := h n n.lt_succ_self
    have hlen := len.isLt
    have hnat : (BitVec.ofNat 32 (16 * n)).toNat = 16 * n := by
      rw [BitVec.toNat_ofNat, Nat.mod_eq_of_lt (hi.trans hlen)]
    have hlt : BitVec.ofNat 32 (16 * n) < len := by
      rw [BitVec.lt_def, hnat]
      exact hi
    rw [Function.iterate_succ_apply', ih fun j hj => h j (hj.trans n.lt_succ_self),
      HexSave.round_eq mem hlt (hnat.symm ▸ haddr), List.range_succ, List.flatMap_append,
      List.flatMap_singleton, hnat, Nat.mul_succ, BitVec.ofNat_add]
    rfl

/-- The condition of the loop at the start of a round. -/
theorem HexSave.lt_iterate_round (mem : Memory) {addr : U16} {len : U32} {n : ℕ}
    (h : ∀ j < n, 16 * j < len.toNat ∧ addr.toNat + 16 * j < 2 ^ 32) (hn : 16 * n < 2 ^ 32) :
    ((HexSave.round mem addr len)^[n] ⟨0, []⟩).i < len ↔ 16 * n < len.toNat := by
  rw [HexSave.iterate_round mem h, BitVec.lt_def, BitVec.toNat_ofNat, Nat.mod_eq_of_lt hn]

/-- **The two writers agree** while neither the counter nor an address leaves the 32 bits. -/
theorem saveHex32_eq_saveHex (path : List Char) (mem : Memory) {addr : U16} {len : U32}
    (hlen : len.toNat ≤ 2 ^ 32 - 16) (haddr : addr.toNat + len.toNat ≤ 2 ^ 32) {fuel : ℕ}
    (hfuel : (len.toNat + 15) / 16 ≤ fuel) :
    saveHex32 fuel path mem addr len = some (saveHex path mem addr len.toNat) := by
  have hrounds : ∀ j < (len.toNat + 15) / 16,
      16 * j < len.toNat ∧ addr.toNat + 16 * j < 2 ^ 32 := by
    intro j hj
    constructor
    · omega
    · omega
  have hloop : whileLoop (fun s => s.i < len) (HexSave.round mem addr len) fuel ⟨0, []⟩ =
      some ((HexSave.round mem addr len)^[(len.toNat + 15) / 16] ⟨0, []⟩) := by
    refine whileLoop_eq_some_iff.mpr ⟨_, hfuel, rfl, ?_, fun j hj => ?_⟩
    · refine decide_eq_false fun hlt => ?_
      have hend := (HexSave.lt_iterate_round mem hrounds (by omega)).mp hlt
      omega
    · refine decide_eq_true ?_
      have hbefore : ∀ i < j, 16 * i < len.toNat ∧ addr.toNat + 16 * i < 2 ^ 32 :=
        fun i hi => hrounds i (hi.trans hj)
      exact (HexSave.lt_iterate_round mem hbefore (by omega)).mpr (hrounds j hj).1
  rw [saveHex32, hloop, Option.map_some, HexSave.iterate_round mem hrounds]
  rfl

/-! ## Proper files -/

/-- The line of a data record: `:`, and two digits for each of `n + 5` bytes, of which the first is
`n` and the fourth the type 0, and which add up to a multiple of 256. -/
def DataLine (l : List Char) : Prop :=
  ∃ (n : ℕ) (bs : List ℕ), l = ':' :: hexBytes bs ++ ['\n'] ∧ (∀ b ∈ bs, b < 256) ∧
    bs.length = n + 5 ∧ bs[0]? = some n ∧ bs[3]? = some 0 ∧ byteSum bs % 256 = 0

/-- What is to hold of a call: it returns, the file has the lines of data records before its end
record, and any machine can load it. -/
def WritesHex (path : List Char) (mem : Memory) (addr : U16) (len : U32) : Prop :=
  ∃ (N : ℕ) (out : List Char × List Char) (lines : List (List Char)),
    (∀ fuel ≥ N, saveHex32 fuel path mem addr len = some out) ∧
    out.1 = lines.flatten ++ ":00000001FF\n".toList ∧ (∀ l ∈ lines, DataLine l) ∧
    ∀ path' junk m', (loadHex path' junk m' out.1).1 = true

theorem DataLine.fitsLine {l : List Char} (h : DataLine l) : FitsLine 600 l := by
  obtain ⟨n, bs, rfl, hbytes, hlen, hcount, -⟩ := h
  have hn := hbytes n (List.mem_of_getElem? hcount)
  exact fitsLine_hexBytes (by omega)

theorem DataLine.length_even {l : List Char} (h : DataLine l) : l.length % 2 = 0 := by
  obtain ⟨n, bs, rfl, -⟩ := h
  rw [List.length_append, List.length_cons, length_hexBytes, List.length_singleton]
  omega

theorem HexRecord.dataLine_text {r : HexRecord} (h : r.type = 0) : DataLine r.text := by
  refine ⟨r.data.length, r.frame, rfl, fun b hb => r.lt_of_mem_frame hb, r.length_frame, rfl, ?_,
    r.sum_frame⟩
  rw [frame, body, h]
  rfl

/-- A call whose last record starts at or below FFFFh. -/
theorem writesHex_of_lt (path : List Char) (mem : Memory) {addr : U16} {len : U32}
    (h : ∀ j < (len.toNat + 15) / 16, addr.toNat + 16 * j < 2 ^ 16) :
    WritesHex path mem addr len := by
  have haddr := addr.isLt
  have hlen : len.toNat ≤ 2 ^ 16 + 16 := by
    by_contra hlong
    have hlast := h ((len.toNat + 15) / 16 - 1) (by omega)
    omega
  have hdata : ∀ r ∈ mem.records addr len.toNat, r.type = 0 := by
    intro r hr
    obtain ⟨j, -, rfl⟩ := List.mem_map.mp hr
    rfl
  have hfile := saveHex_eq_records path mem h
  refine ⟨_, saveHex path mem addr len.toNat, (mem.records addr len.toNat).map HexRecord.text,
    fun fuel hfuel => saveHex32_eq_saveHex path mem (by omega) (by omega) hfuel, ?_, ?_, ?_⟩
  · rw [hfile, List.flatten_append, List.flatten_singleton, text_endRecord]
  · intro l hl
    obtain ⟨r, hr, rfl⟩ := List.mem_map.mp hl
    exact r.dataLine_text (hdata r hr)
  · intro path' junk m'
    rw [hfile]
    exact (loadHex_records hdata (show endRecord.type = 1 from rfl) path' junk m').1

/-- A record that starts beyond FFFFh has a fifth digit in its address. -/
theorem saveRecord_beyond (mem : Memory) {addr : U16} (len : ℕ) {i : ℕ}
    (hlow : 0x10000 ≤ addr.toNat + i) (hhigh : addr.toNat + i < 0x100000) :
    FitsLine 600 (saveRecord mem addr len i) ∧ (saveRecord mem addr len i).length % 2 = 1 := by
  have hn := recordLength_le len i
  have hlog : (addr.toNat + i).log2 / 4 + 1 = 5 := by
    have hne : addr.toNat + i ≠ 0 := by omega
    have hle := (Nat.le_log2 hne (k := 16)).mpr hlow
    have hlt := (Nat.log2_lt hne (k := 20)).mpr hhigh
    omega
  have haddr : hex 4 (addr.toNat + i) = hexLow 5 (addr.toNat + i) := by
    rw [hex, hlog]
    rfl
  rw [saveRecord_eq, haddr]
  refine ⟨⟨_, rfl, ?_, ?_⟩, ?_⟩
  · simp only [List.mem_cons, List.mem_append, not_or]
    exact ⟨by decide, ⟨notMem_hexBytes (by decide) _, notMem_hexLow (by decide) _ _⟩,
      notMem_hexBytes (by decide) _⟩
  · simp only [List.length_cons, List.length_append, length_hexBytes, length_hexLow,
      List.length_map, Memory.length_bytes, List.length_nil]
    omega
  · simp only [List.length_cons, List.length_append, length_hexBytes, length_hexLow,
      List.length_map, Memory.length_bytes, List.length_nil]
    omega

/-- What is written stays written. -/
theorem HexSave.prefix_iterate (mem : Memory) (addr : U16) (len : U32) (n : ℕ) (s : HexSave) :
    s.file <+: ((HexSave.round mem addr len)^[n] s).file := by
  induction n generalizing s with
  | zero => exact List.prefix_refl _
  | succ n ih =>
    have hround : s.file <+: (HexSave.round mem addr len s).file := List.prefix_append _ _
    exact hround.trans (ih _)

/-- A call whose last record starts beyond FFFFh. The first such record, `first`, has an odd number
of characters, and all lines of a proper file have an even number. -/
theorem not_writesHex_of_le (path : List Char) (mem : Memory) {addr : U16} {len : U32} (last : ℕ)
    (hlast : 16 * last < len.toNat) (hbeyond : 0x10000 ≤ addr.toNat + 16 * last) :
    ¬ WritesHex path mem addr len := by
  rintro ⟨N, out, lines, hout, hfile, hlines, -⟩
  have haddr := addr.isLt
  have hlen := len.isLt
  obtain ⟨first, hfirst⟩ : ∃ first, first = (0x10000 - addr.toNat + 15) / 16 := ⟨_, rfl⟩
  have hrounds : ∀ n ≤ first + 1, ∀ j < n,
      16 * j < len.toNat ∧ addr.toNat + 16 * j < 2 ^ 32 := by
    intro n hn j hj
    constructor
    · omega
    · omega
  have hrun := hout N (Nat.le_refl N)
  rw [saveHex32, Option.map_eq_some_iff] at hrun
  obtain ⟨s, hs, rfl⟩ := hrun
  obtain ⟨k, -, rfl, hstop, -⟩ := whileLoop_eq_some_iff.mp hs
  -- the loop gets past the first record beyond the top
  have hk : first < k := by
    by_contra hle
    have hcond := HexSave.lt_iterate_round mem (hrounds k (by omega)) (by omega)
    exact absurd (hcond.mpr (by omega)) (of_decide_eq_false hstop)
  have hprefix := HexSave.prefix_iterate mem addr len (k - (first + 1))
    ((HexSave.round mem addr len)^[first + 1] ⟨0, []⟩)
  rw [← Function.iterate_add_apply, Nat.sub_add_cancel hk,
    HexSave.iterate_round mem (hrounds _ (Nat.le_refl _))] at hprefix
  have hwritten := List.append_cancel_right hfile
  rw [hwritten, List.flatMap_def] at hprefix
  obtain ⟨rest, hrest⟩ := hprefix
  have hfits : ∀ l ∈ (List.range (first + 1)).map fun j => saveRecord mem addr len.toNat (16 * j),
      FitsLine 600 l := by
    intro l hl
    obtain ⟨j, hj, rfl⟩ := List.mem_map.mp hl
    have hj := List.mem_range.mp hj
    rcases Nat.lt_or_ge (addr.toNat + 16 * j) (2 ^ 16) with hlt | hge
    · rw [saveRecord_eq_text mem hlt]
      exact HexRecord.fitsLine_text _
    · exact (saveRecord_beyond mem len.toNat hge (by omega)).1
  have hread := getLines_flatten_append hfits rest
  rw [hrest, getLines_flatten fun l hl => (hlines l hl).fitsLine] at hread
  have hmem : saveRecord mem addr len.toNat (16 * first) ∈ lines := by
    have hmap : saveRecord mem addr len.toNat (16 * first) ∈
        (List.range (first + 1)).map fun j => saveRecord mem addr len.toNat (16 * j) :=
      List.mem_map.mpr ⟨first, List.mem_range.mpr first.lt_succ_self, rfl⟩
    rw [← hread] at hmap
    exact List.mem_of_mem_take hmap
  have heven := (hlines _ hmem).length_even
  have hodd := (saveRecord_beyond mem len.toNat (show 0x10000 ≤ addr.toNat + 16 * first by omega)
    (by omega)).2
  omega

/-- **Proper files**: a call writes one exactly if it writes no record, or the last starts at or
below FFFFh. -/
theorem writesHex_iff (path : List Char) (mem : Memory) (addr : U16) (len : U32) :
    WritesHex path mem addr len ↔
      len = 0 ∨ addr.toNat + 16 * ((len.toNat - 1) / 16) ≤ 0xFFFF := by
  constructor
  · intro h
    by_contra hover
    obtain ⟨hlen, hlast⟩ := not_or.mp hover
    have hpos : 0 < len.toNat := by
      refine Nat.pos_of_ne_zero fun hzero => hlen (BitVec.eq_of_toNat_eq hzero)
    exact not_writesHex_of_le path mem ((len.toNat - 1) / 16) (by omega) (by omega) h
  · rintro (rfl | hlast)
    · exact writesHex_of_lt path mem fun j hj => absurd hj (by decide +revert)
    · exact writesHex_of_lt path mem fun j hj => by omega

/-- 20h bytes from FFF8h: the second record is for 10008h, which the reader takes for 1000h, the
type 80h and one digit of a byte. -/
theorem not_writesHex_beyond : ¬ WritesHex [] (Machine.init .rev1).toMemory 0xFFF8 0x20 :=
  not_writesHex_of_le [] _ 1 (by decide) (by decide)

end Umk80
