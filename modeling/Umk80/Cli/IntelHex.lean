import Umk80.Lib.CString
import Umk80.MemoryLaw

/-!
# Intel HEX

The console saves a range of addresses with `savehex` and loads it again with `loadhex`, from
`cli/umkcli.c`. The one prints records of at most 16 bytes with their checksums, the other reads
records of any length, and a file of the first kind puts back what was saved, whatever RAM holds by
then: what is saved from ROM or from where there is no memory is not written, and a cell that is
saved under two addresses is written twice with the same value.

A record is what both sides agree on. Writer and reader are each compared with it, and for a file
that is made of data records the reader is `umk_load_ram`.

The files are texts, so that they can always be opened.

## Main definitions

* `saveHex`, `loadHex` — what is written, and what becomes of the machine
* `HexRecord`, `HexRecord.text` — a record, and its line
* `Restores` — the saved cells are back, and nothing else is changed

## Main results

* `loadLine_text` — the reader on a record
* `saveHex_eq_records` — the writer prints records
* `loadHex_saveHex` — the round trip
-/

namespace Umk80

open CString Overlay

/-! ## Saving -/

/-- The bytes at `a`, `a + 1`, and so on. -/
def Memory.bytes (mem : Memory) (a n : ℕ) : List U8 :=
  (List.range n).map fun k => mem.peek (BitVec.ofNat 16 (a + k))

/-- One round of the loop of `save_hex`. -/
def saveRecord (mem : Memory) (addr : U16) (len i : ℕ) : List Char :=
  let n := if len - i < 16 then len - i else 16
  let a := addr.toNat + i
  let bytes := mem.bytes a n
  let sum := bytes.foldl (fun sum b => sum + b.toNat) (n + a / 256 % 256 + a % 256)
  ":".toList ++ hex 2 n ++ hex 4 a ++ "00".toList ++ bytes.flatMap (fun b => hex 2 b.toNat) ++
    hex 2 ((0x100 - sum % 256) % 256) ++ "\n".toList

/-- `save_hex`: the file, and what is printed. -/
def saveHex (path : List Char) (mem : Memory) (addr : U16) (len : ℕ) : List Char × List Char :=
  (((List.range ((len + 15) / 16)).flatMap fun j => saveRecord mem addr len (16 * j)) ++
      ":00000001FF\n".toList,
    path ++ ": ".toList ++ decimal len ++ " bytes from ".toList ++ hex 4 addr.toNat ++
      " (Intel HEX)\n".toList)

/-! ## Loading -/

/-- `hexb`. -/
def hexb (s : Ptr) : ℤ :=
  if isXDigit (deref s) && isXDigit (deref (s.drop 1)) then
    strtol 16 [deref s, deref (s.drop 1), NUL]
  else -1

/-- The machine, the variables of `load_hex`, and what is printed. -/
structure HexLoad where
  machine : Machine
  line : Ptr
  total : ℕ
  lineno : ℕ
  printed : List Char

/-- How a round of the loop ends. -/
inductive Round
  | next
  | stop
  | fail
deriving DecidableEq

namespace HexLoad

def print (s : HexLoad) (text : List Char) : HexLoad := { s with printed := s.printed ++ text }

/-- A message with the number of the line. -/
def report (s : HexLoad) (text : List Char) : HexLoad :=
  s.print ("line ".toList ++ decimal s.lineno ++ ": ".toList ++ text ++ "\n".toList)

/-- The loop over the bytes of a record: the machine, and the sum. -/
def loadData (line : Ptr) (addr : U32) (type : ℤ) (len : ℕ) (m : Machine) (sum : ℤ) :
    Machine × ℤ :=
  (List.range len).foldl (fun (m, sum) i =>
    let b := hexb (line.drop (9 + i * 2))
    (if type = 0 then m.poke ((addr + BitVec.ofNat 32 i).setWidth 16) (BitVec.ofInt 8 b) else m,
      sum + b)) (m, sum)

/-- One round of the loop of `load_hex`, for what `fgets` has read. -/
def loadLine (s : HexLoad) (raw : List Char) : Round × HexLoad :=
  let line := refill raw s.line
  let s := { s with line := line, lineno := s.lineno + 1 }
  if deref line ≠ ':' then (.next, s)
  else
    let len := hexb (line.drop 1)
    if len < 0 then (.fail, s.report "unreadable record".toList)
    else
      let addr : U32 := BitVec.ofInt 32 (hexb (line.drop 3)) <<< 8 |||
        BitVec.ofInt 32 (hexb (line.drop 5))
      let type := hexb (line.drop 7)
      let sum := len + (addr >>> 8 &&& 0xFF).toNat + (addr &&& 0xFF).toNat + type
      let (machine, sum) := loadData line addr type len.toNat s.machine sum
      let s := { s with machine := machine }
      let want := hexb (line.drop (9 + len.toNat * 2))
      if (sum + want) % 256 ≠ 0 then (.fail, s.report "bad checksum".toList)
      else if type = 0 then (.next, { s with total := s.total + len.toNat })
      else if type = 1 then (.stop, s)
      else
        (.next, s.report ("record type ".toList ++ hex 2 (BitVec.ofInt 32 type).toNat ++
          " ignored".toList))

/-- The loop of `load_hex`: whether it gets to its end. -/
def loadLines : HexLoad → List (List Char) → Bool × HexLoad
  | s, [] => (true, s)
  | s, raw :: rest =>
    match s.loadLine raw with
    | (.next, s) => s.loadLines rest
    | (.stop, s) => (true, s)
    | (.fail, s) => (false, s)

end HexLoad

/-- `load_hex`: what it returns, and its variables. Before the first call of `fgets` the buffer
holds `junk`. -/
def loadHex (path junk : List Char) (m : Machine) (file : List Char) : Bool × HexLoad :=
  match HexLoad.loadLines ⟨m, junk, 0, 0, []⟩ (getLines 600 file.length file) with
  | (true, s) =>
    (true, s.print (path ++ ": ".toList ++ decimal s.total ++
      " bytes loaded (Intel HEX)\n".toList))
  | (false, s) => (false, s)

/-! ## Records -/

theorem notMem_hexLow {c : Char} (hc : c.isAlphanum = false) (k n : ℕ) : c ∉ hexLow k n := by
  intro hmem
  obtain ⟨d, rfl⟩ := mem_hexLow hmem
  rw [(hexDigit_spec d).1] at hc
  cases hc

theorem notMem_hexBytes {c : Char} (hc : c.isAlphanum = false) (bs : List ℕ) :
    c ∉ hexBytes bs := by
  intro hmem
  obtain ⟨b, -, hb⟩ := List.mem_flatMap.mp hmem
  exact notMem_hexLow hc 2 b hb

theorem fitsLine_hexBytes {bs : List ℕ} (h : bs.length ≤ 260) :
    FitsLine 600 (':' :: hexBytes bs ++ ['\n']) := by
  refine ⟨':' :: hexBytes bs, rfl, ?_, ?_⟩
  · intro hmem
    rcases List.mem_cons.mp hmem with hcolon | hmem
    · exact absurd hcolon (by decide)
    · exact notMem_hexBytes (by decide) bs hmem
  · rw [List.length_cons, length_hexBytes]
    omega

/-- A record: its bytes are as many as two digits can count. -/
structure HexRecord where
  addr : U16
  type : U8
  data : List U8
  short : data.length < 256

namespace HexRecord

/-- What the checksum is about. -/
def body (r : HexRecord) : List ℕ :=
  r.data.length :: r.addr.toNat / 256 :: r.addr.toNat % 256 :: r.type.toNat ::
    r.data.map BitVec.toNat

/-- All bytes of a record. With the checksum they add up to a multiple of 256. -/
def frame (r : HexRecord) : List ℕ := r.body ++ [(256 - byteSum r.body % 256) % 256]

/-- The line of a record. -/
def text (r : HexRecord) : List Char := ':' :: hexBytes r.frame ++ ['\n']

theorem lt_of_mem_frame {r : HexRecord} {b : ℕ} (h : b ∈ r.frame) : b < 256 := by
  have haddr := r.addr.isLt
  have htype := r.type.isLt
  have hshort := r.short
  simp only [frame, body, List.mem_append, List.mem_cons, List.mem_map, List.not_mem_nil,
    or_false] at h
  rcases h with (rfl | rfl | rfl | rfl | ⟨v, -, rfl⟩) | rfl
  · exact hshort
  · omega
  · omega
  · exact htype
  · exact v.isLt
  · omega

theorem sum_frame (r : HexRecord) : byteSum r.frame % 256 = 0 := by
  simp only [frame, byteSum_append, byteSum_cons, byteSum_nil]
  omega

theorem length_frame (r : HexRecord) : r.frame.length = r.data.length + 5 := by
  simp [frame, body]

/-- The longest line of a record, 522 characters, fits into the buffer. -/
theorem fitsLine_text (r : HexRecord) : FitsLine 600 r.text := by
  refine fitsLine_hexBytes ?_
  have hshort := r.short
  rw [length_frame]
  omega

end HexRecord

/-! ## The reader -/

theorem lt_of_isXDigit {c : Char} (hc : isXDigit c = true) : digitValue c < 16 :=
  of_decide_eq_true hc

/-- Two digits and a NUL. -/
theorem strtol_digits {c d : Char} (hc : isXDigit c = true) (hd : isXDigit d = true) :
    strtol 16 [c, d, NUL] = ((digitValue c * 16 + digitValue d : ℕ) : ℤ) := by
  have hlt := lt_of_isXDigit hc
  have hlt' := lt_of_isXDigit hd
  have hprefix : skipPrefix 16 [c, d, NUL] = [c, d, NUL] := by
    refine if_neg fun h => ?_
    rcases h.2.1 with htake | htake
    · obtain rfl : d = 'x' := List.cons.inj (List.cons.inj htake).2 |>.1
      exact absurd hd (by decide)
    · obtain rfl : d = 'X' := List.cons.inj (List.cons.inj htake).2 |>.1
      exact absurd hd (by decide)
  have htake : [c, d, NUL].takeWhile (fun c => digitValue c < 16) = [c, d] := by
    change [c, d, NUL].takeWhile isXDigit = _
    rw [List.takeWhile_cons_of_pos hc, List.takeWhile_cons_of_pos hd,
      List.takeWhile_cons_of_neg (by decide)]
  have hmax : digitValue c * 16 + digitValue d ≤ LONG_MAX := by
    rw [LONG_MAX]
    omega
  rw [strtol, hprefix, readDigits, htake, List.foldl_cons, List.foldl_cons, List.foldl_nil,
    Nat.zero_mul, Nat.zero_add]
  exact Int.min_eq_left (Int.ofNat_le.mpr hmax)

/-- The value of a pair that is there. -/
theorem hexb_of_digits {s : Ptr} (hc : isXDigit (deref s) = true)
    (hd : isXDigit (deref (s.drop 1)) = true) :
    hexb s = ((digitValue (deref s) * 16 + digitValue (deref (s.drop 1)) : ℕ) : ℤ) := by
  rw [hexb, if_pos (Bool.and_eq_true_iff.mpr ⟨hc, hd⟩)]
  exact strtol_digits hc hd

theorem hexb_range (s : Ptr) : hexb s = -1 ∨ ∃ b < 256, hexb s = (b : ℕ) := by
  cases h : isXDigit (deref s) && isXDigit (deref (s.drop 1)) with
  | false =>
    left
    rw [hexb, h]
    rfl
  | true =>
    obtain ⟨hc, hd⟩ := Bool.and_eq_true_iff.mp h
    have hlt := lt_of_isXDigit hc
    have hlt' := lt_of_isXDigit hd
    exact Or.inr ⟨_, by omega, hexb_of_digits hc hd⟩

theorem isXDigit_hexDigit (d : Fin 16) : isXDigit (hexDigit d) = true := by
  rw [isXDigit, (hexDigit_spec d).2.1]
  exact decide_eq_true d.isLt

/-- What `%02X` prints, `hexb` reads back. -/
theorem hexb_hexLow {b : ℕ} (hb : b < 256) (rest : List Char) : hexb (hexLow 2 b ++ rest) = b := by
  have hhigh : isXDigit (hexDigit (b / 16 % 16)) = true :=
    isXDigit_hexDigit ⟨b / 16 % 16, Nat.mod_lt _ (by decide)⟩
  have hlow : isXDigit (hexDigit (b % 16)) = true :=
    isXDigit_hexDigit ⟨b % 16, Nat.mod_lt _ (by decide)⟩
  have hvalue : digitValue (hexDigit (b / 16 % 16)) = b / 16 % 16 :=
    (hexDigit_spec ⟨b / 16 % 16, Nat.mod_lt _ (by decide)⟩).2.1
  have hvalue' : digitValue (hexDigit (b % 16)) = b % 16 :=
    (hexDigit_spec ⟨b % 16, Nat.mod_lt _ (by decide)⟩).2.1
  have hsum : digitValue (hexDigit (b / 16 % 16)) * 16 + digitValue (hexDigit (b % 16)) = b := by
    rw [hvalue, hvalue']
    omega
  rw [hexb_of_digits (s := hexLow 2 b ++ rest) hhigh hlow]
  exact congrArg Nat.cast hsum

/-- The bytes start at the odd positions of the line. -/
theorem hexb_refill (r : HexRecord) (old : Ptr) {i b : ℕ} (h : r.frame[i]? = some b) :
    hexb ((refill r.text old).drop (1 + 2 * i)) = b := by
  obtain ⟨hlt, hget⟩ := List.getElem?_eq_some_iff.mp h
  rw [refill, HexRecord.text, List.append_assoc, List.cons_append, Nat.add_comm,
    List.drop_succ_cons, drop_hexBytes hlt.le, List.drop_eq_getElem_cons hlt, hget, hexBytes,
    List.flatMap_cons, List.append_assoc]
  exact hexb_hexLow (HexRecord.lt_of_mem_frame (List.mem_of_getElem? h)) _

theorem add_one_add_ofNat (a : U16) (k : ℕ) :
    a + 1 + BitVec.ofNat 16 k = a + BitVec.ofNat 16 (k + 1) := by
  rw [BitVec.add_assoc, BitVec.ofNat_add, BitVec.add_comm 1]
  rfl

theorem ofNat_toNat_add (a : U16) (k : ℕ) :
    BitVec.ofNat 16 (a.toNat + k) = a + BitVec.ofNat 16 k := by
  rw [BitVec.ofNat_add, BitVec.ofNat_toNat, BitVec.setWidth_eq]

theorem Machine.loadRam_append (m : Machine) (addr : U16) (xs ys : List U8) :
    m.loadRam addr (xs ++ ys) =
      (m.loadRam addr xs).loadRam (addr + BitVec.ofNat 16 xs.length) ys := by
  induction xs generalizing m addr with
  | nil =>
    rw [List.nil_append, List.length_nil, BitVec.add_zero]
    rfl
  | cons x xs ih =>
    rw [List.cons_append, loadRam, ih, add_one_add_ofNat]
    rfl

/-- What a pair counts for: FFh when it cannot be read. -/
def pairByte (s : Ptr) : ℕ := if hexb s < 0 then 0xFF else (hexb s).toNat

theorem pairByte_of_nonneg {s : Ptr} {b : ℕ} (h : hexb s = b) : pairByte s = b := by
  rw [pairByte, h, if_neg (by omega), Int.toNat_natCast]

theorem hexb_emod (s : Ptr) : hexb s % 256 = (pairByte s : ℤ) % 256 := by
  rcases hexb_range s with h | ⟨b, -, h⟩
  · rw [pairByte, h]
    rfl
  · rw [pairByte_of_nonneg h, h]

theorem ofInt_hexb (s : Ptr) : BitVec.ofInt 8 (hexb s) = BitVec.ofNat 8 (pairByte s) := by
  rcases hexb_range s with h | ⟨b, -, h⟩
  · rw [pairByte, h]
    rfl
  · rw [pairByte_of_nonneg h, h, BitVec.ofInt_natCast]

/-- The address of a record, as the reader puts it together. -/
def foundAddress (line : Ptr) : U32 :=
  BitVec.ofInt 32 (hexb (line.drop 3)) <<< 8 ||| BitVec.ofInt 32 (hexb (line.drop 5))

/-- The bytes of the data, as the reader finds them in the buffer. -/
def foundData (line : Ptr) (len : ℕ) : List ℕ :=
  (List.range len).map fun i => pairByte (line.drop (9 + i * 2))

/-- What the reader adds up. A low address byte that cannot be read is -1, and takes the high one
with it. -/
def found (line : Ptr) (len : ℕ) : List ℕ :=
  len :: (if hexb (line.drop 5) < 0 then 0xFF else pairByte (line.drop 3)) ::
    pairByte (line.drop 5) :: pairByte (line.drop 7) ::
      foundData line len ++ [pairByte (line.drop (9 + len * 2))]

/-- The address in the 32-bit arithmetic of the reader. -/
theorem address_eq {h l : ℕ} (hh : h < 256) (hl : l < 256) :
    (BitVec.ofInt 32 (h : ℤ) <<< 8 ||| BitVec.ofInt 32 (l : ℤ)).toNat = h * 256 + l := by
  rw [BitVec.ofInt_natCast, BitVec.ofInt_natCast, BitVec.toNat_or, BitVec.toNat_shiftLeft,
    BitVec.toNat_ofNat, BitVec.toNat_ofNat, Nat.shiftLeft_eq,
    Nat.mod_eq_of_lt (show h < 2 ^ 32 by omega),
    Nat.mod_eq_of_lt (show h * 2 ^ 8 < 2 ^ 32 by omega),
    Nat.mod_eq_of_lt (show l < 2 ^ 32 by omega), ← Nat.shiftLeft_eq,
    ← Nat.shiftLeft_add_eq_or_of_lt (show l < 2 ^ 8 by omega), Nat.shiftLeft_eq]

theorem toNat_and_ff (x : U32) : (x &&& 0xFF).toNat = x.toNat % 256 := by
  rw [BitVec.toNat_and]
  exact Nat.and_two_pow_sub_one_eq_mod x.toNat 8

theorem toNat_shift_eight (x : U32) : (x >>> 8).toNat = x.toNat / 256 := by
  rw [BitVec.toNat_ushiftRight, Nat.shiftRight_eq_div_pow]

/-- The two bytes of the address in the sum. -/
theorem foundAddress_bytes (line : Ptr) :
    (foundAddress line >>> 8 &&& 0xFF).toNat =
        (if hexb (line.drop 5) < 0 then 0xFF else pairByte (line.drop 3)) ∧
      (foundAddress line &&& 0xFF).toNat = pairByte (line.drop 5) := by
  rw [toNat_and_ff, toNat_and_ff, toNat_shift_eight]
  rcases hexb_range (line.drop 5) with hlow | ⟨l, hl, hlow⟩
  · have hall : foundAddress line = BitVec.allOnes 32 := by
      rw [foundAddress, hlow]
      exact BitVec.or_allOnes
    have hff : pairByte (line.drop 5) = 0xFF := if_pos (by omega)
    rw [hall, hff, hlow, BitVec.toNat_allOnes, if_pos (by decide)]
    exact ⟨rfl, rfl⟩
  · rw [pairByte_of_nonneg hlow, hlow, if_neg (by omega)]
    rcases hexb_range (line.drop 3) with hhigh | ⟨h, hh, hhigh⟩
    · have hones : ∀ l < 256, (BitVec.ofInt 32 (-1) <<< 8 ||| BitVec.ofInt 32 (l : ℕ)).toNat =
          0xFFFFFF00 + l := by
        decide +kernel
      rw [foundAddress, hhigh, hlow, hones l hl, pairByte, hhigh, if_pos (by decide)]
      omega
    · rw [foundAddress, hhigh, hlow, address_eq hh hl, pairByte_of_nonneg hhigh]
      omega

theorem setWidth_add_ofNat (a : U32) (i : ℕ) :
    (a + BitVec.ofNat 32 i).setWidth 16 = a.setWidth 16 + BitVec.ofNat 16 i := by
  refine BitVec.eq_of_toNat_eq ?_
  simp only [BitVec.toNat_setWidth, BitVec.toNat_add, BitVec.toNat_ofNat]
  omega

theorem length_foundData (line : Ptr) (len : ℕ) : (foundData line len).length = len := by
  rw [foundData, List.length_map, List.length_range]

/-- **The loop over the bytes of a record** loads the data that it finds, if the type is 0. -/
theorem loadData_eq (line : Ptr) (addr : U32) (type : ℤ) (len : ℕ) (m : Machine) (sum : ℤ) :
    (HexLoad.loadData line addr type len m sum).1 =
        (if type = 0 then
          m.loadRam (addr.setWidth 16) ((foundData line len).map (BitVec.ofNat 8)) else m) ∧
      (HexLoad.loadData line addr type len m sum).2 % 256 =
        (sum + byteSum (foundData line len)) % 256 := by
  induction len with
  | zero => simp [HexLoad.loadData, foundData, Machine.loadRam]
  | succ len ih =>
    obtain ⟨hmachine, hsum⟩ := ih
    have hstep : HexLoad.loadData line addr type (len + 1) m sum =
        (if type = 0 then (HexLoad.loadData line addr type len m sum).1.poke
            ((addr + BitVec.ofNat 32 len).setWidth 16)
            (BitVec.ofInt 8 (hexb (line.drop (9 + len * 2))))
          else (HexLoad.loadData line addr type len m sum).1,
          (HexLoad.loadData line addr type len m sum).2 + hexb (line.drop (9 + len * 2))) := by
      rw [HexLoad.loadData, List.range_succ, List.foldl_append]
      rfl
    have hdata : foundData line (len + 1) =
        foundData line len ++ [pairByte (line.drop (9 + len * 2))] := by
      rw [foundData, List.range_succ, List.map_append]
      rfl
    rw [hstep, hdata]
    constructor
    · rw [hmachine]
      by_cases htype : type = 0
      · simp only [if_pos htype]
        rw [List.map_append, Machine.loadRam_append, List.length_map, length_foundData,
          setWidth_add_ofNat, ofInt_hexb]
        rfl
      · simp only [if_neg htype]
    · have hpair := hexb_emod (line.drop (9 + len * 2))
      rw [byteSum_append, byteSum_cons, byteSum_nil]
      omega

/-- **A round of the reader**: how it ends, and the machine. -/
theorem loadLine_eq (s : HexLoad) (raw : List Char) {line : Ptr} (hline : refill raw s.line = line)
    {len : ℕ} (hlen : hexb (line.drop 1) = len) (hcolon : deref line = ':') :
    (s.loadLine raw).1 = (if byteSum (found line len) % 256 ≠ 0 then .fail
        else if hexb (line.drop 7) = 1 then .stop else .next) ∧
      (s.loadLine raw).2.machine = if hexb (line.drop 7) = 0 then
        s.machine.loadRam ((foundAddress line).setWidth 16)
          ((foundData line len).map (BitVec.ofNat 8)) else s.machine := by
  obtain ⟨hpage, hbyte⟩ := foundAddress_bytes line
  have hload := loadData_eq line (foundAddress line) (hexb (line.drop 7)) len s.machine
  have hcheck (sum : ℤ) (hsum : sum % 256 = ((len : ℤ) +
      (foundAddress line >>> 8 &&& 0xFF).toNat + (foundAddress line &&& 0xFF).toNat +
      hexb (line.drop 7) + byteSum (foundData line len)) % 256) :
      (sum + hexb (line.drop (9 + len * 2))) % 256 ≠ 0 ↔ byteSum (found line len) % 256 ≠ 0 := by
    have htype := hexb_emod (line.drop 7)
    have hwant := hexb_emod (line.drop (9 + len * 2))
    rw [hpage, hbyte] at hsum
    rw [found, byteSum_append, byteSum_cons, byteSum_cons, byteSum_cons, byteSum_cons,
      byteSum_cons, byteSum_nil]
    omega
  generalize hstart : (len : ℤ) + (foundAddress line >>> 8 &&& 0xFF).toNat +
      (foundAddress line &&& 0xFF).toNat + hexb (line.drop 7) = start at hcheck
  obtain ⟨hmachine, hsum⟩ := hload start
  obtain ⟨m', sum, hrun⟩ : ∃ m' sum, HexLoad.loadData line (foundAddress line)
      (hexb (line.drop 7)) len s.machine start = (m', sum) := ⟨_, _, rfl⟩
  rw [hrun] at hmachine hsum
  have hlen0 : ¬ ((len : ℕ) : ℤ) < 0 := by omega
  rw [foundAddress] at hrun hstart
  simp only [HexLoad.loadLine, hline, hcolon, hlen, ne_eq, not_true_eq_false, if_false, hlen0,
    Int.toNat_natCast, hstart, hrun]
  by_cases hbad : byteSum (found line len) % 256 ≠ 0
  · rw [if_pos ((hcheck sum hsum).mpr hbad), if_pos hbad]
    exact ⟨rfl, hmachine⟩
  · rw [if_neg (mt (hcheck sum hsum).mp hbad), if_neg hbad]
    by_cases h0 : hexb (line.drop 7) = 0
    · have h1 : hexb (line.drop 7) ≠ 1 := by omega
      rw [if_pos h0, if_neg h1]
      exact ⟨rfl, hmachine⟩
    · rw [if_neg h0]
      by_cases h1 : hexb (line.drop 7) = 1
      · rw [if_pos h1, if_pos h1]
        exact ⟨rfl, hmachine⟩
      · rw [if_neg h1, if_neg h1]
        exact ⟨rfl, hmachine⟩

/-- A pair of the line of a record counts for the byte it was printed for. -/
theorem pairByte_refill (r : HexRecord) (old : Ptr) {i b : ℕ} (h : r.frame[i]? = some b) :
    pairByte ((refill r.text old).drop (1 + 2 * i)) = b :=
  pairByte_of_nonneg (hexb_refill r old h)

/-- What the reader finds in the line of a record. -/
theorem foundData_text (r : HexRecord) (old : Ptr) :
    foundData (refill r.text old) r.data.length = r.data.map BitVec.toNat := by
  refine List.ext_getElem ?_ fun i hi hi' => ?_
  · rw [length_foundData, List.length_map]
  · have hget : r.frame[4 + i]? = some (r.data.map BitVec.toNat)[i] := by
      rw [HexRecord.frame, HexRecord.body, Nat.add_comm,
        List.getElem?_append_left (by simpa using hi')]
      exact List.getElem?_eq_getElem hi'
    have hpair := pairByte_refill r old hget
    rw [show 1 + 2 * (4 + i) = 9 + i * 2 by omega] at hpair
    simp only [foundData, List.getElem_map, List.getElem_range]
    rw [hpair, List.getElem_map _]

theorem found_text (r : HexRecord) (old : Ptr) :
    found (refill r.text old) r.data.length = r.frame := by
  have hlow := hexb_refill r old (i := 2) rfl
  have hcheck := pairByte_refill r old (i := 4 + r.data.length)
    (show r.frame[4 + r.data.length]? = some ((256 - byteSum r.body % 256) % 256) by
      simp [HexRecord.frame, HexRecord.body, Nat.add_comm 4])
  rw [show 1 + 2 * (4 + r.data.length) = 9 + r.data.length * 2 by omega] at hcheck
  rw [found, if_neg (by rw [hlow]; omega), pairByte_refill r old (i := 1) rfl,
    pairByte_refill r old (i := 2) rfl, pairByte_refill r old (i := 3) rfl, foundData_text, hcheck]
  rfl

theorem foundAddress_text (r : HexRecord) (old : Ptr) :
    (foundAddress (refill r.text old)).setWidth 16 = r.addr := by
  have hhigh := hexb_refill r old (i := 1) rfl
  have hlow := hexb_refill r old (i := 2) rfl
  have ha := r.addr.isLt
  refine BitVec.eq_of_toNat_eq ?_
  rw [BitVec.toNat_setWidth, foundAddress, hhigh, hlow,
    address_eq (by omega) (Nat.mod_lt _ (by decide))]
  omega

/-- **The reader on a record**: it loads the data of a data record, and stops at an end record. -/
theorem loadLine_text (r : HexRecord) (s : HexLoad) :
    (s.loadLine r.text).1 = (if r.type = 1 then .stop else .next) ∧
      (s.loadLine r.text).2.machine =
        if r.type = 0 then s.machine.loadRam r.addr r.data else s.machine := by
  have hlen : hexb ((refill r.text s.line).drop 1) = (r.data.length : ℕ) :=
    hexb_refill r s.line (i := 0) rfl
  have htype : hexb ((refill r.text s.line).drop 7) = (r.type.toNat : ℕ) :=
    hexb_refill r s.line (i := 3) rfl
  have hkind (n : ℕ) (hn : n < 256) : ((r.type.toNat : ℕ) : ℤ) = n ↔ r.type = BitVec.ofNat 8 n := by
    rw [← BitVec.toNat_inj, BitVec.toNat_ofNat, Nat.mod_eq_of_lt hn, Int.natCast_inj]
  have hzero : ((r.type.toNat : ℕ) : ℤ) = 0 ↔ r.type = 0 := hkind 0 (by decide)
  have hone : ((r.type.toNat : ℕ) : ℤ) = 1 ↔ r.type = 1 := hkind 1 (by decide)
  have hsum : ¬ byteSum (found (refill r.text s.line) r.data.length) % 256 ≠ 0 := by
    rw [found_text, r.sum_frame]
    exact fun h => h rfl
  have hdata : (foundData (refill r.text s.line) r.data.length).map (BitVec.ofNat 8) = r.data := by
    rw [foundData_text, List.map_map]
    conv_rhs => rw [← List.map_id r.data]
    refine List.map_congr_left fun v _ => ?_
    rw [Function.comp_apply, BitVec.ofNat_toNat, BitVec.setWidth_eq]
    rfl
  obtain ⟨hround, hmachine⟩ := loadLine_eq s r.text rfl hlen rfl
  rw [hround, hmachine, if_neg hsum, htype, hdata, foundAddress_text]
  simp only [hzero, hone, and_self]

/-- What the records of a list do to a machine, one after the other. -/
def loadRecords (m : Machine) (rs : List HexRecord) : Machine :=
  rs.foldl (fun m r => m.loadRam r.addr r.data) m

/-- **The reader on a file** of data records and an end record. -/
theorem loadLines_records {rs : List HexRecord} (hrs : ∀ r ∈ rs, r.type = 0) {last : HexRecord}
    (hlast : last.type = 1) (s : HexLoad) :
    (s.loadLines (rs.map HexRecord.text ++ [last.text])).1 = true ∧
      (s.loadLines (rs.map HexRecord.text ++ [last.text])).2.machine =
        loadRecords s.machine rs := by
  induction rs generalizing s with
  | nil =>
    obtain ⟨hround, hmachine⟩ := loadLine_text last s
    rw [hlast, if_pos rfl] at hround
    rw [hlast, if_neg (by decide)] at hmachine
    obtain ⟨s', hs'⟩ : ∃ s', s.loadLine last.text = (.stop, s') := ⟨_, Prod.ext hround rfl⟩
    rw [hs'] at hmachine
    rw [List.map_nil, List.nil_append, HexLoad.loadLines, hs']
    exact ⟨rfl, hmachine⟩
  | cons r rs ih =>
    have hr := hrs r List.mem_cons_self
    obtain ⟨hround, hmachine⟩ := loadLine_text r s
    rw [hr, if_neg (by decide)] at hround
    rw [hr, if_pos rfl] at hmachine
    obtain ⟨s', hs'⟩ : ∃ s', s.loadLine r.text = (.next, s') := ⟨_, Prod.ext hround rfl⟩
    rw [hs'] at hmachine
    have hrest := ih (fun r' hr' => hrs r' (List.mem_cons_of_mem _ hr')) s'
    rw [List.map_cons, List.cons_append, HexLoad.loadLines, hs', loadRecords, List.foldl_cons,
      ← hmachine]
    exact hrest

theorem fitsLine_records (rs : List HexRecord) (last : HexRecord) :
    ∀ l ∈ rs.map HexRecord.text ++ [last.text], FitsLine 600 l := by
  intro l hl
  rcases List.mem_append.mp hl with hl | hl
  · obtain ⟨r, -, rfl⟩ := List.mem_map.mp hl
    exact r.fitsLine_text
  · obtain rfl := List.mem_singleton.mp hl
    exact last.fitsLine_text

/-- **The whole reader** on such a file. -/
theorem loadHex_records {rs : List HexRecord} (hrs : ∀ r ∈ rs, r.type = 0) {last : HexRecord}
    (hlast : last.type = 1) (path junk : List Char) (m : Machine) :
    (loadHex path junk m (rs.map HexRecord.text ++ [last.text]).flatten).1 = true ∧
      (loadHex path junk m (rs.map HexRecord.text ++ [last.text]).flatten).2.machine =
        loadRecords m rs := by
  have hfits := fitsLine_records rs last
  have hlines := getLines_flatten hfits (rs.map HexRecord.text ++ [last.text]).flatten.length
  rw [List.take_of_length_le (length_le_of_fitsLine hfits)] at hlines
  obtain ⟨hdone, hmachine⟩ := loadLines_records hrs hlast ⟨m, junk, 0, 0, []⟩
  obtain ⟨s, hs⟩ : ∃ s, HexLoad.loadLines ⟨m, junk, 0, 0, []⟩
      (rs.map HexRecord.text ++ [last.text]) = (true, s) := ⟨_, Prod.ext hdone rfl⟩
  rw [hs] at hmachine
  rw [loadHex, hlines, hs]
  exact ⟨rfl, hmachine⟩

/-! ## The writer -/

/-- How many bytes a record has. -/
def recordLength (len i : ℕ) : ℕ := if len - i < 16 then len - i else 16

theorem recordLength_le (len i : ℕ) : recordLength len i ≤ 16 := by
  rw [recordLength]
  split
  · omega
  · exact Nat.le_refl _

@[simp] theorem Memory.length_bytes (mem : Memory) (a n : ℕ) : (mem.bytes a n).length = n := by
  simp [bytes]

/-- The record with the bytes from `i` on. -/
def Memory.record (mem : Memory) (addr : U16) (len i : ℕ) : HexRecord where
  addr := BitVec.ofNat 16 (addr.toNat + i)
  type := 0
  data := mem.bytes (addr.toNat + i) (recordLength len i)
  short := by
    have hlen := recordLength_le len i
    rw [Memory.length_bytes]
    omega

/-- The end record. -/
def endRecord : HexRecord := ⟨0, 1, [], by decide⟩

theorem text_endRecord : endRecord.text = ":00000001FF\n".toList := by decide +kernel

theorem foldl_add_toNat (bs : List U8) (sum : ℕ) :
    bs.foldl (fun sum b => sum + b.toNat) sum = sum + byteSum (bs.map BitVec.toNat) := by
  induction bs generalizing sum with
  | nil => rfl
  | cons b bs ih => rw [List.foldl_cons, ih, List.map_cons, byteSum_cons, Nat.add_assoc]

theorem hex_two {b : ℕ} (hb : b < 256) : hex 2 b = hexLow 2 b := hex_eq_hexLow (by decide) hb

theorem flatMap_hex (bs : List U8) :
    bs.flatMap (fun b => hex 2 b.toNat) = hexBytes (bs.map BitVec.toNat) := by
  rw [hexBytes, List.flatMap_map]
  congr 1
  funext b
  exact hex_two b.isLt

/-- What a round prints: only the address has a variable number of digits. -/
theorem saveRecord_eq (mem : Memory) (addr : U16) (len i : ℕ) : saveRecord mem addr len i =
    ':' :: (hexBytes [recordLength len i] ++ hex 4 (addr.toNat + i) ++
      hexBytes (0 :: (mem.bytes (addr.toNat + i) (recordLength len i)).map BitVec.toNat ++
        [(256 - (recordLength len i + (addr.toNat + i) / 256 % 256 + (addr.toNat + i) % 256 +
          byteSum ((mem.bytes (addr.toNat + i) (recordLength len i)).map BitVec.toNat)) % 256) %
            256])) ++ ['\n'] := by
  have hn := recordLength_le len i
  change ":".toList ++ hex 2 (recordLength len i) ++ hex 4 (addr.toNat + i) ++ "00".toList ++
    (mem.bytes (addr.toNat + i) (recordLength len i)).flatMap (fun b => hex 2 b.toNat) ++
    hex 2 ((0x100 - (mem.bytes (addr.toNat + i) (recordLength len i)).foldl
      (fun sum b => sum + b.toNat) (recordLength len i + (addr.toNat + i) / 256 % 256 +
        (addr.toNat + i) % 256) % 256) % 256) ++ "\n".toList = _
  rw [flatMap_hex, foldl_add_toNat, hex_two (by omega), hex_two (Nat.mod_lt _ (by decide))]
  simp only [hexBytes, List.flatMap_cons, List.flatMap_append, List.flatMap_nil, List.append_assoc,
    List.cons_append, List.append_nil]
  rfl

/-- **A round of the writer** prints a record. -/
theorem saveRecord_eq_text (mem : Memory) {addr : U16} {len i : ℕ}
    (ha : addr.toNat + i < 2 ^ 16) :
    saveRecord mem addr len i = (mem.record addr len i).text := by
  have haddr : (mem.record addr len i).addr.toNat = addr.toNat + i := by
    rw [Memory.record, BitVec.toNat_ofNat, Nat.mod_eq_of_lt ha]
  have hbody : (mem.record addr len i).body = recordLength len i :: (addr.toNat + i) / 256 ::
      (addr.toNat + i) % 256 :: 0 ::
        (mem.bytes (addr.toNat + i) (recordLength len i)).map BitVec.toNat := by
    rw [HexRecord.body, haddr, Memory.record, Memory.length_bytes]
    rfl
  have hpage : (addr.toNat + i) / 256 % 256 = (addr.toNat + i) / 256 := Nat.mod_eq_of_lt (by omega)
  have hsplit : hex 4 (addr.toNat + i) =
      hexBytes [(addr.toNat + i) / 256, (addr.toNat + i) % 256] := by
    rw [hex_eq_hexLow (by decide) ha, hexLow_add 2 2, ← hexLow_mod 2 (addr.toNat + i)]
    rfl
  rw [saveRecord_eq, hpage, hsplit, HexRecord.text, HexRecord.frame, hbody, ← hexBytes_append,
    ← hexBytes_append]
  simp only [List.cons_append, List.nil_append, byteSum_cons, Nat.zero_add, Nat.add_assoc]

/-- The records of a file. -/
def Memory.records (mem : Memory) (addr : U16) (len : ℕ) : List HexRecord :=
  (List.range ((len + 15) / 16)).map fun j => mem.record addr len (16 * j)

/-- **The writer** prints records, and an end record, as long as no record starts beyond FFFFh. -/
theorem saveHex_eq_records (path : List Char) (mem : Memory) {addr : U16} {len : ℕ}
    (h : ∀ j < (len + 15) / 16, addr.toNat + 16 * j < 2 ^ 16) : (saveHex path mem addr len).1 =
      ((mem.records addr len).map HexRecord.text ++ [endRecord.text]).flatten := by
  have hrounds : (List.range ((len + 15) / 16)).map (fun j => saveRecord mem addr len (16 * j)) =
      (mem.records addr len).map HexRecord.text := by
    rw [Memory.records, List.map_map]
    refine List.map_congr_left fun j hj => ?_
    exact saveRecord_eq_text mem (h j (List.mem_range.mp hj))
  rw [List.flatten_append, List.flatten_singleton, text_endRecord, ← hrounds, ← List.flatMap_def]
  rfl

/-! ## The round trip -/

theorem Memory.bytes_append (mem : Memory) (a j k : ℕ) :
    mem.bytes a (j + k) = mem.bytes a j ++ mem.bytes (a + j) k := by
  rw [bytes, List.range_add, List.map_append, List.map_map, bytes, bytes]
  congr 1
  refine List.map_congr_left fun i _ => ?_
  rw [Function.comp_apply, Nat.add_assoc]

/-- Loading the records of a file loads what was saved. -/
theorem loadRecords_records (mem : Memory) (m : Machine) {addr : U16} {len : ℕ} :
    loadRecords m (mem.records addr len) = m.loadRam addr (mem.bytes addr.toNat len) := by
  have hprefix : ∀ n ≤ (len + 15) / 16,
      loadRecords m ((List.range n).map fun j => mem.record addr len (16 * j)) =
        m.loadRam addr (mem.bytes addr.toNat (min len (16 * n))) := by
    intro n
    induction n with
    | zero =>
      intro _
      rw [Nat.mul_zero, Nat.min_zero]
      rfl
    | succ n ih =>
      intro hn
      have hmin : min len (16 * (n + 1)) = 16 * n + recordLength len (16 * n) := by
        rw [recordLength]
        split
        · omega
        · omega
      have hfull : min len (16 * n) = 16 * n := by omega
      have hih := ih (by omega)
      rw [loadRecords, hfull] at hih
      rw [List.range_succ, List.map_append, loadRecords, List.foldl_append, hih, hmin,
        Memory.bytes_append, Machine.loadRam_append, Memory.length_bytes]
      have haddr : (mem.record addr len (16 * n)).addr = addr + BitVec.ofNat 16 (16 * n) :=
        ofNat_toNat_add addr _
      rw [List.map_singleton, List.foldl_cons, List.foldl_nil, haddr]
      rfl
  have hall := hprefix _ (Nat.le_refl _)
  rwa [Nat.min_eq_left (by omega)] at hall

theorem Memory.decode_eq_ram_iff (mem : Memory) (a : U16) (i : Fin 2048) :
    mem.decode a = some (.ram i) ↔ ramIndex mem.ramSize a = some i := by
  unfold decode ramIndex
  split
  · simp
  · split
    · simp
    · rw [Option.some.injEq, Option.some.injEq, Cell.ram.injEq]

theorem mem_loadWrites {w : U16 × U8} {addr : U16} {data : List U8} :
    w ∈ loadWrites addr data ↔ ∃ k, data[k]? = some w.2 ∧ w.1 = addr + BitVec.ofNat 16 k := by
  induction data generalizing addr with
  | nil => simp [loadWrites]
  | cons v data ih =>
    rw [loadWrites, List.mem_cons, ih]
    constructor
    · rintro (rfl | ⟨k, hk, haddr⟩)
      · exact ⟨0, rfl, (BitVec.add_zero _).symm⟩
      · exact ⟨k + 1, hk, by rw [haddr, add_one_add_ofNat addr k]⟩
    · rintro ⟨k, hk, haddr⟩
      cases k with
      | zero =>
        refine Or.inl (Prod.ext (by rw [haddr, BitVec.add_zero _]) ?_)
        exact (Option.some.inj hk).symm
      | succ k =>
        exact Or.inr ⟨k, hk, by rw [haddr, add_one_add_ofNat addr k]⟩

/-- What is to hold of `loaded` when a file, saved from `m`, is loaded into `m'`. -/
structure Restores (m m' loaded : Memory) (addr : U16) (len : ℕ) : Prop where
  /-- The RAM cells of the saved addresses are as they were saved. -/
  saved : ∀ k < len, ∀ i, m.decode (addr + BitVec.ofNat 16 k) = some (.ram i) →
    loaded.ram i = m.ram i
  others : ∀ i, (∀ k < len, m.decode (addr + BitVec.ofNat 16 k) ≠ some (.ram i)) →
    loaded.ram i = m'.ram i
  rom : loaded.rom = m'.rom
  romSize : loaded.romSize = m'.romSize
  ramSize : loaded.ramSize = m'.ramSize

/-- The writes that load the bytes of a memory. -/
theorem mem_loadWrites_bytes {w : U16 × U8} {mem : Memory} {addr : U16} {len : ℕ} :
    w ∈ loadWrites addr (mem.bytes addr.toNat len) ↔
      ∃ k < len, w = (addr + BitVec.ofNat 16 k, mem.peek (addr + BitVec.ofNat 16 k)) := by
  rw [mem_loadWrites]
  constructor
  · rintro ⟨k, hk, hw⟩
    obtain ⟨hlt, hget⟩ := List.getElem?_eq_some_iff.mp hk
    rw [Memory.length_bytes] at hlt
    refine ⟨k, hlt, Prod.ext hw ?_⟩
    rw [← hget]
    simp only [Memory.bytes, List.getElem_map, List.getElem_range, ofNat_toNat_add]
  · rintro ⟨k, hk, rfl⟩
    refine ⟨k, ?_, rfl⟩
    simp only [Memory.bytes, List.getElem?_map, List.getElem?_range hk, Option.map_some,
      ofNat_toNat_add]

/-- Loading what was saved puts it back. -/
theorem restores_loadRam (m : Memory) (m' : Machine) (hsize : m'.ramSize = m.ramSize) (addr : U16)
    (len : ℕ) : Restores m m'.toMemory (m'.loadRam addr (m.bytes addr.toNat len)).toMemory addr
      len := by
  have hstores := m'.stores_loadRam addr (m.bytes addr.toNat len)
  have hram (i : Fin 2048) : (m'.loadRam addr (m.bytes addr.toNat len)).ram i =
      (lastOver ((loadWrites addr (m.bytes addr.toNat len)).map (writeOverlay m.ramSize)) i).getD
        (m'.ram i) := by
    rw [hstores.ram, hsize, storeAll, foldl_overlay]
  refine ⟨fun k hk i hi => ?_, fun i hi => ?_, hstores.rom, hstores.romSize, hstores.ramSize⟩
  · rw [hram i]
    rw [lastOver_of_agree (v := m.ram i), Option.getD_some]
    · have hindex := (m.decode_eq_ram_iff _ i).mp hi
      refine ⟨_, List.mem_map_of_mem (mem_loadWrites_bytes.mpr ⟨k, hk, rfl⟩), ?_⟩
      simp [writeOverlay, hindex]
    · -- mirrored addresses are saved with the value of one and the same cell
      intro f hf w hw
      obtain ⟨write, hwrite, rfl⟩ := List.mem_map.mp hf
      obtain ⟨j, -, rfl⟩ := mem_loadWrites_bytes.mp hwrite
      obtain ⟨hindex, hw⟩ := Option.ite_none_right_eq_some.mp hw
      rw [← Option.some.inj hw, m.peek_of_ram hindex]
  · have hnone : lastOver ((loadWrites addr (m.bytes addr.toNat len)).map
        (writeOverlay m.ramSize)) i = none := by
      rw [← Option.not_isSome_iff_eq_none, lastOver_isSome_iff]
      rintro ⟨f, hf, hfi⟩
      obtain ⟨write, hwrite, rfl⟩ := List.mem_map.mp hf
      obtain ⟨j, hj, rfl⟩ := mem_loadWrites_bytes.mp hwrite
      obtain ⟨w, hw⟩ := Option.isSome_iff_exists.mp hfi
      obtain ⟨hindex, -⟩ := Option.ite_none_right_eq_some.mp hw
      exact hi j hj ((m.decode_eq_ram_iff _ i).mpr hindex)
    rw [hram, hnone, Option.getD_none]

/-- **The round trip**: `m'` is the machine at the time of loading, with the memory of the same
revision but with any content. -/
theorem loadHex_saveHex (path path' junk : List Char) (m m' : Machine)
    (hsize : m'.ramSize = m.ramSize) (addr : U16) (len : ℕ) (h : addr.toNat + len ≤ 0x10000) :
    (loadHex path' junk m' (saveHex path m.toMemory addr len).1).1 = true ∧
      Restores m.toMemory m'.toMemory
        (loadHex path' junk m' (saveHex path m.toMemory addr len).1).2.machine.toMemory
        addr len := by
  have hdata : ∀ r ∈ m.toMemory.records addr len, r.type = 0 := by
    intro r hr
    obtain ⟨j, -, rfl⟩ := List.mem_map.mp hr
    rfl
  obtain ⟨hdone, hmachine⟩ := loadHex_records hdata (show endRecord.type = 1 from rfl) path' junk m'
  rw [loadRecords_records] at hmachine
  rw [saveHex_eq_records path m.toMemory fun j hj => by omega]
  refine ⟨hdone, ?_⟩
  rw [hmachine]
  exact restores_loadRam m.toMemory m' hsize addr len

/-- On revision 1 the byte at 0805h is back after a power cycle, saved with a range that starts in
ROM, has every RAM cell twice and ends where there is no memory. -/
theorem loadHex_saveHex_mirror : (loadHex [] [] (Machine.init .rev1)
    (saveHex [] ((Machine.init .rev1).poke 0x0805 0x5A).toMemory 0x07F0 0x900).1).2.machine.ram 5 =
      0x5A := by
  rw [(loadHex_saveHex [] [] [] ((Machine.init .rev1).poke 0x0805 0x5A) (Machine.init .rev1) rfl
    0x07F0 0x900 (by decide)).2.saved 0x415 (by decide) 5 rfl]
  rfl

end Umk80
