import Umk80.Cli.IntelHex

/-!
# What the reader lets through

`load_hex` stores the bytes of a record while it adds them up, and looks at the checksum only
afterwards. So a rejected data record is in memory all the same, except for the bytes that memory
already holds or does not keep. `umk_load_rom` and `umk_state_load` check before they write.

And `hexb` says of a pair that it cannot be read by returning -1, which `load_hex` takes for a
byte everywhere but in the count. A pair of other characters counts for FFh then, in the address,
in the data and in the checksum; and behind the end of a short line there are a NUL and what an
earlier line has left in the buffer. Only the checksum may tell, and with the right sum it does
not.

## Main definitions

* `Reaches` — `load_hex` comes to a line, in some state
* `Atomic`, `Inert` — a rejected record leaves memory alone; the condition on the line
* `SpeltOut`, `ReadsOwn` — a well-formed line; what is accepted and stored comes from the line
* `Complete` — a line with as many digits as its count asks for

## Main results

* `atomic_iff` — rejected records have no effect exactly if they are inert
* `readsOwn_of_complete` — from a complete line, only what is well formed and its own is taken
* `readsOwn_iff_of_accepted` — for an accepted line this is exact
-/

namespace Umk80

open CString Overlay

/-! ## From line to line -/

namespace HexLoad

/-- The lines are read one after the other, and do not end the loop. -/
inductive Accepts : HexLoad → List (List Char) → HexLoad → Prop
  | nil (s : HexLoad) : Accepts s [] s
  | cons {s s' s'' : HexLoad} {raw : List Char} {lines : List (List Char)}
      (hline : s.loadLine raw = (.next, s')) (hlines : Accepts s' lines s'') :
      Accepts s (raw :: lines) s''

theorem Accepts.loadLines_append {s s' : HexLoad} {lines : List (List Char)}
    (h : Accepts s lines s') (rest : List (List Char)) :
    s.loadLines (lines ++ rest) = s'.loadLines rest := by
  induction h with
  | nil s => rfl
  | cons hline _ ih =>
    rw [List.cons_append, loadLines, hline]
    exact ih

/-- The loop fails at a line. -/
theorem exists_of_loadLines {s : HexLoad} {lines : List (List Char)}
    (h : (s.loadLines lines).1 = false) : ∃ before raw after s',
      lines = before ++ raw :: after ∧ Accepts s before s' ∧ (s'.loadLine raw).1 = .fail := by
  induction lines generalizing s with
  | nil => exact absurd h Bool.true_eq_false.mp
  | cons raw lines ih =>
    obtain ⟨round, s', hline⟩ : ∃ round s', s.loadLine raw = (round, s') := ⟨_, _, rfl⟩
    rw [loadLines, hline] at h
    cases round with
    | next =>
      obtain ⟨before, raw', after, s'', rfl, hbefore, hfail⟩ := ih h
      exact ⟨raw :: before, raw', after, s'', rfl, .cons hline hbefore, hfail⟩
    | stop => exact absurd h Bool.true_eq_false.mp
    | fail => exact ⟨[], raw, lines, s, rfl, .nil s, by rw [hline]⟩

/-- The line at which the loop fails. -/
theorem loadLines_of_fail {s s' : HexLoad} {before after : List (List Char)} {raw : List Char}
    (hbefore : Accepts s before s') (hfail : (s'.loadLine raw).1 = .fail) :
    s.loadLines (before ++ raw :: after) = (false, (s'.loadLine raw).2) := by
  obtain ⟨s'', hline⟩ : ∃ s'', s'.loadLine raw = (.fail, s'') := ⟨_, Prod.ext hfail rfl⟩
  rw [hbefore.loadLines_append, loadLines, hline]

end HexLoad

open HexLoad

/-- `load_hex` comes to the line `raw` in the state `s`: it has accepted all lines before. -/
def Reaches (junk : List Char) (m : Machine) (file raw : List Char) (s : HexLoad) : Prop :=
  ∃ before after, getLines 600 file.length file = before ++ raw :: after ∧
    HexLoad.Accepts ⟨m, junk, 0, 0, []⟩ before s

/-- What a failing load has done is what its last line has done. -/
theorem loadHex_of_fail {junk : List Char} {m : Machine} {file raw : List Char} {s : HexLoad}
    (h : Reaches junk m file raw s) (hfail : (s.loadLine raw).1 = .fail) (path : List Char) :
    loadHex path junk m file = (false, (s.loadLine raw).2) := by
  obtain ⟨before, after, hlines, hbefore⟩ := h
  rw [loadHex, hlines, loadLines_of_fail hbefore hfail]

/-- **Where a load fails**: at a line that it comes to. -/
theorem loadHex_eq_false_iff (path junk : List Char) (m : Machine) (file : List Char) :
    (loadHex path junk m file).1 = false ↔
      ∃ raw s, Reaches junk m file raw s ∧ (s.loadLine raw).1 = .fail := by
  constructor
  · intro h
    have hlines : (loadLines ⟨m, junk, 0, 0, []⟩ (getLines 600 file.length file)).1 = false := by
      rw [loadHex] at h
      split at h
      · exact absurd h Bool.true_eq_false.mp
      · rename_i s hs
        rw [hs]
    obtain ⟨before, raw, after, s, hsplit, hbefore, hfail⟩ := exists_of_loadLines hlines
    exact ⟨raw, s, ⟨before, after, hsplit, hbefore⟩, hfail⟩
  · rintro ⟨raw, s, hreach, hfail⟩
    rw [loadHex_of_fail hreach hfail]

/-! ## Rejected records -/

/-- A rejected record has no effect: memory is what it was before its line. -/
def Atomic (path junk : List Char) (m : Machine) (file : List Char) : Prop :=
  ∀ raw s, Reaches junk m file raw s → (s.loadLine raw).1 = .fail →
    (loadHex path junk m file).2.machine.toMemory = s.machine.toMemory

/-- The bytes that would be loaded are in memory already: each RAM cell holds the last of them that
is for this cell. -/
def AlreadyThere (mem : Memory) (addr : U16) (data : List U8) : Prop :=
  ∀ k v i, data[k]? = some v → ramIndex mem.ramSize (addr + BitVec.ofNat 16 k) = some i →
    (∀ k', k < k' → k' < data.length →
      ramIndex mem.ramSize (addr + BitVec.ofNat 16 k') ≠ some i) → mem.ram i = v

/-- The line has no count, or is no data record, or its data are in memory already. -/
def Inert (s : HexLoad) (raw : List Char) : Prop :=
  hexb ((refill raw s.line).drop 1) < 0 ∨ hexb ((refill raw s.line).drop 7) ≠ 0 ∨
    AlreadyThere s.machine.toMemory ((foundAddress (refill raw s.line)).setWidth 16)
      ((foundData (refill raw s.line) (hexb ((refill raw s.line).drop 1)).toNat).map
        (BitVec.ofNat 8))

theorem getElem?_loadWrites (addr : U16) (data : List U8) (k : ℕ) :
    (loadWrites addr data)[k]? = data[k]?.map fun v => (addr + BitVec.ofNat 16 k, v) := by
  induction data generalizing addr k with
  | nil => rfl
  | cons v data ih =>
    cases k with
    | zero =>
      rw [loadWrites, List.getElem?_cons_zero, List.getElem?_cons_zero, Option.map_some,
        BitVec.add_zero]
    | succ k =>
      rw [loadWrites, List.getElem?_cons_succ, List.getElem?_cons_succ, ih, add_one_add_ofNat]

theorem writeOverlay_eq_some_iff {ramSize : U16} {w : U16 × U8} {i : Fin 2048} {v : U8} :
    writeOverlay ramSize w i = some v ↔ ramIndex ramSize w.1 = some i ∧ w.2 = v := by
  rw [writeOverlay, Option.ite_none_right_eq_some, Option.some.injEq]

/-- **Loading changes nothing** exactly if everything is there already. -/
theorem loadRam_eq_self_iff (m : Machine) (addr : U16) (data : List U8) :
    (m.loadRam addr data).toMemory = m.toMemory ↔ AlreadyThere m.toMemory addr data := by
  have hstores := m.stores_loadRam addr data
  have hram : (m.loadRam addr data).toMemory = m.toMemory ↔
      ((loadWrites addr data).map (writeOverlay m.ramSize)).foldl overlay m.ram = m.ram := by
    constructor
    · intro h
      have hram := hstores.ram
      rw [show (m.loadRam addr data).ram = m.ram from congrArg Memory.ram h] at hram
      exact hram.symm
    · intro h
      have hsame : (m.loadRam addr data).ram = m.ram := by
        rw [hstores.ram]
        exact h
      calc (m.loadRam addr data).toMemory
          = ⟨(m.loadRam addr data).romSize, (m.loadRam addr data).ramSize,
              (m.loadRam addr data).rom, (m.loadRam addr data).ram⟩ := rfl
        _ = m.toMemory := by rw [hstores.romSize, hstores.ramSize, hstores.rom, hsame]
  have hget (k : ℕ) (f : Fin 2048 → Option U8) :
      ((loadWrites addr data).map (writeOverlay m.ramSize))[k]? = some f ↔
        ∃ v, data[k]? = some v ∧ writeOverlay m.ramSize (addr + BitVec.ofNat 16 k, v) = f := by
    simp [List.getElem?_map, getElem?_loadWrites]
  rw [hram, foldl_overlay_eq_self_iff]
  constructor
  · intro h k v i hk hi hlast
    refine h i v (lastOver_eq_some_iff.mpr ⟨k, _, (hget k _).mpr ⟨v, hk, rfl⟩,
      writeOverlay_eq_some_iff.mpr ⟨hi, rfl⟩, fun k' g hlt hk' => ?_⟩)
    obtain ⟨v', hv', rfl⟩ := (hget k' g).mp hk'
    exact if_neg (hlast k' hlt (List.getElem?_eq_some_iff.mp hv').1)
  · intro h i v hv
    obtain ⟨k, f, hk, hf, hlast⟩ := lastOver_eq_some_iff.mp hv
    obtain ⟨w, hw, rfl⟩ := (hget k f).mp hk
    obtain ⟨hi, rfl⟩ := writeOverlay_eq_some_iff.mp hf
    refine h k w i hw hi fun k' hlt hk' hi' => ?_
    have hnone := hlast k' _ hlt ((hget k' _).mpr ⟨_, List.getElem?_eq_getElem hk', rfl⟩)
    rw [writeOverlay_eq_some_iff.mpr ⟨hi', rfl⟩] at hnone
    exact absurd hnone (Option.some_ne_none _)

theorem exists_count {s : Ptr} (h : 0 ≤ hexb s) : ∃ n < 256, hexb s = (n : ℕ) := by
  rcases hexb_range s with hneg | hcount
  · omega
  · exact hcount

/-- A line without a count. -/
theorem loadLine_of_neg (s : HexLoad) (raw : List Char) (hcolon : deref (refill raw s.line) = ':')
    (h : hexb ((refill raw s.line).drop 1) < 0) :
    (s.loadLine raw).1 = .fail ∧ (s.loadLine raw).2.machine = s.machine := by
  simp only [loadLine, hcolon, h, ne_eq, not_true_eq_false, if_false, if_true]
  exact ⟨trivial, rfl⟩

theorem loadLine_of_ne (s : HexLoad) (raw : List Char) (h : deref (refill raw s.line) ≠ ':') :
    (s.loadLine raw).1 = .next ∧ (s.loadLine raw).2.machine = s.machine := by
  simp only [loadLine, h, ne_eq, not_false_eq_true, if_true]
  exact ⟨trivial, trivial⟩

/-- **A rejected line**: memory is unchanged exactly if the line is inert. -/
theorem toMemory_loadLine_iff {s : HexLoad} {raw : List Char} (h : (s.loadLine raw).1 = .fail) :
    (s.loadLine raw).2.machine.toMemory = s.machine.toMemory ↔ Inert s raw := by
  have hcolon : deref (refill raw s.line) = ':' := by
    by_contra hne
    rw [(loadLine_of_ne s raw hne).1] at h
    exact absurd h (by decide)
  rcases lt_or_ge (hexb ((refill raw s.line).drop 1)) 0 with hneg | hcount
  · rw [(loadLine_of_neg s raw hcolon hneg).2]
    exact iff_of_true rfl (Or.inl hneg)
  · obtain ⟨n, -, hn⟩ := exists_count hcount
    rw [(loadLine_eq s raw rfl hn hcolon).2, Inert, hn, Int.toNat_natCast]
    by_cases htype : hexb ((refill raw s.line).drop 7) = 0
    · rw [if_pos htype, loadRam_eq_self_iff]
      constructor
      · intro hthere
        exact Or.inr (Or.inr hthere)
      · rintro (hneg | hother | hthere)
        · omega
        · exact absurd htype hother
        · exact hthere
    · rw [if_neg htype]
      exact iff_of_true rfl (Or.inr (Or.inl htype))

/-- **Rejected records** have no effect exactly if the line that is rejected is inert. -/
theorem atomic_iff (path junk : List Char) (m : Machine) (file : List Char) :
    Atomic path junk m file ↔
      ∀ raw s, Reaches junk m file raw s → (s.loadLine raw).1 = .fail → Inert s raw := by
  refine forall_congr' fun raw => forall_congr' fun s => forall_congr' fun hreach =>
    forall_congr' fun hfail => ?_
  rw [loadHex_of_fail hreach hfail path]
  exact toMemory_loadLine_iff hfail

/-- One byte, 55h, for 0800h, and a checksum that is one too small: the byte is stored. -/
theorem not_atomic_checksum :
    ¬ Atomic [] [] (Machine.init .rev1) ":0108000055A1\n".toList := by
  intro h
  have hreach : Reaches [] (Machine.init .rev1) ":0108000055A1\n".toList
      ":0108000055A1\n".toList ⟨Machine.init .rev1, [], 0, 0, []⟩ :=
    ⟨[], [], by decide +kernel, .nil _⟩
  have hmem := h _ _ hreach (by decide +kernel)
  have hcell := congrFun (congrArg Memory.ram hmem) 0
  exact absurd hcell (by decide +kernel)

/-! ## Accepted records -/

/-- The `i`th byte behind the `:`, if the line itself has two digits there. -/
def ownByte (raw : List Char) (i : ℕ) : Option ℕ :=
  raw[1 + 2 * i]?.bind fun c => raw[2 + 2 * i]?.bind fun d =>
    if isXDigit c && isXDigit d then some (digitValue c * 16 + digitValue d) else none

/-- Behind the `:` the line starts with the digits of `n + 5` bytes, of which the first is `n`, and
which add up to a multiple of 256. -/
def SpeltOut (raw : List Char) : Prop :=
  ∃ (n : ℕ) (bs : List ℕ), bs.length = n + 5 ∧ bs[0]? = some n ∧
    (∀ i < n + 5, ownByte raw i = bs[i]?) ∧ byteSum bs % 256 = 0

/-- The bytes that a round stores. -/
def taken (s : HexLoad) (raw : List Char) : List U8 :=
  if deref (refill raw s.line) = ':' ∧ 0 ≤ hexb ((refill raw s.line).drop 1) ∧
      hexb ((refill raw s.line).drop 7) = 0 then
    (foundData (refill raw s.line) (hexb ((refill raw s.line).drop 1)).toNat).map (BitVec.ofNat 8)
  else []

/-- What is to hold of a line. -/
structure ReadsOwn (s : HexLoad) (raw : List Char) : Prop where
  /-- A line with a `:` is not accepted unless it is well formed. -/
  accepted : raw.head? = some ':' → (s.loadLine raw).1 ≠ .fail → SpeltOut raw
  /-- What is stored is spelt by digits of the line itself. -/
  stored : ∀ k v, (taken s raw)[k]? = some v → ownByte raw (4 + k) = some v.toNat

/-- A record whose count can be read has the digits of all its bytes on the line. -/
def Complete (raw : List Char) : Prop :=
  raw.head? = some ':' → ∀ n, ownByte raw 0 = some n → ∀ i < n + 5, (ownByte raw i).isSome

/-- **What a round stores.** -/
theorem machine_loadLine (s : HexLoad) (raw : List Char) : (s.loadLine raw).2.machine =
    s.machine.loadRam ((foundAddress (refill raw s.line)).setWidth 16) (taken s raw) := by
  by_cases hcolon : deref (refill raw s.line) = ':'
  · rcases lt_or_ge (hexb ((refill raw s.line).drop 1)) 0 with hneg | hcount
    · rw [(loadLine_of_neg s raw hcolon hneg).2, taken, if_neg (by omega), Machine.loadRam]
    · obtain ⟨n, -, hn⟩ := exists_count hcount
      rw [(loadLine_eq s raw rfl hn hcolon).2, taken, hn, Int.toNat_natCast]
      by_cases htype : hexb ((refill raw s.line).drop 7) = 0
      · rw [if_pos htype, if_pos ⟨hcolon, Int.natCast_nonneg n, htype⟩]
      · rw [if_neg htype, if_neg fun h => htype h.2.2, Machine.loadRam]
  · rw [(loadLine_of_ne s raw hcolon).2, taken, if_neg fun h => hcolon h.1, Machine.loadRam]

theorem deref_drop (l : Ptr) (k : ℕ) : deref (l.drop k) = l[k]?.getD NUL := by
  rw [deref, List.headD_eq_head?_getD, List.head?_drop]

/-- The text that was read stands at the front of the buffer. -/
theorem getElem?_refill {raw : List Char} {k : ℕ} {c : Char} (h : raw[k]? = some c) (old : Ptr) :
    (refill raw old)[k]? = some c := by
  obtain ⟨hlt, -⟩ := List.getElem?_eq_some_iff.mp h
  rw [refill, List.getElem?_append_left hlt, h]

theorem deref_refill_eq_colon (raw : List Char) (old : Ptr) :
    deref (refill raw old) = ':' ↔ raw.head? = some ':' := by
  cases raw with
  | nil => simp [refill, deref, NUL]
  | cons c raw => simp [refill, deref]

theorem ownByte_eq_some_iff {raw : List Char} {i b : ℕ} : ownByte raw i = some b ↔
    ∃ c d, raw[1 + 2 * i]? = some c ∧ raw[2 + 2 * i]? = some d ∧ isXDigit c = true ∧
      isXDigit d = true ∧ digitValue c * 16 + digitValue d = b := by
  simp [ownByte, Option.bind_eq_some_iff, and_assoc]

/-- Digits of the line are what is found in the buffer. -/
theorem hexb_of_ownByte {raw : List Char} {i b : ℕ} (h : ownByte raw i = some b) (old : Ptr) :
    hexb ((refill raw old).drop (1 + 2 * i)) = b := by
  obtain ⟨c, d, hc, hd, hxc, hxd, rfl⟩ := ownByte_eq_some_iff.mp h
  have hfirst : deref ((refill raw old).drop (1 + 2 * i)) = c := by
    rw [deref_drop, getElem?_refill hc, Option.getD_some]
  have hsecond : deref (((refill raw old).drop (1 + 2 * i)).drop 1) = d := by
    rw [List.drop_drop, deref_drop, show 1 + 2 * i + 1 = 2 + 2 * i by omega, getElem?_refill hd,
      Option.getD_some]
  rw [hexb_of_digits (by rw [hfirst]; exact hxc) (by rw [hsecond]; exact hxd), hfirst, hsecond]

theorem isXDigit_of_hexb {s : Ptr} (h : 0 ≤ hexb s) :
    isXDigit (deref s) = true ∧ isXDigit (deref (s.drop 1)) = true := by
  rw [← Bool.and_eq_true_iff]
  by_contra hno
  rw [hexb, if_neg hno] at h
  omega

/-- A count that can be read is the line's own: behind the line there is a NUL. -/
theorem ownByte_zero {raw : List Char} (hhead : raw.head? = some ':') {old : Ptr} {n : ℕ}
    (h : hexb ((refill raw old).drop 1) = n) : ownByte raw 0 = some n := by
  obtain ⟨hc, hd⟩ := isXDigit_of_hexb (s := (refill raw old).drop 1) (by omega)
  have hvalue := hexb_of_digits hc hd
  rw [h] at hvalue
  have hnul : isXDigit NUL = false := by decide
  rcases raw with - | ⟨_, - | ⟨c, - | ⟨d, rest⟩⟩⟩
  · exact absurd hhead.symm (Option.some_ne_none _)
  · change isXDigit NUL = true at hc
    rw [hnul] at hc
    cases hc
  · change isXDigit NUL = true at hd
    rw [hnul] at hd
    cases hd
  · exact ownByte_eq_some_iff.mpr ⟨c, d, rfl, rfl, hc, hd, (Int.natCast_inj.mp hvalue).symm⟩

/-- The bytes that are found, where the count and the low byte of the address can be read. -/
theorem found_eq {line : Ptr} {n : ℕ} (hcount : hexb (line.drop 1) = n)
    (hlow : 0 ≤ hexb (line.drop 5)) :
    found line n = (List.range (n + 5)).map fun i => pairByte (line.drop (1 + 2 * i)) := by
  have hdata : foundData line n =
      (List.range n).map fun i => pairByte (line.drop (1 + 2 * (4 + i))) := by
    refine List.map_congr_left fun i _ => ?_
    rw [show 1 + 2 * (4 + i) = 9 + i * 2 by omega]
  rw [found, if_neg (by omega), hdata, show n + 5 = 4 + n + 1 by omega, List.range_succ,
    List.range_add, List.map_append, List.map_append, List.map_map,
    show 9 + n * 2 = 1 + 2 * (4 + n) by omega]
  rw [show (List.range 4).map (fun i => pairByte (line.drop (1 + 2 * i))) =
    [n, pairByte (line.drop 3), pairByte (line.drop 5), pairByte (line.drop 7)] from
      congrArg (· :: _) (pairByte_of_nonneg hcount)]
  rfl

/-- A line with all its digits: what is found is what is on the line. -/
theorem ownByte_eq_found {raw : List Char} {old : Ptr} {n : ℕ}
    (hcount : hexb ((refill raw old).drop 1) = n)
    (hown : ∀ i < n + 5, (ownByte raw i).isSome) {i : ℕ} (hi : i < n + 5) :
    ownByte raw i = (found (refill raw old) n)[i]? := by
  obtain ⟨l, hl⟩ := Option.isSome_iff_exists.mp (hown 2 (by omega))
  obtain ⟨b, hb⟩ := Option.isSome_iff_exists.mp (hown i hi)
  have hlow := hexb_of_ownByte hl old
  rw [hb, found_eq hcount (by rw [show 5 = 1 + 2 * 2 from rfl, hlow]; omega), List.getElem?_map,
    List.getElem?_range hi, Option.map_some, pairByte_of_nonneg (hexb_of_ownByte hb old)]

/-- **An accepted line** is well formed exactly if it has all its digits. -/
theorem speltOut_iff {raw : List Char} (hhead : raw.head? = some ':') {old : Ptr} {n : ℕ}
    (hcount : hexb ((refill raw old).drop 1) = n)
    (hsum : byteSum (found (refill raw old) n) % 256 = 0) :
    SpeltOut raw ↔ ∀ i < n + 5, (ownByte raw i).isSome := by
  constructor
  · rintro ⟨n', bs, hlen, hfirst, hbs, -⟩ i hi
    obtain rfl : n' = n := by
      have hzero := hbs 0 (by omega)
      rw [ownByte_zero hhead hcount, hfirst] at hzero
      exact (Option.some.inj hzero).symm
    rw [hbs i hi, List.getElem?_eq_getElem (by omega)]
    rfl
  · intro hown
    refine ⟨n, found (refill raw old) n, ?_, rfl, fun i hi => ownByte_eq_found hcount hown hi, hsum⟩
    simp [found, length_foundData]

theorem getElem?_foundData (line : Ptr) {k n : ℕ} (hk : k < n) :
    (foundData line n)[k]? = some (pairByte (line.drop (1 + 2 * (4 + k)))) := by
  rw [foundData, List.getElem?_map, List.getElem?_range hk, Option.map_some,
    show 1 + 2 * (4 + k) = 9 + k * 2 by omega]

theorem ownByte_lt {raw : List Char} {i b : ℕ} (h : ownByte raw i = some b) : b < 256 := by
  obtain ⟨c, d, -, -, hxc, hxd, rfl⟩ := ownByte_eq_some_iff.mp h
  have hc := lt_of_isXDigit hxc
  have hd := lt_of_isXDigit hxd
  omega

/-- Of a line with the digits of all its data, those are what is stored. -/
theorem stored_of_isSome {s : HexLoad} {raw : List Char} {n : ℕ}
    (hcount : hexb ((refill raw s.line).drop 1) = n)
    (hown : ∀ k < n, (ownByte raw (4 + k)).isSome) {k : ℕ} {v : U8}
    (hv : (taken s raw)[k]? = some v) : ownByte raw (4 + k) = some v.toNat := by
  rw [taken, hcount, Int.toNat_natCast] at hv
  split at hv
  · rw [List.getElem?_map, Option.map_eq_some_iff] at hv
    obtain ⟨b, hb, rfl⟩ := hv
    have hk : k < n := by
      have hlt := (List.getElem?_eq_some_iff.mp hb).1
      rwa [length_foundData] at hlt
    obtain ⟨b', hb'⟩ := Option.isSome_iff_exists.mp (hown k hk)
    rw [getElem?_foundData _ hk, pairByte_of_nonneg (hexb_of_ownByte hb' s.line)] at hb
    obtain rfl := Option.some.inj hb
    rw [hb', BitVec.toNat_ofNat, Nat.mod_eq_of_lt (ownByte_lt hb')]
  · exact absurd hv (by simp)

/-- **One line**, in whatever state it is read. -/
theorem Complete.readsOwn {raw : List Char} (h : Complete raw) (s : HexLoad) : ReadsOwn s raw := by
  by_cases hhead : raw.head? = some ':'
  · have hcolon := (deref_refill_eq_colon raw s.line).mpr hhead
    rcases lt_or_ge (hexb ((refill raw s.line).drop 1)) 0 with hneg | hnonneg
    · -- the count cannot be read, and the line is rejected for it
      have htaken : taken s raw = [] := if_neg fun h => by omega
      refine ⟨fun _ haccepted => absurd (loadLine_of_neg s raw hcolon hneg).1 haccepted, ?_⟩
      intro k v hv
      rw [htaken] at hv
      exact absurd hv (by simp)
    · obtain ⟨n, -, hn⟩ := exists_count hnonneg
      have hown := h hhead n (ownByte_zero hhead hn)
      refine ⟨fun _ haccepted => (speltOut_iff hhead hn ?_).mpr hown, fun k v hv =>
        stored_of_isSome hn (fun k hk => hown (4 + k) (by omega)) hv⟩
      by_contra hsum
      rw [(loadLine_eq s raw rfl hn hcolon).1, if_pos hsum] at haccepted
      exact haccepted rfl
  · have htaken : taken s raw = [] :=
      if_neg fun h => hhead ((deref_refill_eq_colon raw s.line).mp h.1)
    refine ⟨fun h => absurd h hhead, fun k v hv => ?_⟩
    rw [htaken] at hv
    exact absurd hv (by simp)

/-- Of an accepted line the condition is exact. -/
theorem readsOwn_iff_of_accepted {s : HexLoad} {raw : List Char}
    (haccepted : (s.loadLine raw).1 ≠ .fail) : ReadsOwn s raw ↔ Complete raw := by
  refine ⟨fun h hhead n hn => ?_, fun h => h.readsOwn s⟩
  have hcount : hexb ((refill raw s.line).drop 1) = n := hexb_of_ownByte hn s.line
  refine (speltOut_iff hhead hcount ?_).mp (h.accepted hhead haccepted)
  by_contra hsum
  have hcolon := (deref_refill_eq_colon raw s.line).mpr hhead
  rw [(loadLine_eq s raw rfl hcount hcolon).1, if_pos hsum] at haccepted
  exact haccepted rfl

/-- **Every complete line** that the reader comes to is accepted only if it is well formed, and what
it stores is spelt by digits of that line. -/
theorem readsOwn_of_complete (junk : List Char) (m : Machine) (file : List Char) :
    ∀ raw s, Reaches junk m file raw s → Complete raw → ReadsOwn s raw :=
  fun _ s _ h => h.readsOwn s

/-- A file with one byte, whose record is accepted. -/
theorem readsOwn_of_complete_oneByte :
    ReadsOwn ⟨Machine.init .rev1, [], 0, 0, []⟩ ":0108000055A2\n".toList ∧
      (HexLoad.loadLine ⟨Machine.init .rev1, [], 0, 0, []⟩ ":0108000055A2\n".toList).1 = .next := by
  refine ⟨?_, by decide +kernel⟩
  refine readsOwn_of_complete [] (Machine.init .rev1) ":0108000055A2\n".toList _ _
    ⟨[], [], by decide +kernel, .nil _⟩ ?_
  intro _ n hn
  have hone : ownByte ":0108000055A2\n".toList 0 = some 1 := by decide
  rw [hone] at hn
  obtain rfl := Option.some.inj hn
  decide

/-- The data byte `GG` of this record counts for FFh, and the checksum fits: FFh is stored, and the
record is accepted. -/
theorem not_readsOwn_letters : ¬ ∀ raw s, Reaches [] (Machine.init .rev1)
    ":01080000GGF8\n".toList raw s → ReadsOwn s raw := by
  intro h
  have hreach : Reaches [] (Machine.init .rev1) ":01080000GGF8\n".toList
      ":01080000GGF8\n".toList ⟨Machine.init .rev1, [], 0, 0, []⟩ :=
    ⟨[], [], by decide +kernel, .nil _⟩
  have hown := (h _ _ hreach).stored 0 0xFF (by decide +kernel)
  exact absurd hown (by decide +kernel)

end Umk80
