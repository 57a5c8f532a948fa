import Umk80.Listing.Umkrom

/-!
# Verifying the ROM

The image of the ROM is made twice: `umkrom` places the object code of the listing, and `umkasm`
assembles the source column and compares. An error in the object code that leaves the source column
alone cannot pass both tools. Where the byte is placed once, the image changes and the source does
not; where another line holds the same byte, `umkrom` reports the conflict.

Neither case needs to be told apart. A listing that `umkrom` accepts has all of its object code in
the image, so the byte on either side of the change would have to be what the source assembles to.

## Main definitions

* `umkasmVerify` — `umkasm` with `--verify`
* `InObj` — an index into the OBJ token of a line

## Main results

* `parseRow_set`, `sourceOf_set` — another digit in the object code of a line
* `exists_byte_ne` — it changes a byte
* `transcription_error_detected` — one of the tools fails
-/

namespace Umk80

open CString

/-! ## Comparing the images -/

def IMAGE_MAX : ℕ := 65536

/-- The addresses at which an image differs from a file. -/
def differences (image : ℕ → U8) (ref : List U8) : List ℕ :=
  (ref.zipIdx.filter fun p => image p.2 != p.1).map Prod.snd

/-- What `main` of `umkasm` returns when it is called with `--verify`. -/
def umkasmVerify (imageSize : ℤ) (source : List Char) (file : List U8) : ℕ :=
  match umkasm imageSize source with
  | none => 1
  | some image =>
    let ref := file.take IMAGE_MAX
    if (ref.length : ℤ) ≠ imageSize then 1
    else if differences image ref ≠ [] then 1
    else 0

theorem image_eq_of_differences {image : ℕ → U8} {ref : List U8} (h : differences image ref = [])
    {k : ℕ} {v : U8} (hk : ref[k]? = some v) : image k = v := by
  have hnone := List.filter_eq_nil_iff.mp (List.map_eq_nil_iff.mp h) (v, k)
    (List.mem_zipIdx_iff_getElem?.mpr hk)
  simpa using hnone

/-- What the source assembles to, if the comparison succeeds. -/
theorem exists_image_of_verify {imageSize : ℤ} {source : List Char} {r : Rom}
    (h : umkasmVerify imageSize source r.file = 0) :
    ∃ image, umkasm imageSize source = some image ∧ ∀ i : Fin ROM_SIZE, image i = r.image i := by
  unfold umkasmVerify at h
  split at h
  · cases h
  · next image himage =>
    refine ⟨image, himage, fun i => ?_⟩
    have hfile : r.file.take IMAGE_MAX = r.file := by
      refine List.take_of_length_le ?_
      rw [Rom.file, List.length_ofFn]
      decide
    rw [hfile] at h
    dsimp only at h
    split at h
    · cases h
    · split at h
      · cases h
      · next hdiff =>
        refine image_eq_of_differences (not_not.mp hdiff) ?_
        rw [Rom.file, List.getElem?_ofFn, dif_pos i.isLt]

/-- The image of a listing whose verification succeeds holds what the source assembles to. -/
theorem image_eq_of_held {r : Rom} {image : ℕ → U8} (h : ∀ i : Fin ROM_SIZE, image i = r.image i)
    {addr : ℕ} {v : U8} (hheld : r.held addr = some v) : image addr = v := by
  unfold Rom.held at hheld
  split at hheld
  · next hlt =>
    split at hheld
    · rw [h ⟨addr, hlt⟩, Option.some.inj hheld]
    · cases hheld
  · cases hheld

/-! ## Digits -/

/-- A digit has a value below 16 and a code between those of `0` and `f`. -/
theorem hexval_bounds {c : Char} {n : ℕ} (h : hexval c = some n) :
    n < 16 ∧ 48 ≤ c.toNat ∧ c.toNat ≤ 102 := by
  have hle {a b : Char} (hab : a ≤ b) : a.toNat ≤ b.toNat := hab
  unfold hexval at h
  split_ifs at h with hdigit hupper hlower
  · have h0 := hle hdigit.1
    have h9 := hle hdigit.2
    simp only [Char.reduceToNat, Option.some.injEq] at h h0 h9
    omega
  · have hA := hle hupper.1
    have hF := hle hupper.2
    simp only [Char.reduceToNat, Option.some.injEq] at h hA hF
    omega
  · have ha := hle hlower.1
    have hf := hle hlower.2
    simp only [Char.reduceToNat, Option.some.injEq] at h ha hf
    omega

/-- What the tools look for in a line, and a digit is not. -/
theorem not_special_of_hexval {c : Char} (h : (hexval c).isSome = true) :
    isSpace c = false ∧ c ≠ '|' ∧ c ≠ '#' ∧ c ≠ '\n' ∧ c ≠ NUL := by
  obtain ⟨n, hn⟩ := Option.isSome_iff_exists.mp h
  obtain ⟨-, hlow, hhigh⟩ := hexval_bounds hn
  have hne {d : Char} (hd : d.toNat < 48 ∨ 102 < d.toNat) : c ≠ d := by
    rintro rfl
    omega
  refine ⟨?_, hne (by decide), hne (by decide), hne (by decide), hne (by decide)⟩
  have hspace : c ≠ ' ' := hne (by decide)
  have htab : c ≠ '\t' := hne (by decide)
  simp [isSpace, isBlank, hspace, htab]
  omega

/-- A digit for a digit: no test of the tools tells them apart. -/
structure Digits (old new : Char) : Prop where
  isHex_old : (hexval old).isSome = true
  isHex_new : (hexval new).isSome = true
  ne : hexval new ≠ hexval old

variable {old new : Char}

theorem Digits.isSpace_eq (h : Digits old new) : isSpace new = isSpace old := by
  rw [(not_special_of_hexval h.isHex_new).1, (not_special_of_hexval h.isHex_old).1]

theorem Digits.beq_eq (h : Digits old new) {c : Char} (hc : c = '|' ∨ c = NUL) :
    (new == c) = (old == c) := by
  have hnew := not_special_of_hexval h.isHex_new
  have hold := not_special_of_hexval h.isHex_old
  rcases hc with rfl | rfl
  · rw [beq_false_of_ne hnew.2.1, beq_false_of_ne hold.2.1]
  · rw [beq_false_of_ne hnew.2.2.2.2, beq_false_of_ne hold.2.2.2.2]

/-! ## Bytes -/

theorem toNat_byteOf {hi lo : Char} {m n : ℕ} (hm : hexval hi = some m) (hn : hexval lo = some n) :
    (byteOf hi lo).toNat = 16 * m + n := by
  have hhi := (hexval_bounds hm).1
  have hlo := (hexval_bounds hn).1
  have hor : m <<< 4 ||| n = 16 * m + n := by
    rw [← Nat.shiftLeft_add_eq_or_of_lt (show n < 2 ^ 4 from hlo), Nat.shiftLeft_eq]
    omega
  rw [byteOf, hm, hn, Option.getD_some, Option.getD_some, hor, BitVec.toNat_ofNat]
  omega

/-- A byte determines the values of its digits. -/
theorem byteOf_inj {hi lo hi' lo' : Char} (hhi : (hexval hi).isSome = true)
    (hlo : (hexval lo).isSome = true) (hhi' : (hexval hi').isSome = true)
    (hlo' : (hexval lo').isSome = true) (h : byteOf hi lo = byteOf hi' lo') :
    hexval hi = hexval hi' ∧ hexval lo = hexval lo' := by
  obtain ⟨m, hm⟩ := Option.isSome_iff_exists.mp hhi
  obtain ⟨n, hn⟩ := Option.isSome_iff_exists.mp hlo
  obtain ⟨m', hm'⟩ := Option.isSome_iff_exists.mp hhi'
  obtain ⟨n', hn'⟩ := Option.isSome_iff_exists.mp hlo'
  have hval := congrArg BitVec.toNat h
  have hlt := (hexval_bounds hn).1
  have hlt' := (hexval_bounds hn').1
  rw [toNat_byteOf hm hn, toNat_byteOf hm' hn'] at hval
  rw [hm, hm', hn, hn', show m = m' by omega, show n = n' by omega]
  exact ⟨rfl, rfl⟩

/-- Byte `n` of the object code is made of the digits `2 * n` and `2 * n + 1`. -/
theorem getElem?_objBytes {obj : List Char} {n : ℕ} {hi lo : Char} (hhi : obj[2 * n]? = some hi)
    (hlo : obj[2 * n + 1]? = some lo) : (objBytes obj)[n]? = some (byteOf hi lo) := by
  induction n generalizing obj with
  | zero =>
    match obj, hhi, hlo with
    | _ :: _ :: _, rfl, rfl => rfl
  | succ n ih =>
    match obj, hhi, hlo with
    | _ :: _ :: rest, hhi, hlo => exact @ih rest hhi hlo

/-- **Another digit is another byte.** -/
theorem exists_byte_ne {obj : List Char} (hhex : ∀ c ∈ obj, (hexval c).isSome = true)
    (heven : obj.length % 2 = 0) {j : ℕ} (hj : obj[j]? = some old) (h : Digits old new) :
    ∃ (n : ℕ) (v v' : U8), (objBytes obj)[n]? = some v ∧
      (objBytes (obj.set j new))[n]? = some v' ∧ v' ≠ v := by
  obtain ⟨hlt, hold⟩ := List.getElem?_eq_some_iff.mp hj
  have hset : (obj.set j new)[j]? = some new := List.getElem?_set_self hlt
  obtain ⟨n, rfl | rfl⟩ : ∃ n, j = 2 * n ∨ j = 2 * n + 1 := ⟨j / 2, by omega⟩
  · have hlo : obj[2 * n + 1]? = some obj[2 * n + 1] := List.getElem?_eq_getElem (by omega)
    have hlo' : (obj.set (2 * n) new)[2 * n + 1]? = some obj[2 * n + 1] := by
      rw [List.getElem?_set_ne (by omega), hlo]
    have hlohex := hhex _ (List.getElem_mem (show 2 * n + 1 < obj.length by omega))
    exact ⟨n, _, _, getElem?_objBytes hj hlo, getElem?_objBytes hset hlo', fun heq =>
      h.ne (byteOf_inj h.isHex_new hlohex h.isHex_old hlohex heq).1⟩
  · have hhi : obj[2 * n]? = some obj[2 * n] := List.getElem?_eq_getElem (by omega)
    have hhi' : (obj.set (2 * n + 1) new)[2 * n]? = some obj[2 * n] := by
      rw [List.getElem?_set_ne (by omega), hhi]
    have hhihex := hhex _ (List.getElem_mem (show 2 * n < obj.length by omega))
    exact ⟨n, _, _, getElem?_objBytes hhi hj, getElem?_objBytes hhi' hset, fun heq =>
      h.ne (byteOf_inj hhihex h.isHex_new hhihex h.isHex_old heq).2⟩

theorem mem_placed {addr : ℕ} {vs : List U8} {n : ℕ} {v : U8} (h : vs[n]? = some v) :
    (addr + n, v) ∈ placed addr vs := by
  induction vs generalizing addr n with
  | nil => cases h
  | cons w vs ih =>
    cases n with
    | zero =>
      cases h
      exact List.mem_cons_self
    | succ n =>
      refine List.mem_cons_of_mem _ ?_
      have hmem := @ih (addr + 1) n h
      rwa [Nat.add_assoc, Nat.add_comm 1 n] at hmem

/-! ## Another digit in a line -/

theorem Span.text_set_of_le {t : Span} {k : ℕ} (h : t.stop ≤ k) (s : List Char) (c : Char) :
    t.text (s.set k c) = t.text s := by
  by_cases hk : k < t.start
  · rw [text, List.drop_set_of_lt hk, text]
  · rw [text, List.drop_set, if_neg hk, List.take_set_of_le (by omega), text]

theorem Span.text_set {t : Span} {k : ℕ} (h : t.start ≤ k) (s : List Char) (c : Char) :
    t.text (s.set k c) = (t.text s).set (k - t.start) c := by
  rw [text, List.drop_set, if_neg (Nat.not_lt_of_le h), List.take_set, text]

theorem wordAt_set {s : List Char} {k : ℕ} (hk : s[k]? = some old) (h : Digits old new) (p : ℕ) :
    wordAt (s.set k new) p = wordAt s p := by
  have hspace := map_set_of_eq (f := isSpace) hk h.isSpace_eq
  have hword := map_set_of_eq (f := fun c => !isSpace c) hk (congrArg not h.isSpace_eq)
  rw [wordAt, wordAt, scan_congr hspace, scan_congr hword]

theorem locTok_set {left : List Char} {k : ℕ} (hk : left[k]? = some old) (h : Digits old new) :
    locTok (left.set k new) = locTok left :=
  wordAt_set hk h 0

theorem objTok_set {left : List Char} {k : ℕ} (hk : left[k]? = some old) (h : Digits old new) :
    objTok (left.set k new) = objTok left := by
  rw [objTok, locTok_set hk h, List.length_set, wordAt_set hk h, objTok]

theorem locTok_stop_le (left : List Char) : (locTok left).stop ≤ (objTok left).start := by
  refine le_trans ?_ (le_scan _ _ _)
  split
  · exact Nat.le_succ _
  · exact Nat.le_refl _

/-- A row of object code. -/
theorem parseRow_eq_code {left : List Char} {addr : ℕ} {obj : List Char}
    (h : parseRow left = .code addr obj) :
    ¬ left.length ≤ (locTok left).start ∧
    ¬ (((locTok left).text left).length ≠ 4 ∨ isHexString ((locTok left).text left) = false) ∧
    ¬ left.length ≤ (objTok left).start ∧
    ¬ (isHexString obj = false ∨ obj.length % 2 ≠ 0) ∧
    (strtol 16 ((locTok left).text left)).toNat = addr ∧ (objTok left).text left = obj := by
  unfold parseRow at h
  dsimp only at h
  split at h
  · cases h
  · next hloc =>
    split at h
    · cases h
    · next hread =>
      split at h
      · cases h
      · next hobj =>
        split at h
        · cases h
        · next hreadObj =>
          cases h
          exact ⟨hloc, hread, hobj, hreadObj, rfl, rfl⟩

theorem isHexString_eq_true {s : List Char} :
    isHexString s = true ↔ s.length ≠ 0 ∧ ∀ c ∈ s, (hexval c).isSome = true := by
  simp [isHexString]

theorem isHexString_set {s : List Char} (hs : isHexString s = true) (k : ℕ)
    (h : (hexval new).isSome = true) : isHexString (s.set k new) = true := by
  obtain ⟨hlen, hall⟩ := isHexString_eq_true.mp hs
  refine isHexString_eq_true.mpr ⟨by rwa [List.length_set], fun c hc => ?_⟩
  rcases List.mem_or_eq_of_mem_set hc with hc | rfl
  · exact hall c hc
  · exact h

/-- **Another digit in the object code** is read where the old one was, and nothing else. -/
theorem parseRow_set {left : List Char} {addr : ℕ} {obj : List Char}
    (hrow : parseRow left = .code addr obj) {k : ℕ} (hstart : (objTok left).start ≤ k)
    (hk : left[k]? = some old) (h : Digits old new) :
    parseRow (left.set k new) = .code addr (obj.set (k - (objTok left).start) new) := by
  obtain ⟨hloc, hread, hobj, hreadObj, haddr, htext⟩ := parseRow_eq_code hrow
  obtain ⟨hhex, heven⟩ := not_or.mp hreadObj
  have hloctext : (locTok left).text (left.set k new) = (locTok left).text left :=
    Span.text_set_of_le ((locTok_stop_le left).trans hstart) left new
  have hobjtext : (objTok left).text (left.set k new) =
      obj.set (k - (objTok left).start) new := htext ▸ Span.text_set hstart left new
  have hreadObj' : ¬ (isHexString (obj.set (k - (objTok left).start) new) = false ∨
      (obj.set (k - (objTok left).start) new).length % 2 ≠ 0) := by
    rw [List.length_set, isHexString_set (eq_true_of_ne_false hhex) _ h.isHex_new]
    exact not_or.mpr ⟨nofun, heven⟩
  unfold parseRow
  dsimp only
  rw [locTok_set hk h, objTok_set hk h, List.length_set, hloctext, hobjtext, if_neg hloc,
    if_neg hread, if_neg hobj, if_neg hreadObj', haddr]

/-- A digit in a line: the bar stays where it is. -/
theorem barOf_set {raw : Ptr} {k : ℕ} (hk : raw[k]? = some old) (h : Digits old new) :
    barOf (raw.set k new) = barOf raw := by
  have hhash : deref (raw.set k new) = '#' ↔ deref raw = '#' := by
    cases raw with
    | nil => rfl
    | cons c raw =>
      cases k with
      | zero =>
        obtain rfl := Option.some.inj hk
        exact iff_of_false (not_special_of_hexval h.isHex_new).2.2.1
          (not_special_of_hexval h.isHex_old).2.2.1
      | succ k => rfl
  have hcstr := takeWhile_set (f := (· != NUL)) hk (congrArg not (h.beq_eq (Or.inr rfl)))
  have hmap : (cstr (raw.set k new)).map (· == '|') = (cstr raw).map (· == '|') := by
    rw [cstr, hcstr]
    by_cases hlt : k < (cstr raw).length
    · have hget : (cstr raw)[k]? = some old := by
        have hstring : cstr raw = raw.take (cstr raw).length :=
          List.prefix_iff_eq_take.mp (List.takeWhile_prefix _)
        rw [hstring, List.getElem?_take_of_lt hlt, hk]
      exact map_set_of_eq hget (h.beq_eq (Or.inl rfl))
    · exact congrArg _ (List.set_eq_of_length_le (Nat.le_of_not_lt hlt))
  unfold barOf
  simp only [hhash, strchr_congr hmap]

/-- **Left of the bar**, a digit does not change the source column. -/
theorem sourceOf_set {raw : Ptr} {bar : ℕ} (hbar : barOf raw = some bar) {k : ℕ} (hlt : k < bar)
    (hk : raw[k]? = some old) (h : Digits old new) : sourceOf (raw.set k new) = sourceOf raw := by
  have hcstr : cstr (raw.set k new) = (cstr raw).set k new :=
    takeWhile_set (f := (· != NUL)) hk (congrArg not (h.beq_eq (Or.inr rfl)))
  unfold sourceOf
  rw [barOf_set hk h, hbar]
  dsimp only
  rw [hcstr, List.drop_set_of_lt (Nat.lt_succ_of_lt hlt)]

/-! ## Another digit in a listing -/

/-- The index `k` of a line is in its OBJ token. -/
def InObj (raw : Ptr) (k : ℕ) : Prop :=
  ∃ bar, barOf raw = some bar ∧ (objTok (raw.take bar)).start ≤ k ∧
    k < (objTok (raw.take bar)).stop

theorem wordAt_stop_le {s : List Char} {p k : ℕ} (hstart : (wordAt s p).start ≤ k)
    (hstop : k < (wordAt s p).stop) : (wordAt s p).stop ≤ s.length := by
  have htake := (List.takeWhile_prefix (p := fun c => !isSpace c)
    (l := s.drop (wordAt s p).start)).length_le
  have hlength : (wordAt s p).stop = (wordAt s p).start +
      ((s.drop (wordAt s p).start).takeWhile fun c => !isSpace c).length := rfl
  rw [List.length_drop] at htake
  omega

/-- In a listing without errors, a digit of the object code belongs to a row that is placed. -/
theorem exists_row_of_inObj {listing : List Char} (hrom : (umkrom listing).errors = [])
    {raw : Ptr} (hline : raw ∈ allLines listing) {bar k : ℕ} (hbar : barOf raw = some bar)
    (hstart : (objTok (raw.take bar)).start ≤ k) (hstop : k < (objTok (raw.take bar)).stop) :
    k < bar ∧ ∃ addr obj, parseRow (raw.take bar) = .code addr obj := by
  have hle := wordAt_stop_le hstart hstop
  have hloc := locTok_stop_le (raw.take bar)
  have hword : (locTok (raw.take bar)).start ≤ (locTok (raw.take bar)).stop := le_scan _ _ _
  have hkleft : k < (raw.take bar).length := hstop.trans_le hle
  obtain ⟨hbadLoc, hbadObj⟩ := readable_of_umkrom hrom hline hbar
  refine ⟨hkleft.trans_le (List.length_take_le _ _), ?_⟩
  cases hrow : parseRow (raw.take bar) with
  | badLoc loc => exact absurd hrow (hbadLoc loc)
  | badObj obj => exact absurd hrow (hbadObj obj)
  | code addr obj => exact ⟨addr, obj, rfl⟩
  | blank =>
    unfold parseRow at hrow
    dsimp only at hrow
    rw [if_neg (by omega)] at hrow
    split at hrow
    · cases hrow
    · rw [if_neg (by omega)] at hrow
      split at hrow
      all_goals cases hrow

/-- **The source column is left alone.** -/
theorem umkromAsm_set {before raw after : List Char} (hsplits : Splits before raw after)
    (hlen : raw.length < 512) {bar k : ℕ} (hbar : barOf raw = some bar) (hlt : k < bar)
    (hk : raw[k]? = some old) (h : Digits old new) :
    umkromAsm (before ++ (raw.set k new ++ after)) = umkromAsm (before ++ (raw ++ after)) := by
  have hset := hsplits.set hk (not_special_of_hexval h.isHex_old).2.2.2.1
    (not_special_of_hexval h.isHex_new).2.2.2.1
  have hlen' : (raw.set k new).length < 512 := by rwa [List.length_set]
  rw [umkromAsm, umkromAsm, allLines_of_splits hset hlen', allLines_of_splits hsplits hlen,
    List.flatMap_append, List.flatMap_append, List.flatMap_cons, List.flatMap_cons,
    sourceOf_set hbar hlt hk h]

/-- **Verification catches every error in the object column.** If both tools accept a listing, one
of them fails when a digit of an OBJ token is changed to a digit of another value. -/
theorem transcription_error_detected (imageSize : ℤ) {before raw after : List Char}
    (hsplits : Splits before raw after) (hlen : raw.length < 512) {k : ℕ} (hobj : InObj raw k)
    (hk : raw[k]? = some old) (hdigit : (hexval new).isSome = true)
    (hne : hexval new ≠ hexval old)
    (hrom : (umkrom (before ++ (raw ++ after))).exitCode = 0)
    (hverify : umkasmVerify imageSize (umkromAsm (before ++ (raw ++ after)))
      (umkrom (before ++ (raw ++ after))).file = 0) :
    (umkrom (before ++ (raw.set k new ++ after))).exitCode ≠ 0 ∨
    umkasmVerify imageSize (umkromAsm (before ++ (raw.set k new ++ after)))
      (umkrom (before ++ (raw.set k new ++ after))).file ≠ 0 := by
  obtain ⟨bar, hbar, hstart, hstop⟩ := hobj
  have herr := Rom.exitCode_eq_zero.mp hrom
  have hmem : raw ∈ allLines (before ++ (raw ++ after)) := by
    rw [allLines_of_splits hsplits hlen]
    exact List.mem_append_right _ List.mem_cons_self
  obtain ⟨hkbar, addr, obj, hrow⟩ := exists_row_of_inObj herr hmem hbar hstart hstop
  obtain ⟨-, -, -, hreadObj, -, htext⟩ := parseRow_eq_code hrow
  obtain ⟨hhex, heven⟩ := not_or.mp hreadObj
  have hall := (isHexString_eq_true.mp (eq_true_of_ne_false hhex)).2
  -- the digit, in the line, left of the bar and in the token
  have hleft : (raw.take bar)[k]? = some old := by rw [List.getElem?_take_of_lt hkbar, hk]
  have hobjk : obj[k - (objTok (raw.take bar)).start]? = some old := by
    rw [← htext, Span.text, List.getElem?_take_of_lt (by omega), List.getElem?_drop,
      Nat.add_sub_of_le hstart, hleft]
  have h : Digits old new := ⟨hall _ (List.mem_of_getElem? hobjk), hdigit, hne⟩
  obtain ⟨n, v, v', hv, hv', hvne⟩ := exists_byte_ne hall (not_not.mp heven) hobjk h
  by_contra hboth
  obtain ⟨hrom', hverify'⟩ := not_or.mp hboth
  have herr' := Rom.exitCode_eq_zero.mp (not_not.mp hrom')
  have hset := hsplits.set hk (not_special_of_hexval h.isHex_old).2.2.2.1
    (not_special_of_hexval hdigit).2.2.2.1
  have hmem' : raw.set k new ∈ allLines (before ++ (raw.set k new ++ after)) := by
    rw [allLines_of_splits hset (by rwa [List.length_set])]
    exact List.mem_append_right _ List.mem_cons_self
  have hrow' : parseRow ((raw.set k new).take bar) =
      .code addr (obj.set (k - (objTok (raw.take bar)).start) new) := by
    rw [List.take_set]
    exact parseRow_set hrow hstart hleft h
  have hheld := held_of_umkrom herr hmem hbar hrow (mem_placed hv)
  have hheld' := held_of_umkrom herr' hmem' (by rw [barOf_set hk h, hbar]) hrow' (mem_placed hv')
  -- both images hold what the one source assembles to
  obtain ⟨image, himage, heq⟩ := exists_image_of_verify hverify
  obtain ⟨image', himage', heq'⟩ := exists_image_of_verify (not_not.mp hverify')
  rw [umkromAsm_set hsplits hlen hbar hkbar hk h, himage] at himage'
  cases himage'
  refine hvne ?_
  have hv' := image_eq_of_held heq' hheld'
  rw [image_eq_of_held heq hheld] at hv'
  exact hv'.symm

/-- A listing of one instruction. -/
def hltLine : List Char := "0000 76 | HLT\n".toList

theorem transcription_error_detected_hlt :
    (umkrom ([] ++ (hltLine.set 5 '3' ++ []))).exitCode ≠ 0 ∨
    umkasmVerify 2048 (umkromAsm ([] ++ (hltLine.set 5 '3' ++ [])))
      (umkrom ([] ++ (hltLine.set 5 '3' ++ []))).file ≠ 0 :=
  transcription_error_detected 2048 ⟨endsLine_nil, by decide, by decide⟩ (by decide)
    ⟨8, by decide, by decide, by decide⟩ (show hltLine[5]? = some '7' from rfl) (by decide)
    (by decide) (by decide +kernel) (by decide +kernel)

end Umk80
