import Umk80.Lib.Carries
import Umk80.Regs

/-!
# Arithmetic on several bytes

A number of several bytes is added or subtracted byte by byte from the lowest up, with ADC or SBB,
and a packed decimal number with ADC and DAA. In between the program loads the next byte into A and
may do whatever else it likes as long as it preserves the carry.

Each operation satisfies one equation between its operands, its result, and the carries before and
after it. `Lib.Carries` makes of them the equation for the numbers.

## Main definitions

* `Regs.Chain` — an operation applied byte by byte
* `Regs.IsBcd`, `Regs.bcd` — two decimal digits in a byte

## Main results

* `Regs.carryOut_eq` — the carry out of a bit
* `Regs.chain_binary` — sums and differences of any length
* `Regs.chain_decimal` — decimal sums of any length
-/

namespace Umk80

open Carries

namespace Regs

/-! ## Carries -/

theorem and_twoPow_bne_zero (mix : U16) {bit : ℕ} (hbit : bit < 16) :
    (mix &&& BitVec.twoPow 16 bit != 0) = mix.getLsbD bit := by
  have hne : BitVec.twoPow 16 bit ≠ 0 := by
    intro h
    have htoNat := congrArg BitVec.toNat h
    rw [BitVec.toNat_twoPow, Nat.mod_eq_of_lt (Nat.pow_lt_pow_right (by decide) hbit)] at htoNat
    exact absurd htoNat (Nat.two_pow_pos bit).ne'
  rw [BitVec.and_twoPow]
  cases mix.getLsbD bit with
  | true => exact bne_iff_ne.mpr hne
  | false => rfl

/-- **The carry out of a bit**, which the code gets from an exclusive or. -/
theorem carryOut_eq {bit : ℕ} (hbit : bit ≤ 8) (a b : U8) (cy : Bool) : carryOut bit a b cy =
    decide (2 ^ bit ≤ a.toNat % 2 ^ bit + b.toNat % 2 ^ bit + cy.toNat) := by
  have hcy : (if cy then 1 else 0 : U16) = (BitVec.ofBool cy).setWidth 16 := by
    cases cy
    · rfl
    · rfl
  have hmask : (1 <<< bit : U16) = BitVec.twoPow 16 bit := rfl
  have hbits : (a.setWidth 16 + b.setWidth 16 + (BitVec.ofBool cy).setWidth 16 ^^^ a.setWidth 16 ^^^
      b.setWidth 16).getLsbD bit = BitVec.carry bit (a.setWidth 16) (b.setWidth 16) cy := by
    rw [BitVec.getLsbD_xor, BitVec.getLsbD_xor, BitVec.getLsbD_add_add_bool (by omega)]
    generalize (a.setWidth 16).getLsbD bit = p
    generalize (b.setWidth 16).getLsbD bit = q
    generalize BitVec.carry bit (a.setWidth 16) (b.setWidth 16) cy = c
    revert p q c
    decide
  have hcarry : BitVec.carry bit (a.setWidth 16) (b.setWidth 16) cy =
      decide (2 ^ bit ≤ a.toNat % 2 ^ bit + b.toNat % 2 ^ bit + cy.toNat) := by
    have ha := a.isLt
    have hb := b.isLt
    rw [BitVec.carry, BitVec.toNat_setWidth, BitVec.toNat_setWidth,
      Nat.mod_eq_of_lt (show a.toNat < 2 ^ 16 by omega),
      Nat.mod_eq_of_lt (show b.toNat < 2 ^ 16 by omega)]
  rw [← hcarry, ← hbits, ← and_twoPow_bne_zero _ (by omega), ← hcy, ← hmask]
  rfl

/-! ## Flags -/

theorem getFlag_setFlag_C (r : Regs) (on : Bool) : (r.setFlag F_C on).getFlag F_C = on ∧
    (r.setFlag F_C on).getFlag F_AC = r.getFlag F_AC := by
  have key : ∀ f : U8, ∀ on : Bool,
      ((if on then f ||| F_C else f &&& ~~~F_C) &&& F_C != 0) = on ∧
        ((if on then f ||| F_C else f &&& ~~~F_C) &&& F_AC != 0) = (f &&& F_AC != 0) := by
    decide +kernel
  exact key r.f on

theorem getFlag_setFlag_AC (r : Regs) (on : Bool) : (r.setFlag F_AC on).getFlag F_AC = on ∧
    (r.setFlag F_AC on).getFlag F_C = r.getFlag F_C := by
  have key : ∀ f : U8, ∀ on : Bool,
      ((if on then f ||| F_AC else f &&& ~~~F_AC) &&& F_AC != 0) = on ∧
        ((if on then f ||| F_AC else f &&& ~~~F_AC) &&& F_C != 0) = (f &&& F_C != 0) := by
    decide +kernel
  exact key r.f on

theorem getFlag_setSzp (r : Regs) (v : U8) : (r.setSzp v).getFlag F_C = r.getFlag F_C ∧
    (r.setSzp v).getFlag F_AC = r.getFlag F_AC := by
  have key : ∀ f : U8, ∀ sign zero parity : Bool,
      let f₁ := f &&& ~~~(F_S ||| F_Z ||| F_P)
      let f₂ := if sign then f₁ ||| F_S else f₁
      let f₃ := if zero then f₂ ||| F_Z else f₂
      let f₄ := if parity then f₃ ||| F_P else f₃
      ((f₄ &&& F_MASK ||| F_ONE) &&& F_C != 0) = (f &&& F_C != 0) ∧
        ((f₄ &&& F_MASK ||| F_ONE) &&& F_AC != 0) = (f &&& F_AC != 0) := by
    decide +kernel
  exact key r.f (v &&& 0x80 != 0) (v == 0) (parity8 v)

/-- What `alu_add` does, in numbers. -/
structure Added (r : Regs) (val : U8) (cy : Bool) (r' : Regs) : Prop where
  sum : r'.a.toNat = (r.a.toNat + val.toNat + cy.toNat) % 256
  carry : r'.getFlag F_C = decide (256 ≤ r.a.toNat + val.toNat + cy.toNat)
  half : r'.getFlag F_AC = decide (16 ≤ r.a.toNat % 16 + val.toNat % 16 + cy.toNat)

/-- **`alu_add`.** -/
theorem added_aluAdd (r : Regs) (val : U8) (cy : Bool) : Added r val cy (r.aluAdd val cy) := by
  have ha := r.a.isLt
  have hval := val.isLt
  have hszp := getFlag_setSzp ((r.setFlag F_C (carryOut 8 r.a val cy)).setFlag F_AC
    (carryOut 4 r.a val cy)) (r.a + val + (if cy then 1 else 0))
  have hac := getFlag_setFlag_AC (r.setFlag F_C (carryOut 8 r.a val cy)) (carryOut 4 r.a val cy)
  have hc := getFlag_setFlag_C r (carryOut 8 r.a val cy)
  refine ⟨?_, ?_, ?_⟩
  · change (r.a + val + (if cy then 1 else 0 : U8)).toNat = _
    cases cy
    · simp [BitVec.toNat_add]
    · simp [BitVec.toNat_add]
  · calc (r.aluAdd val cy).getFlag F_C
        = ((r.setFlag F_C (carryOut 8 r.a val cy)).setFlag F_AC (carryOut 4 r.a val cy)).getFlag
            F_C := hszp.1
      _ = carryOut 8 r.a val cy := by rw [hac.2, hc.1]
      _ = decide (2 ^ 8 ≤ r.a.toNat + val.toNat + cy.toNat) := by
        rw [carryOut_eq (Nat.le_refl 8), Nat.mod_eq_of_lt ha, Nat.mod_eq_of_lt hval]
  · calc (r.aluAdd val cy).getFlag F_AC
        = ((r.setFlag F_C (carryOut 8 r.a val cy)).setFlag F_AC (carryOut 4 r.a val cy)).getFlag
            F_AC := hszp.2
      _ = carryOut 4 r.a val cy := hac.1
      _ = decide (2 ^ 4 ≤ r.a.toNat % 2 ^ 4 + val.toNat % 2 ^ 4 + cy.toNat) :=
        carryOut_eq (by decide) _ _ _

/-! ## Bytes one after the other -/

/-- The carry flag as a number. -/
def carry (r : Regs) : ℕ := (r.getFlag F_C).toNat

theorem carry_of_getFlag {r : Regs} {p : Prop} [Decidable p] (h : r.getFlag F_C = decide p) :
    r.carry = if p then 1 else 0 := by
  rw [carry, h]
  split
  · rename_i hp
    rw [decide_eq_true hp]
    rfl
  · rename_i hp
    rw [decide_eq_false hp]
    rfl

/-- `op` applied byte by byte, from the registers `r` on. Each byte of the first number is loaded
into A, by whatever preserves the carry; `op` takes the byte of the second. -/
inductive Chain (op : Regs → U8 → Regs) : Regs → List U8 → List U8 → List U8 → Regs → Prop
  | nil (r : Regs) : Chain op r [] [] [] r
  | cons {r r₁ r' : Regs} {x y : U8} {xs ys zs : List U8} (hload : r₁.a = x)
      (hcarry : r₁.getFlag F_C = r.getFlag F_C) (hrest : Chain op (op r₁ y) xs ys zs r') :
      Chain op r (x :: xs) (y :: ys) ((op r₁ y).a :: zs) r'

/-- The chain of a program that only loads A. -/
def bytes (op : Regs → U8 → Regs) : Regs → List U8 → List U8 → List U8 × Regs
  | r, x :: xs, y :: ys =>
    let r₁ := op { r with a := x } y
    (r₁.a :: (bytes op r₁ xs ys).1, (bytes op r₁ xs ys).2)
  | r, _, _ => ([], r)

theorem chain_bytes (op : Regs → U8 → Regs) (r : Regs) (xs ys : List U8)
    (h : xs.length = ys.length) : Chain op r xs ys (r.bytes op xs ys).1 (r.bytes op xs ys).2 := by
  induction xs generalizing r ys with
  | nil =>
    obtain rfl := List.eq_nil_of_length_eq_zero h.symm
    exact .nil r
  | cons x xs ih =>
    cases ys with
    | nil => exact absurd h (Nat.succ_ne_zero _)
    | cons y ys => exact .cons rfl rfl (ih _ ys (Nat.succ.inj h))

/-- The number that bytes make, the lowest first. -/
def value (bs : List U8) : ℕ := Nat.ofDigits 256 (bs.map BitVec.toNat)

/-- **ADC on a byte.** -/
theorem adc_byte (r : Regs) (y : U8) : r.a.toNat + y.toNat + r.carry =
    (r.aluOp 1 y).a.toNat + 256 * (r.aluOp 1 y).carry := by
  have h : Added r y (r.getFlag F_C) (r.aluOp 1 y) := added_aluAdd r y (r.getFlag F_C)
  have hsum := h.sum
  have ha := r.a.isLt
  have hy := y.isLt
  have hc := (r.getFlag F_C).toNat_le
  rw [carry_of_getFlag h.carry, hsum, carry]
  split
  · omega
  · omega

/-- **SBB on a byte**: the complement is added, and the carry inverted before and after. -/
theorem sbb_byte (r : Regs) (y : U8) : (r.aluOp 3 y).a.toNat + y.toNat + r.carry =
    r.a.toNat + 256 * (r.aluOp 3 y).carry := by
  have h := added_aluAdd r (~~~y) (!r.getFlag F_C)
  have hsum : (r.aluOp 3 y).a.toNat =
      (r.a.toNat + (~~~y).toNat + (!r.getFlag F_C).toNat) % 256 := h.sum
  have hflag : (r.aluOp 3 y).getFlag F_C = !(r.aluAdd (~~~y) (!r.getFlag F_C)).getFlag F_C :=
    (getFlag_setFlag_C _ _).1
  rw [h.carry, ← decide_not] at hflag
  have hnot : (~~~y).toNat = 255 - y.toNat := BitVec.toNat_not
  have hc : (!r.getFlag F_C).toNat = 1 - r.carry := by
    rw [carry]
    cases r.getFlag F_C
    · rfl
    · rfl
  have hle : r.carry ≤ 1 := (r.getFlag F_C).toNat_le
  have ha := r.a.isLt
  have hy := y.isLt
  rw [hnot, hc] at hsum hflag
  rw [carry_of_getFlag hflag, hsum]
  split
  · omega
  · omega

/-- A chain of sums is a ripple of carries, for whatever bytes `ok` stand for digits `v`. -/
theorem Chain.ripple {op : Regs → U8 → Regs} {b : ℕ} {v : U8 → ℕ} (ok : U8 → Prop)
    (hop : ∀ r y, ok r.a → ok y →
      ok (op r y).a ∧ v r.a + v y + r.carry = v (op r y).a + b * (op r y).carry)
    {r r' : Regs} {xs ys zs : List U8} (h : Chain op r xs ys zs r') (hx : ∀ x ∈ xs, ok x)
    (hy : ∀ y ∈ ys, ok y) :
    Ripple b r.carry (xs.map v) (ys.map v) (zs.map v) r'.carry ∧ ∀ z ∈ zs, ok z := by
  induction h with
  | nil r => exact ⟨.nil _, fun z hz => absurd hz List.not_mem_nil⟩
  | @cons r r₁ r' x y xs ys zs hload hcarry _ ih =>
    obtain ⟨hrest, hok⟩ := ih (fun x hx' => hx x (List.mem_cons_of_mem _ hx'))
      fun y hy' => hy y (List.mem_cons_of_mem _ hy')
    obtain ⟨hz, hdigit⟩ := hop r₁ y (hload ▸ hx x List.mem_cons_self) (hy y List.mem_cons_self)
    have hsame : r₁.carry = r.carry := congrArg Bool.toNat hcarry
    rw [hload, hsame] at hdigit
    exact ⟨.cons hdigit hrest, List.forall_mem_cons.mpr ⟨hz, hok⟩⟩

/-- The same for differences, where the carries are borrows. -/
theorem Chain.ripple_sbb {r r' : Regs} {xs ys zs : List U8}
    (h : Chain (fun r y => r.aluOp 3 y) r xs ys zs r') :
    Ripple 256 r.carry (zs.map BitVec.toNat) (ys.map BitVec.toNat) (xs.map BitVec.toNat)
      r'.carry := by
  induction h with
  | nil r => exact .nil _
  | @cons r r₁ r' x y xs ys zs hload hcarry _ ih =>
    have hdigit := sbb_byte r₁ y
    have hsame : r₁.carry = r.carry := congrArg Bool.toNat hcarry
    rw [hload, hsame] at hdigit
    exact .cons hdigit ih

theorem lt_of_mem_map_toNat {bs : List U8} : ∀ d ∈ bs.map BitVec.toNat, d < 256 := by
  intro d hd
  obtain ⟨b, -, rfl⟩ := List.mem_map.mp hd
  exact b.isLt

theorem carry_le (r : Regs) : r.carry ≤ 1 := (r.getFlag F_C).toNat_le

theorem carry_eq_one_iff (r : Regs) : r.carry = 1 ↔ r.getFlag F_C = true := Bool.toNat_eq_one

/-! ## Binary numbers -/

/-- **Binary arithmetic of any length**: ADC byte by byte is addition, SBB is subtraction, and the
last carry says whether the result does not fit. -/
theorem chain_binary {r r' : Regs} {xs ys zs : List U8} :
    (Chain (fun r y => r.aluOp 1 y) r xs ys zs r' → zs.length = xs.length ∧
      value zs = (value xs + value ys + r.carry) % 256 ^ xs.length ∧
      (r'.getFlag F_C = true ↔ 256 ^ xs.length ≤ value xs + value ys + r.carry)) ∧
    (Chain (fun r y => r.aluOp 3 y) r xs ys zs r' → zs.length = xs.length ∧
      (value zs : ℤ) = ((value xs : ℤ) - value ys - r.carry) % (256 ^ xs.length : ℕ) ∧
      (r'.getFlag F_C = true ↔ value xs < value ys + r.carry)) := by
  constructor
  · intro h
    have hripple := (h.ripple (fun _ => True) (fun r y _ _ => ⟨trivial, r.adc_byte y⟩)
      (fun _ _ => trivial) (fun _ _ => trivial)).1
    have hlength := hripple.length_eq.1
    have hsum := hripple.add (by decide) lt_of_mem_map_toNat r'.carry_le
    rw [List.length_map, List.length_map] at hlength
    rw [List.length_map, carry_eq_one_iff] at hsum
    exact ⟨hlength.symm, hsum⟩
  · intro h
    have hripple := h.ripple_sbb
    have hlength := hripple.length_eq.1
    have hdiff := hripple.sub (by decide) lt_of_mem_map_toNat lt_of_mem_map_toNat r'.carry_le
    rw [List.length_map, List.length_map] at hlength
    rw [List.length_map, carry_eq_one_iff] at hdiff
    exact ⟨hlength, hdiff⟩

/-- `12FFH + 0101H = 1400H` and `1200H - 0101H = 10FFH`. -/
theorem chain_binary_words :
    value [0x00, 0x14] = (value [0xFF, 0x12] + value [0x01, 0x01] + 0) % 256 ^ 2 ∧
      (value [0xFF, 0x10] : ℤ) = ((value [0x00, 0x12] : ℤ) - value [0x01, 0x01] - (0 : ℕ)) %
        (256 ^ 2 : ℕ) :=
  ⟨(chain_binary.1 (chain_bytes _ ⟨0, F_ONE, 0, 0, 0, 0, 0, 0, 0, 0⟩ [0xFF, 0x12] [0x01, 0x01]
      rfl)).2.1,
    (chain_binary.2 (chain_bytes _ ⟨0, F_ONE, 0, 0, 0, 0, 0, 0, 0, 0⟩ [0x00, 0x12] [0x01, 0x01]
      rfl)).2.1⟩

/-! ## Decimal numbers -/

/-- Two decimal digits in a byte. -/
def IsBcd (b : U8) : Prop := b.toNat / 16 ≤ 9 ∧ b.toNat % 16 ≤ 9

/-- Their value. -/
def bcd (b : U8) : ℕ := b.toNat / 16 * 10 + b.toNat % 16

/-- The number that packed decimal bytes make. -/
def bcdValue (bs : List U8) : ℕ := Nat.ofDigits 100 (bs.map bcd)

theorem bcd_lt {b : U8} (h : IsBcd b) : bcd b < 100 := by
  obtain ⟨hhigh, hlow⟩ := h
  rw [bcd]
  omega

/-- What `alu_daa` adds, from the digits in A and the flags of the addition before. -/
def correction (a : ℕ) (half carry : Bool) : ℕ :=
  (if half = true ∨ 9 < a % 16 then 6 else 0) +
    if carry = true ∨ 9 < a / 16 ∨ (9 ≤ a / 16 ∧ 9 < a % 16) then 96 else 0

/-- **`alu_daa`.** -/
theorem aluDaa_eq (r : Regs) :
    r.aluDaa.a.toNat =
        (r.a.toNat + correction r.a.toNat (r.getFlag F_AC) (r.getFlag F_C)) % 256 ∧
      r.aluDaa.getFlag F_C = decide (r.getFlag F_C = true ∨ 9 < r.a.toNat / 16 ∨
        (9 ≤ r.a.toNat / 16 ∧ 9 < r.a.toNat % 16)) := by
  have key : ∀ a : U8, ∀ half carry : Bool,
      let low : U8 := if half || 9 < a &&& 0x0F then 0x06 else 0
      let cy := carry || (9 : U8) < a >>> 4 || ((9 : U8) ≤ a >>> 4 && 9 < a &&& 0x0F)
      (if cy then low + 0x60 else low).toNat = correction a.toNat half carry ∧
        cy = decide (carry = true ∨ 9 < a.toNat / 16 ∨ (9 ≤ a.toNat / 16 ∧ 9 < a.toNat % 16)) := by
    decide +kernel
  obtain ⟨hcorr, hcy⟩ := key r.a (r.getFlag F_AC) (r.getFlag F_C)
  constructor
  · have hsum := fun val : U8 => (added_aluAdd r val false).sum
    rw [← hcorr]
    exact hsum _
  · rw [← hcy]
    exact (getFlag_setFlag_C _ _).1

/-- The corrections are made exactly where a decimal digit overflows. -/
theorem correction_iff {high low a : ℕ} (hhi : high ≤ 18) (hlo : low ≤ 19)
    (ha : a = (16 * high + low) % 256) :
    (16 ≤ low ∨ 9 < a % 16 ↔ 10 ≤ low) ∧
      (256 ≤ 16 * high + low ∨ 9 < a / 16 ∨ (9 ≤ a / 16 ∧ 9 < a % 16) ↔
        100 ≤ 10 * high + low) := by
  have hdigits : 16 * high + low < 256 ∧ a = 16 * high + low ∨
      256 ≤ 16 * high + low ∧ a + 256 = 16 * high + low := by omega
  clear ha
  refine ⟨by omega, ?_⟩
  rcases hdigits with ⟨hlt, rfl⟩ | ⟨hle, -⟩
  · omega
  · omega

/-- The digits of a decimal sum, after the correction. -/
theorem decimal_digit {x y c : ℕ} (hx : x / 16 ≤ 9 ∧ x % 16 ≤ 9) (hy : y / 16 ≤ 9 ∧ y % 16 ≤ 9)
    (hc : c ≤ 1) {a z c' : ℕ} (ha : a = (x + y + c) % 256)
    (hz : z = (a + correction a (decide (16 ≤ x % 16 + y % 16 + c))
      (decide (256 ≤ x + y + c))) % 256)
    (hc' : c' = if 256 ≤ x + y + c ∨ 9 < a / 16 ∨ (9 ≤ a / 16 ∧ 9 < a % 16) then 1 else 0) :
    (z / 16 ≤ 9 ∧ z % 16 ≤ 9) ∧
      x / 16 * 10 + x % 16 + (y / 16 * 10 + y % 16) + c = z / 16 * 10 + z % 16 + 100 * c' := by
  obtain ⟨high, hhigh⟩ : ∃ high, x / 16 + y / 16 = high := ⟨_, rfl⟩
  obtain ⟨low, hlow⟩ : ∃ low, x % 16 + y % 16 + c = low := ⟨_, rfl⟩
  have hsum : x + y + c = 16 * high + low := by omega
  have hdecimal : x / 16 * 10 + x % 16 + (y / 16 * 10 + y % 16) + c = 10 * high + low := by omega
  have hhi : high ≤ 18 := by omega
  have hlo : low ≤ 19 := by omega
  rw [hsum] at ha
  obtain ⟨hsix, hsixty⟩ := correction_iff hhi hlo ha
  simp only [correction, decide_eq_true_iff, hsum, hlow, hsix, hsixty] at hz hc'
  rw [hdecimal, hc']
  clear hx hy hc hc' hsix hsixty hsum hdecimal hhigh hlow
  subst ha
  by_cases hl : 10 ≤ low
  · by_cases hh : 100 ≤ 10 * high + low
    · rw [if_pos hl, if_pos hh] at hz
      rw [if_pos hh]
      omega
    · rw [if_pos hl, if_neg hh] at hz
      rw [if_neg hh]
      omega
  · by_cases hh : 100 ≤ 10 * high + low
    · rw [if_neg hl, if_pos hh] at hz
      rw [if_pos hh]
      omega
    · rw [if_neg hl, if_neg hh] at hz
      rw [if_neg hh]
      omega

/-- **ADC and DAA on two decimal digits.** -/
theorem adcDaa_byte (r : Regs) (y : U8) (hx : IsBcd r.a) (hy : IsBcd y) :
    IsBcd (r.aluOp 1 y).aluDaa.a ∧ bcd r.a + bcd y + r.carry =
      bcd (r.aluOp 1 y).aluDaa.a + 100 * (r.aluOp 1 y).aluDaa.carry := by
  have h : Added r y (r.getFlag F_C) (r.aluOp 1 y) := added_aluAdd r y (r.getFlag F_C)
  obtain ⟨hdaa, hflag⟩ := (r.aluOp 1 y).aluDaa_eq
  rw [h.half, h.carry] at hdaa
  rw [h.carry] at hflag
  simp only [decide_eq_true_iff] at hflag
  exact decimal_digit hx hy r.carry_le h.sum hdaa (carry_of_getFlag hflag)

/-- **Decimal sums of any length**: ADC and DAA byte by byte add packed decimal numbers. -/
theorem chain_decimal {r r' : Regs} {xs ys zs : List U8} (hx : ∀ x ∈ xs, IsBcd x)
    (hy : ∀ y ∈ ys, IsBcd y) (h : Chain (fun r y => (r.aluOp 1 y).aluDaa) r xs ys zs r') :
    zs.length = xs.length ∧ (∀ z ∈ zs, IsBcd z) ∧
      bcdValue zs = (bcdValue xs + bcdValue ys + r.carry) % 100 ^ xs.length ∧
      (r'.getFlag F_C = true ↔ 100 ^ xs.length ≤ bcdValue xs + bcdValue ys + r.carry) := by
  obtain ⟨hripple, hz⟩ := h.ripple IsBcd adcDaa_byte hx hy
  have hlength := hripple.length_eq.1
  have hdigits : ∀ d ∈ zs.map bcd, d < 100 := by
    intro d hd
    obtain ⟨z, hmem, rfl⟩ := List.mem_map.mp hd
    exact bcd_lt (hz z hmem)
  have hsum := hripple.add (by decide) hdigits r'.carry_le
  rw [List.length_map, List.length_map] at hlength
  rw [List.length_map, carry_eq_one_iff] at hsum
  exact ⟨hlength.symm, hz, hsum⟩

/-- `5567 + 4478 = 10045`. -/
theorem chain_decimal_overflow :
    bcdValue [0x45, 0x00] = (bcdValue [0x67, 0x55] + bcdValue [0x78, 0x44] + 0) % 100 ^ 2 :=
  (chain_decimal (by unfold IsBcd; decide) (by unfold IsBcd; decide)
    (chain_bytes _ ⟨0, F_ONE, 0, 0, 0, 0, 0, 0, 0, 0⟩ [0x67, 0x55] [0x78, 0x44] rfl)).2.2.1

end Regs

end Umk80
