import Umk80.Monitor.Stack

/-!
# Comparing, converting, waiting

The routines of the monitor that use registers only.

## Main results

* `Monitor.Stands.compa`, `Monitor.Stands.compa1` — the carry says that HL has passed DE
* `Monitor.Stands.convbin` — a hexadecimal digit
* `Monitor.Stands.delay` — the delay
-/

namespace Umk80

namespace Monitor

open Isa TimedRuns

variable {u : ℕ} {w : U16} {s : State View} {ws : List U16} {v : View} {Q : State View → Prop}

/-! ## Comparing -/

def COMPA : Routine where
  entry := 0x022F
  code := [.inx .hl, .mov .a .l, .alu .ora .h, .stc, .rcc .z,
    -- COMPA1
    .mov .a .e, .alu .sub .l, .mov .a .d, .alu .sbb .h, .ret]

def COMPA1 : Routine where
  entry := 0x0234
  code := [.mov .a .e, .alu .sub .l, .mov .a .d, .alu .sbb .h, .ret]

theorem toNat_word (hi lo : U8) : (word hi lo).toNat = 256 * hi.toNat + lo.toNat := by
  have hlo := lo.isLt
  have hhi := hi.isLt
  have hshift : (hi.setWidth 16 <<< 8 : U16).toNat = hi.toNat <<< 8 := by
    rw [BitVec.toNat_shiftLeft, BitVec.toNat_setWidth, Nat.shiftLeft_eq, Nat.shiftLeft_eq]
    omega
  rw [word, BitVec.toNat_or, hshift, BitVec.toNat_setWidth, Nat.mod_eq_of_lt (by omega),
    ← Nat.shiftLeft_add_eq_or_of_lt hlo, Nat.shiftLeft_eq]
  omega

/-- A difference of words, byte by byte. -/
theorem carry_word (fl : Flags) (d e h l : U8) :
    (differenceFlags fl d h (differenceFlags fl e l false).carry).carry =
      decide (word d e < word h l) := by
  have he := e.isLt
  have hl := l.isLt
  change decide (d.toNat < h.toNat + (decide (e.toNat < l.toNat + 0)).toNat) = _
  rw [Bool.eq_iff_iff, decide_eq_true_iff, decide_eq_true_iff, BitVec.lt_def, toNat_word,
    toNat_word]
  cases hlow : decide (e.toNat < l.toNat + 0) with
  | true =>
    have hlow := of_decide_eq_true hlow
    rw [Bool.toNat_true]
    omega
  | false =>
    have hlow := of_decide_eq_false hlow
    rw [Bool.toNat_false]
    omega

/-- COMPA1: the carry says that HL is above DE. -/
theorem Stands.compa1 (hs : Stands s (w :: ws) v) (hpc : s.pc = COMPA1.entry)
    (h : ∀ sp a fl, fl.carry = decide (s.de < s.hl) →
      Stands { s with pc := w, sp := sp, a := a, flags := fl } ws v →
      Leads M { s with pc := w, sp := sp, a := a, flags := fl } u Q) : Leads M s (28 + u) Q := by
  obtain ⟨a, fl, hfl, hrun⟩ : ∃ a fl, fl.carry = decide (s.de < s.hl) ∧
      runs View.env (jump s (COMPA1.addr 0)) (COMPA1.piece 0 4) =
        { s with pc := COMPA1.addr 4, a := a, flags := fl } :=
    ⟨_, _, carry_word s.flags s.d s.e s.h s.l, rfl⟩
  refine Leads.le (t := 18 + (10 + u)) ?_ (by omega)
  refine piece COMPA1 0 4 rfl rfl hs.toRunning hpc hrun ?_
  exact Stands.ret (hs.of_same rfl rfl rfl) COMPA1 4 rfl rfl fun sp => h sp a fl hfl

/-- A pair of registers is zero exactly if its bytes have no bit between them. -/
theorem or_eq_zero (l h : U8) : (l ||| h == 0) = decide (word h l = 0) := by
  have hl : l = 0 ↔ l.toNat = 0 := by rw [← BitVec.toNat_inj]; rfl
  have hh : h = 0 ↔ h.toNat = 0 := by rw [← BitVec.toNat_inj]; rfl
  have hw : word h l = 0 ↔ (word h l).toNat = 0 := by rw [← BitVec.toNat_inj]; rfl
  rw [Bool.eq_iff_iff, beq_iff_eq, decide_eq_true_iff, hw, toNat_word]
  refine BitVec.or_eq_zero_iff.trans ?_
  change l = 0 ∧ h = 0 ↔ _
  rw [hl, hh]
  omega

/-- COMPA: HL is incremented, and the carry says that it has passed DE or come round to zero. -/
theorem Stands.compa (hs : Stands s (w :: ws) v) (hpc : s.pc = COMPA.entry)
    (h : ∀ sp a fl, fl.carry = (decide (s.hl + 1 = 0) || decide (s.de < s.hl + 1)) →
      Stands (State.setHl { s with pc := w, sp := sp, a := a, flags := fl } (s.hl + 1)) ws v →
      Leads M (State.setHl { s with pc := w, sp := sp, a := a, flags := fl } (s.hl + 1)) u Q) :
    Leads M s (51 + u) Q := by
  have hhl : word (hiByte (s.hl + 1)) (loByte (s.hl + 1)) = s.hl + 1 := word_hiByte_loByte _
  have hzero : (loByte (s.hl + 1) ||| hiByte (s.hl + 1) == 0) = decide (s.hl + 1 = 0) := by
    rw [or_eq_zero, hhl]
  obtain ⟨a, fl, hfl, hcarry, hrun⟩ : ∃ a fl, fl.zero = decide (s.hl + 1 = 0) ∧ fl.carry = true ∧
      runs View.env (jump s (COMPA.addr 0)) (COMPA.piece 0 4) =
        State.setHl { s with pc := COMPA.addr 4, a := a, flags := fl } (s.hl + 1) :=
    ⟨_, _, hzero, rfl, rfl⟩
  refine Leads.le (t := 18 + (33 + u)) ?_ (by omega)
  refine piece COMPA 0 4 rfl rfl hs.toRunning hpc hrun ?_
  have hs₁ : Stands (State.setHl { s with pc := COMPA.addr 4, a := a, flags := fl } (s.hl + 1))
      (w :: ws) v := hs.of_same rfl rfl rfl
  cases hround : decide (s.hl + 1 = 0) with
  | true =>
    refine Leads.le (t := 11 + u) ?_ (by omega)
    have htaken : Cond.z.holds fl = true := by rw [Cond.holds, hfl, hround]
    refine hs₁.ret_if COMPA 4 rfl rfl htaken fun sp hs' => ?_
    rw [hround, Bool.true_or] at h
    exact h sp a fl hcarry hs'
  | false =>
    refine Leads.le (t := 5 + (28 + u)) ?_ (by omega)
    have hstay : Cond.z.holds fl = false := by rw [Cond.holds, hfl, hround]
    refine hs₁.stay_if COMPA 4 rfl rfl hstay ?_
    refine Stands.compa1 (hs₁.of_same rfl rfl rfl) rfl fun sp a fl hfl hs' => ?_
    rw [hround, Bool.false_or] at h
    have hde : fl.carry = decide (s.de < word (hiByte (s.hl + 1)) (loByte (s.hl + 1))) := hfl
    rw [hhl] at hde
    exact h sp a fl hde hs'

/-! ## Converting -/

def CONVBIN : Routine where
  entry := 0x0282
  code := [.alui .ana 0x0F, .alui .add 0x90, .daa, .alui .adc 0x40, .daa, .ret]

/-- The ASCII code of a hexadecimal digit. -/
def hexDigit (v : U8) : U8 := if v &&& 0x0F < 10 then 0x30 + (v &&& 0x0F) else 0x37 + (v &&& 0x0F)

/-- Two decimal adjustments that adjust nothing make the digit. -/
theorem a_convbin (s : State View) : (runs View.env s (CONVBIN.piece 0 5)).a = hexDigit s.a := by
  let nowhere : Bus Unit := ⟨fun _ _ => 0, fun e _ _ => e, fun _ _ => 0, fun e _ _ => e⟩
  have key : ∀ a : U8, (runs nowhere ⟨⟨a, 0, 0, 0, 0, 0, 0, .ofByte 0, 0, 0⟩, false, false, ()⟩
      (CONVBIN.piece 0 5)).a = hexDigit a := by
    decide +kernel
  exact key s.a

/-- **CONVBIN** turns the low half of A into a hexadecimal digit. -/
theorem Stands.convbin (hs : Stands s (w :: ws) v) (hpc : s.pc = CONVBIN.entry)
    (h : ∀ sp fl, Stands { s with pc := w, sp := sp, a := hexDigit s.a, flags := fl } ws v →
      Leads M { s with pc := w, sp := sp, a := hexDigit s.a, flags := fl } u Q) :
    Leads M s (39 + u) Q := by
  obtain ⟨a, ha, fl, hrun⟩ : ∃ a, a = hexDigit s.a ∧ ∃ fl,
      runs View.env (jump s (CONVBIN.addr 0)) (CONVBIN.piece 0 5) =
        { s with pc := CONVBIN.addr 5, a := a, flags := fl } :=
    ⟨_, a_convbin (jump s (CONVBIN.addr 0)), _, rfl⟩
  subst ha
  refine Leads.le (t := 29 + (10 + u)) ?_ (by omega)
  refine piece CONVBIN 0 5 rfl rfl hs.toRunning hpc hrun ?_
  exact Stands.ret (hs.of_same rfl rfl rfl) CONVBIN 5 rfl rfl fun sp => h sp fl

/-! ## Waiting -/

def DELAY : Routine where
  entry := 0x035B
  code := [.lxi .de 0x0352, .dcx .de, .mov .a .d, .alu .ora .e, .jcc .nz 0x035E, .ret]

/-- A round of the loop. -/
theorem delay_round (hs : Running s) (hpc : s.pc = DELAY.addr 1) :
    ∃ a fl, Arrives M s 24 (State.setDe
      { s with
        pc := if s.de - 1 = 0 then DELAY.addr 5 else DELAY.addr 1
        a := a
        flags := fl } (s.de - 1)) := by
  have hrun := reaches_block kept_loaded (fun e he => Routine.codeAt_piece DELAY he 1 4) rfl
    hs.loaded hpc hs.awake
  have hde : word (hiByte (s.de - 1)) (loByte (s.de - 1)) = s.de - 1 := word_hiByte_loByte _
  have hzero : (hiByte (s.de - 1) ||| loByte (s.de - 1) == 0) = decide (s.de - 1 = 0) := by
    rw [BitVec.or_comm, or_eq_zero, hde]
  obtain ⟨a, fl, hfl, hrun'⟩ : ∃ a fl, fl.zero = decide (s.de - 1 = 0) ∧
      runs View.env s (DELAY.piece 1 3) =
        State.setDe { s with pc := DELAY.addr 4, a := a, flags := fl } (s.de - 1) := by
    rw [← jump_self hpc]
    exact ⟨_, _, hzero, rfl⟩
  have hlast : runs View.env s (DELAY.piece 1 4) =
      exec View.env (runs View.env s (DELAY.piece 1 3)) (.jcc .nz 0x035E) := rfl
  refine ⟨a, fl, ?_⟩
  rw [hlast, hrun'] at hrun
  by_cases h : s.de - 1 = 0
  · rw [if_pos h]
    rw [decide_eq_true h] at hfl
    exact hrun.ends (if_neg (by simp [State.setDe, State.skip, Cond.holds, hfl]))
  · rw [if_neg h]
    rw [decide_eq_false h] at hfl
    exact hrun.ends (if_pos (by simp [State.setDe, State.skip, Cond.holds, hfl]))

/-- The loop takes 24 T states for each count. -/
theorem delay_loop {n : ℕ} (hn : n < 65535) {s : State View} (hs : Running s)
    (hpc : s.pc = DELAY.addr 1) (hde : s.de = BitVec.ofNat 16 (n + 1)) :
    ∃ a fl, Arrives M s (24 * (n + 1))
      { s with pc := DELAY.addr 5, a := a, d := 0, e := 0, flags := fl } := by
  induction n generalizing s with
  | zero =>
    obtain ⟨a, fl, hround⟩ := delay_round hs hpc
    have hpred : s.de - 1 = 0 := by
      rw [hde]
      rfl
    rw [hpred, if_pos rfl] at hround
    exact ⟨a, fl, hround⟩
  | succ n ih =>
    obtain ⟨a, fl, hround⟩ := delay_round hs hpc
    have hpred : s.de - 1 = BitVec.ofNat 16 (n + 1) := by
      rw [hde]
      bv_omega
    have hne : s.de - 1 ≠ 0 := by
      rw [hpred]
      bv_omega
    rw [if_neg hne] at hround
    have hde' : word (hiByte (s.de - 1)) (loByte (s.de - 1)) = BitVec.ofNat 16 (n + 1) := by
      rw [word_hiByte_loByte, hpred]
    obtain ⟨a', fl', hrest⟩ := ih (by omega) (s := State.setDe
      { s with pc := DELAY.addr 1, a := a, flags := fl } (s.de - 1)) ⟨hs.loaded, hs.awake⟩ rfl hde'
    exact ⟨a', fl', (hround.trans hrest).cast (by omega)⟩

/-- **The delay of the keyboard** takes 20 420 T states to the last, and changes nothing but A, DE
and the flags. -/
theorem Stands.delay (hs : Stands s (w :: ws) v) (hpc : s.pc = DELAY.entry)
    (h : ∀ sp a fl, Stands { s with pc := w, sp := sp, a := a, d := 0, e := 0, flags := fl } ws v →
      Leads M { s with pc := w, sp := sp, a := a, d := 0, e := 0, flags := fl } u Q) :
    Leads M s (20420 + u) Q := by
  refine Leads.le (t := 10 + (20410 + u)) ?_ (by omega)
  refine piece DELAY 0 1 rfl rfl hs.toRunning hpc rfl ?_
  change Leads M { s with pc := DELAY.addr 1, d := 0x03, e := 0x52 } _ Q
  have hde : word 0x03 0x52 = BitVec.ofNat 16 (849 + 1) := by decide
  obtain ⟨a, fl, hloop⟩ := delay_loop (n := 849) (by decide)
    (s := { s with pc := DELAY.addr 1, d := 0x03, e := 0x52 }) ⟨hs.loaded, hs.awake⟩ rfl hde
  refine Leads.le (t := 24 * (849 + 1) + (10 + u)) ?_ (by omega)
  refine Leads.after hloop ?_
  exact Stands.ret (hs.of_same rfl rfl rfl) DELAY 5 rfl rfl fun sp => h sp a fl

end Monitor

end Umk80
