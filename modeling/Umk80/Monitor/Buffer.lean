import Umk80.Monitor.Arithmetic

/-!
# The display buffer

Six bytes at `BUFCD` hold what the six digits show, the rightmost digit first: two for the data
field and four for the address field. The routines here write into the buffer. A hexadecimal digit
comes in at the right end of its field and pushes the others to the left.

## Main definitions

* `View.conc`, `View.ersbt`, `View.ersadr`, `View.ersind` — putting and erasing
* `View.shiftIn`, `View.co`, `View.cobyte` — digits coming in

## Main results

* `Monitor.Stands.conc`, `Monitor.Stands.co`, … — one rule for each routine
-/

namespace Umk80

open Isa TimedRuns

namespace Monitor

/-- The display buffer. -/
def BUFCD : U16 := 0x0FFA

/-- The codes of the hexadecimal digits. -/
def SMBTBL : U16 := 0x03AD

/-- The segments of a hexadecimal digit. -/
def symbol (c : U8) : U8 := romByte (SMBTBL + word 0 ((if c < 0x41 then c else c - 7) &&& 0x0F))

end Monitor

/-! ## What is written -/

namespace View

open Monitor

/-- A byte for the digit `i`. -/
def conc (v : View) (i x : U8) : View := v.write (BUFCD + word 0 i) x

/-- A word, as SHLD writes it. -/
def poke16 (v : View) (a w : U16) : View := (v.write a (loByte w)).write (a + 1) (hiByte w)

/-- The data field is dark. -/
def ersbt (v : View) : View := v.poke16 BUFCD 0

/-- The address field is dark. -/
def ersadr (v : View) : View := (v.poke16 (BUFCD + 2) 0).poke16 (BUFCD + 4) 0

/-- All digits are dark. -/
def ersind (v : View) : View := v.ersbt.ersadr

/-- `x` comes in at the address `a`, and `n` bytes make room for it. -/
def shiftIn (v : View) (a : U16) : ℕ → U8 → View
  | 0, _ => v
  | n + 1, x => shiftIn (v.write a x) (a + 1) n (v.mem a)

/-- A digit comes in: at the data field for type 0, else at the address field. -/
def co (v : View) (type c : U8) : View :=
  if type = 0 then v.shiftIn BUFCD 2 (symbol c) else v.shiftIn (BUFCD + 2) 4 (symbol c)

/-- The two digits of a byte. -/
def cobyte (v : View) (type x : U8) : View :=
  (v.co type (hexDigit (x.rotateRight 4))).co type (hexDigit x)

end View

namespace Monitor

/-! ## Where the buffer is -/

/-- An address behind the variables, up to the end of RAM. -/
def Shown (a : U16) : Prop := BUFCD ≤ a ∧ a < 0x1000

instance (a : U16) : Decidable (Shown a) := by
  unfold Shown
  infer_instance

theorem not_private_of_shown {rev : Rev} {a : U16} (h : Shown a) : ¬ Private rev a := by
  rintro ⟨-, -, hp⟩
  have hlow : 0xFFA ≤ a.toNat := h.1
  have hhigh : a.toNat < 0x1000 := h.2
  split at hp
  all_goals omega

theorem shown_digit {i : U8} (hi : i < 6) : Shown (BUFCD + word 0 i) := by
  have hlt : i.toNat < 6 := hi
  have hword : (word 0 i).toNat = i.toNat := by
    rw [toNat_word]
    change 256 * 0 + _ = _
    omega
  have hadd : (BUFCD + word 0 i).toNat = 0xFFA + i.toNat := by
    rw [BitVec.toNat_add, hword]
    change (0xFFA + i.toNat) % 65536 = _
    omega
  refine ⟨?_, ?_⟩
  · change 0xFFA ≤ (BUFCD + word 0 i).toNat
    omega
  · change (BUFCD + word 0 i).toNat < 0x1000
    omega

variable {u : ℕ} {w : U16} {s : State View} {ws : List U16} {v : View} {Q : State View → Prop}

-- Writes are compared by their address and value, not byte by byte.
attribute [local irreducible] View.write

/-- Writing two bytes. -/
theorem Stands.poke16 (hs : Stands s ws v) {a : U16} (ha : Shown a) (ha' : Shown (a + 1)) (w : U16)
    {s' : State View} (henv : s'.env = s.env.poke16 a w) (hsp : s'.sp = s.sp)
    (hh : s'.halted = s.halted) : Stands s' ws (v.poke16 a w) := by
  have hlow : Stands { s with env := s.env.write a (loByte w) } ws (v.write a (loByte w)) :=
    hs.write (not_private_of_shown ha) _ rfl rfl rfl
  exact hlow.write (not_private_of_shown ha') _ henv hsp hh

/-! ## Putting and erasing -/

def CONC : Routine where
  entry := 0x02B0
  code := [.lxi .hl 0x0FFA, .mov .e .b, .mvi .d 0, .dad .de, .mov .m .c, .ret]

theorem runs_conc (s : State View) : ∃ h l fl,
    runs View.env (jump s (CONC.addr 0)) (CONC.piece 0 5) = { s with
      pc := CONC.addr 5
      d := 0
      e := s.b
      h := h
      l := l
      flags := fl
      env := s.env.write (BUFCD + word 0 s.b) s.c } := by
  obtain ⟨fl, hrun⟩ : ∃ fl, runs View.env (jump s (CONC.addr 0)) (CONC.piece 0 5) =
      let a := word (hiByte BUFCD) (loByte BUFCD) + word 0 s.b
      State.setHl { s with
        pc := CONC.addr 5
        d := 0
        e := s.b
        flags := fl
        env := s.env.write (word (hiByte a) (loByte a)) s.c } a := by
    obtain ⟨⟨⟩, _⟩ := s
    exact ⟨_, rfl⟩
  simp only [word_hiByte_loByte] at hrun
  exact ⟨_, _, fl, hrun⟩

/-- **CONC** puts C at the digit B. -/
theorem Stands.conc (hs : Stands s (w :: ws) v) (hpc : s.pc = CONC.entry) (hb : s.b < 6)
    (h : ∀ sp d e h l fl env,
      Stands { s with pc := w, sp := sp, d := d, e := e, h := h, l := l, flags := fl, env := env }
        ws (v.conc s.b s.c) →
      Leads M { s with pc := w, sp := sp, d := d, e := e, h := h, l := l, flags := fl, env := env }
        u Q) : Leads M s (49 + u) Q := by
  obtain ⟨h', l, fl, hrun⟩ := runs_conc s
  refine Leads.le (t := 39 + (10 + u)) ?_ (by omega)
  refine piece CONC 0 5 rfl rfl hs.toRunning hpc hrun ?_
  refine Stands.ret ?_ CONC 5 rfl rfl fun sp => h sp _ _ _ _ _ _
  exact hs.write (not_private_of_shown (shown_digit hb)) _ rfl rfl rfl

def ERSBT : Routine where
  entry := 0x02B9
  code := [.lxi .hl 0, .shld 0x0FFA, .ret]

/-- **ERSBT** darkens the data field. -/
theorem Stands.ersbt (hs : Stands s (w :: ws) v) (hpc : s.pc = ERSBT.entry)
    (h : ∀ sp env, Stands { s with pc := w, sp := sp, h := 0, l := 0, env := env } ws v.ersbt →
      Leads M { s with pc := w, sp := sp, h := 0, l := 0, env := env } u Q) :
    Leads M s (36 + u) Q := by
  have hrun : runs View.env (jump s (ERSBT.addr 0)) (ERSBT.piece 0 2) =
      { s with pc := ERSBT.addr 2, h := 0, l := 0, env := s.env.poke16 BUFCD 0 } := by
    obtain ⟨⟨⟩, _⟩ := s
    rfl
  refine Leads.le (t := 26 + (10 + u)) ?_ (by omega)
  refine piece ERSBT 0 2 rfl rfl hs.toRunning hpc hrun ?_
  refine Stands.ret ?_ ERSBT 2 rfl rfl fun sp => h sp _
  exact hs.poke16 (by decide) (by decide) 0 rfl rfl rfl

def ERSADR : Routine where
  entry := 0x02C3
  code := [.lxi .hl 0, .shld 0x0FFC, .shld 0x0FFE, .ret]

/-- **ERSADR** darkens the address field. -/
theorem Stands.ersadr (hs : Stands s (w :: ws) v) (hpc : s.pc = ERSADR.entry)
    (h : ∀ sp env, Stands { s with pc := w, sp := sp, h := 0, l := 0, env := env } ws v.ersadr →
      Leads M { s with pc := w, sp := sp, h := 0, l := 0, env := env } u Q) :
    Leads M s (52 + u) Q := by
  have hrun : runs View.env (jump s (ERSADR.addr 0)) (ERSADR.piece 0 3) =
      { s with pc := ERSADR.addr 3, h := 0, l := 0, env := s.env.ersadr } := by
    obtain ⟨⟨⟩, _⟩ := s
    rfl
  refine Leads.le (t := 42 + (10 + u)) ?_ (by omega)
  refine piece ERSADR 0 3 rfl rfl hs.toRunning hpc hrun ?_
  refine Stands.ret ?_ ERSADR 3 rfl rfl fun sp => h sp _
  have hfirst : Stands { s with env := s.env.poke16 (BUFCD + 2) 0 } (w :: ws)
      (v.poke16 (BUFCD + 2) 0) := hs.poke16 (by decide) (by decide) 0 rfl rfl rfl
  exact hfirst.poke16 (by decide) (by decide) 0 rfl rfl rfl

def ERSIND : Routine where
  entry := 0x02C0
  code := [.call 0x02B9]

/-- **ERSIND** darkens the display. -/
theorem Stands.ersind (hs : Stands s (w :: ws) v) (hpc : s.pc = ERSIND.entry)
    (hroom : ws.length + 1 < HEIGHT)
    (h : ∀ sp env, Stands { s with pc := w, sp := sp, h := 0, l := 0, env := env } ws v.ersind →
      Leads M { s with pc := w, sp := sp, h := 0, l := 0, env := env } u Q) :
    Leads M s (105 + u) Q := by
  refine Leads.le (t := 17 + (36 + (52 + u))) ?_ (by omega)
  refine hs.call ERSIND 0 rfl hpc hroom fun sp env hs => ?_
  refine hs.ersbt rfl fun sp env hs => ?_
  exact hs.ersadr rfl fun sp env hs => h sp env hs

/-! ## Digits coming in -/

def CO : Routine where
  entry := 0x0332
  code := [.lxi .hl 0x03AD, .mov .a .c, .alui .cmp 0x41, .jcc .c 0x033D, .alui .sub 7,
    .alui .ana 0x0F, .mov .e .a, .mvi .d 0, .dad .de, .mov .e .m,
    .lxi .hl 0x0FFA, .mvi .d 2, .mov .a .b, .alu .ora .a, .jcc .z 0x0352,
    .inx .hl, .inx .hl, .mvi .d 4,
    -- RALLP
    .mov .a .m, .mov .m .e, .mov .e .a, .inx .hl, .dcr .d, .jcc .nz 0x0352, .ret]

/-- The byte in E comes in at HL, `n` more bytes are to be moved on, and then the board is `v'`. The
registers that the loop does not use are those of `s₀`. -/
def Shifting (s₀ : State View) (ws : List U16) (v' : View) (n : ℕ) (s : State View) : Prop :=
  (s.b = s₀.b ∧ s.c = s₀.c ∧ s.inte = s₀.inte) ∧
    ∃ v, Stands s ws v ∧ s.pc = CO.addr 18 ∧ s.d = BitVec.ofNat 8 (n + 1) ∧ n < 255 ∧ Shown s.hl ∧
      s.hl.toNat + n < 0x1000 ∧ v.shiftIn s.hl (n + 1) s.e = v'

/-- A round of the loop, up to the jump. -/
theorem Shifting.round {s₀ : State View} {v' : View} {n : ℕ} (h : Shifting s₀ ws v' n s) :
    Leads M s 29 (RoundEnd CO 18 23 .nz (Shifting s₀ ws v')
      (fun s' => (s'.b = s₀.b ∧ s'.c = s₀.c ∧ s'.inte = s₀.inte) ∧ s'.pc = CO.addr 24 ∧
        Stands s' ws v') n) := by
  obtain ⟨⟨hb, hc, hinte⟩, v, hs, hpc, hd, hn, hshown, hhigh, hv⟩ := h
  have hlow : 0xFFA ≤ s.hl.toNat := hshown.1
  obtain ⟨s', hrun, hpc', hd', hhl', he', hzero, henv, hsp, hh, hb', hc', hinte'⟩ :
      ∃ s', runs View.env (jump s (CO.addr 18)) (CO.piece 18 5) = s' ∧ s'.pc = CO.addr 23 ∧
        s'.d = s.d - 1 ∧ s'.hl = s.hl + 1 ∧ s'.e = s.env.mem s.hl ∧
        s'.flags.zero = (s.d - 1 == 0) ∧ s'.env = s.env.write s.hl s.e ∧ s'.sp = s.sp ∧
        s'.halted = s.halted ∧ s'.b = s.b ∧ s'.c = s.c ∧ s'.inte = s.inte := by
    obtain ⟨⟨⟩, _⟩ := s
    exact ⟨_, rfl, rfl, rfl, word_hiByte_loByte _, rfl, rfl, rfl, rfl, rfl, rfl, rfl, rfl⟩
  rw [hs.mem _ (not_private_of_shown hshown)] at he'
  have hs' : Stands s' ws (v.write s.hl s.e) :=
    hs.write (not_private_of_shown hshown) _ henv hsp hh
  have hkept : s'.b = s₀.b ∧ s'.c = s₀.c ∧ s'.inte = s₀.inte := by
    rw [hb', hc', hinte']
    exact ⟨hb, hc, hinte⟩
  refine piece (u := 0) CO 18 5 rfl rfl hs.toRunning hpc hrun (.of ?_)
  refine ⟨hs'.toRunning, hpc', ?_, ?_, ?_⟩
  · rw [Cond.holds, hzero, counter_test hd hn]
  · rintro n rfl
    refine ⟨hkept, _, hs'.of_same rfl rfl rfl, rfl, by rw [hd', counter_next hd], by omega, ?_⟩
    change Shown s'.hl ∧ s'.hl.toNat + n < 0x1000 ∧ View.shiftIn _ s'.hl (n + 1) s'.e = v'
    rw [hhl', he']
    have hnext : (s.hl + 1).toNat = s.hl.toNat + 1 := by bv_omega
    exact ⟨⟨show 0xFFA ≤ (s.hl + 1).toNat by omega, show (s.hl + 1).toNat < 0x1000 by omega⟩,
      by omega, hv⟩
  · rintro rfl
    exact ⟨hkept, rfl, hv ▸ hs'.of_same rfl rfl rfl⟩

/-- The loop of CO: the byte in E comes in at HL. -/
theorem Stands.rallp {n : ℕ} (hn : n < 6) {a : U16} {x : U8} {s : State View} {v : View}
    (hs : Stands s (w :: ws) v) (hpc : s.pc = CO.addr 18) (hhl : s.hl = a) (he : s.e = x)
    (hd : s.d = BitVec.ofNat 8 (n + 1)) (ha : Shown a) (ha' : a.toNat + n < 0x1000)
    (h : ∀ sp a' d e h l fl env, Stands { s with
        pc := w, sp := sp, a := a', d := d, e := e, h := h, l := l, flags := fl, env := env } ws
        (v.shiftIn a (n + 1) x) →
      Leads M { s with
        pc := w, sp := sp, a := a', d := d, e := e, h := h, l := l, flags := fl, env := env } u Q) :
    Leads M s (39 * (n + 1) + (10 + u)) Q := by
  subst hhl he
  have hloop := leads_counted rfl (fun n s' (h : Shifting s _ _ n s') => h.round)
    ⟨⟨rfl, rfl, rfl⟩, v, hs, hpc, hd, Nat.lt_trans hn (by decide), ha, ha', rfl⟩
  refine hloop.bind fun s' ⟨⟨hb, hc, hinte⟩, hpc', hs'⟩ => ?_
  have hh : s'.halted = s.halted := by rw [hs'.awake, hs.awake]
  refine hs'.ret CO 24 rfl hpc' fun sp hs' => ?_
  obtain ⟨⟨a, b, c, d, e, h', l, fl, sp', pc⟩, inte, halted, env⟩ := s'
  cases hb
  cases hc
  cases hinte
  cases hh
  exact h sp a d e h' l fl env hs'

/-- The number of a digit, up to multiples of 16. -/
def digitOf (c : U8) : U8 := if c < 0x41 then c else c - 7

/-- The letters come after the digits. -/
theorem Stands.co_digit (hs : Stands s ws v) (hpc : s.pc = CO.entry)
    (h : ∀ fl, Stands (State.setHl { s with
        pc := CO.addr 5, a := digitOf s.c, flags := fl } SMBTBL) ws v →
      Leads M (State.setHl { s with pc := CO.addr 5, a := digitOf s.c, flags := fl } SMBTBL) u Q) :
    Leads M s (39 + u) Q := by
  obtain ⟨fl, hfl, hrun⟩ : ∃ fl, fl.carry = decide (s.c < 0x41) ∧
      runs View.env (jump s (CO.addr 0)) (CO.piece 0 3) =
        State.setHl { s with pc := CO.addr 3, a := s.c, flags := fl } SMBTBL := by
    obtain ⟨⟨⟩, _⟩ := s
    exact ⟨_, rfl, rfl⟩
  refine Leads.le (t := 22 + (17 + u)) ?_ (by omega)
  refine piece CO 0 3 rfl rfl hs.toRunning hpc hrun ?_
  have hs₁ : Stands (State.setHl { s with pc := CO.addr 3, a := s.c, flags := fl } SMBTBL) ws v :=
    hs.of_same rfl rfl rfl
  by_cases hc : s.c < 0x41
  · have hdigit : digitOf s.c = s.c := if_pos hc
    rw [hdigit] at h
    refine Leads.le (t := 10 + u) ?_ (by omega)
    have htaken : Cond.c.holds fl = true := by rw [Cond.holds, hfl, decide_eq_true hc]
    refine hs₁.jump_if CO 3 rfl rfl htaken ?_
    exact h fl (hs.of_same rfl rfl rfl)
  · have hdigit : digitOf s.c = s.c - 7 := if_neg hc
    rw [hdigit] at h
    refine Leads.le (t := 10 + (7 + u)) ?_ (by omega)
    have hfall : Cond.c.holds fl = false := by rw [Cond.holds, hfl, decide_eq_false hc]
    refine hs₁.fall_if CO 3 rfl rfl hfall ?_
    obtain ⟨fl', hrun'⟩ : ∃ fl',
        runs View.env (jump (State.setHl { s with pc := CO.addr 4, a := s.c, flags := fl } SMBTBL)
          (CO.addr 4)) (CO.piece 4 1) =
        State.setHl { s with pc := CO.addr 5, a := s.c - 7 - 0#8, flags := fl' } SMBTBL := by
      obtain ⟨⟨⟩, _⟩ := s
      exact ⟨_, rfl⟩
    rw [BitVec.sub_zero] at hrun'
    refine piece CO 4 1 rfl rfl ⟨hs.loaded, hs.awake⟩ rfl hrun' ?_
    exact h fl' (hs.of_same rfl rfl rfl)

/-- The segments are looked up. -/
theorem Stands.co_symbol (hs : Stands s ws v) (hpc : s.pc = CO.addr 5) (hhl : s.hl = SMBTBL)
    (h : ∀ a h l fl, Stands { s with
        pc := CO.addr 10
        a := a
        d := 0
        e := romByte (SMBTBL + word 0 (s.a &&& 0x0F))
        h := h
        l := l
        flags := fl } ws v →
      Leads M { s with
        pc := CO.addr 10
        a := a
        d := 0
        e := romByte (SMBTBL + word 0 (s.a &&& 0x0F))
        h := h
        l := l
        flags := fl } u Q) : Leads M s (36 + u) Q := by
  obtain ⟨fl, hrun⟩ : ∃ fl, runs View.env (jump s (CO.addr 5)) (CO.piece 5 5) =
      let a := s.hl + word 0 (s.a &&& 0x0F)
      State.setHl { s with
        pc := CO.addr 10
        a := s.a &&& 0x0F
        d := 0
        e := s.env.mem (word (hiByte a) (loByte a))
        flags := fl } a := by
    obtain ⟨⟨⟩, _⟩ := s
    exact ⟨_, rfl⟩
  have hlow : (s.a &&& 0x0F).toNat ≤ 15 := by
    rw [BitVec.toNat_and]
    exact Nat.and_le_right
  have hword : (word 0 (s.a &&& 0x0F)).toNat = (s.a &&& 0x0F).toNat := by
    rw [toNat_word]
    change 256 * 0 + _ = _
    omega
  have hrom : SMBTBL + word 0 (s.a &&& 0x0F) < RAM_BASE := by
    change (SMBTBL + word 0 (s.a &&& 0x0F)).toNat < 0x800
    rw [BitVec.toNat_add, hword]
    change (0x3AD + _) % 65536 < 0x800
    omega
  simp only [word_hiByte_loByte, hhl, hs.loaded _ hrom] at hrun
  refine piece CO 5 5 rfl rfl hs.toRunning hpc hrun ?_
  exact h _ _ _ _ (hs.of_same rfl rfl rfl)

theorem hl_setHl (s : State View) (a : U16) : (s.setHl a).hl = a := word_hiByte_loByte a

/-- The address field begins two bytes further. -/
theorem runs_address (s : State View) :
    runs View.env (jump s (CO.addr 15)) (CO.piece 15 3) =
      State.setHl { s with pc := CO.addr 18, d := 4 } (s.hl + 2) := by
  have htwo : s.hl + 2 = s.hl + 1 + 1 := by rw [BitVec.add_assoc]; rfl
  have hrun : runs View.env (jump s (CO.addr 15)) (CO.piece 15 3) =
      State.setHl { s with pc := CO.addr 18, d := 4 }
        (word (hiByte (s.hl + 1)) (loByte (s.hl + 1)) + 1) := by
    obtain ⟨⟨⟩, _⟩ := s
    rfl
  rw [hrun, word_hiByte_loByte, htwo]

/-- The field is chosen by B, and the byte in E comes in there. -/
theorem Stands.co_field (hs : Stands s (w :: ws) v) (hpc : s.pc = CO.addr 10)
    (h : ∀ sp a d e h l fl env, Stands { s with
        pc := w, sp := sp, a := a, d := d, e := e, h := h, l := l, flags := fl, env := env } ws
        (if s.b = 0 then v.shiftIn BUFCD 2 s.e else v.shiftIn (BUFCD + 2) 4 s.e) →
      Leads M { s with
        pc := w, sp := sp, a := a, d := d, e := e, h := h, l := l, flags := fl, env := env } u Q) :
    Leads M s (219 + u) Q := by
  obtain ⟨fl, hfl, hrun⟩ : ∃ fl, fl.zero = (s.b ||| s.b == 0) ∧
      runs View.env (jump s (CO.addr 10)) (CO.piece 10 4) =
        State.setHl { s with pc := CO.addr 14, a := s.b ||| s.b, d := 2, flags := fl } BUFCD := by
    obtain ⟨⟨⟩, _⟩ := s
    exact ⟨_, rfl, rfl⟩
  rw [BitVec.or_self] at hfl hrun
  refine Leads.le (t := 26 + (193 + u)) ?_ (by omega)
  refine piece CO 10 4 rfl rfl hs.toRunning hpc hrun ?_
  have hs₁ : Stands (State.setHl { s with pc := CO.addr 14, a := s.b, d := 2, flags := fl } BUFCD)
      (w :: ws) v := hs.of_same rfl rfl rfl
  by_cases hb : s.b = 0
  · rw [if_pos hb] at h
    refine Leads.le (t := 10 + (39 * 2 + (10 + u))) ?_ (by omega)
    have htaken : Cond.z.holds fl = true := by rw [Cond.holds, hfl, beq_iff_eq.mpr hb]
    refine hs₁.jump_if CO 14 rfl rfl htaken ?_
    exact Stands.rallp (n := 1) (by decide) (hs₁.of_same rfl rfl rfl) rfl (word_hiByte_loByte _) rfl
      rfl (by decide) (by decide) h
  · rw [if_neg hb] at h
    have hfall : Cond.z.holds fl = false := by
      rw [Cond.holds, hfl, beq_eq_false_iff_ne.mpr hb]
    refine Leads.le (t := 10 + (17 + (39 * 4 + (10 + u)))) ?_ (by omega)
    refine hs₁.fall_if CO 14 rfl rfl hfall ?_
    have hrun' := runs_address
      (State.setHl { s with pc := CO.addr 15, a := s.b, d := 2, flags := fl } BUFCD)
    rw [hl_setHl] at hrun'
    refine piece CO 15 3 rfl rfl ⟨hs.loaded, hs.awake⟩ rfl hrun' ?_
    exact Stands.rallp (n := 3) (by decide) (hs.of_same rfl rfl rfl) rfl (word_hiByte_loByte _) rfl
      rfl (by decide) (by decide) h

/-- **CO** brings the digit C in, at the field B. -/
theorem Stands.co (hs : Stands s (w :: ws) v) (hpc : s.pc = CO.entry)
    (h : ∀ sp a d e h l fl env, Stands { s with
        pc := w, sp := sp, a := a, d := d, e := e, h := h, l := l, flags := fl, env := env } ws
        (v.co s.b s.c) →
      Leads M { s with
        pc := w, sp := sp, a := a, d := d, e := e, h := h, l := l, flags := fl, env := env } u Q) :
    Leads M s (294 + u) Q := by
  refine Leads.le (t := 39 + (36 + (219 + u))) ?_ (by omega)
  refine hs.co_digit hpc fun fl hs => ?_
  refine hs.co_symbol rfl (word_hiByte_loByte _) fun a h' l fl hs => ?_
  exact hs.co_field rfl h

def COBYTE : Routine where
  entry := 0x028B
  code := [.mvi .b 0, .mov .a .c, .rrc, .rrc, .rrc, .rrc, .call 0x0282, .push .bc, .mov .c .a,
    .call 0x0332, .pop .bc, .mov .a .c, .call 0x0282, .mov .c .a, .jmp 0x0332]

theorem rotateRight_four (x : U8) :
    (((x.rotateRight 1).rotateRight 1).rotateRight 1).rotateRight 1 = x.rotateRight 4 := by
  ext i hi
  simp only [BitVec.getElem_rotateRight]
  match i with
  | 0 | 1 | 2 | 3 | 4 | 5 | 6 | 7 => simp

/-- **COBYTE**, behind its first instruction, brings in the two digits of C, at the field B. -/
theorem Stands.cobyte_field (hs : Stands s (w :: ws) v) (hpc : s.pc = COBYTE.addr 1)
    (hroom : ws.length + 2 < HEIGHT)
    (h : ∀ sp a c d e h l fl env, Stands { s with
        pc := w, sp := sp, a := a, c := c, d := d, e := e, h := h, l := l, flags := fl, env := env }
        ws (v.cobyte s.b s.c) →
      Leads M { s with
        pc := w, sp := sp, a := a, c := c, d := d, e := e, h := h, l := l, flags := fl, env := env }
        u Q) : Leads M s (784 + u) Q := by
  have hroom' : ws.length + 1 < HEIGHT := Nat.lt_of_succ_lt hroom
  obtain ⟨fl, hrun⟩ : ∃ fl, runs View.env (jump s (COBYTE.addr 1)) (COBYTE.piece 1 5) =
      { s with
        pc := COBYTE.addr 6
        a := (((s.c.rotateRight 1).rotateRight 1).rotateRight 1).rotateRight 1
        flags := fl } := by
    obtain ⟨⟨⟩, _⟩ := s
    exact ⟨_, rfl⟩
  rw [rotateRight_four] at hrun
  refine Leads.le (t := 21 + (17 + (39 + (11 + (5 + (17 + (294 + (10 + (5 + (17 + (39 +
    (5 + (10 + (294 + u)))))))))))))) ?_ (by omega)
  refine piece COBYTE 1 5 rfl rfl hs.toRunning hpc hrun ?_
  refine Stands.call (hs.of_same rfl rfl rfl) COBYTE 6 rfl rfl hroom' fun sp env hs => ?_
  refine hs.convbin rfl fun sp fl hs => ?_
  refine hs.save COBYTE 7 rfl rfl hroom' fun sp env hs => ?_
  refine piece COBYTE 8 1 rfl rfl hs.toRunning rfl rfl ?_
  refine Stands.call (hs.of_same rfl rfl rfl) COBYTE 9 rfl rfl hroom fun sp env hs => ?_
  refine hs.co rfl fun sp a d e h' l fl env hs => ?_
  refine hs.restore_bc COBYTE 10 rfl rfl fun sp hs => ?_
  refine piece COBYTE 11 1 rfl rfl hs.toRunning rfl rfl ?_
  refine Stands.call (hs.of_same rfl rfl rfl) COBYTE 12 rfl rfl hroom' fun sp env hs => ?_
  refine hs.convbin rfl fun sp fl hs => ?_
  refine piece COBYTE 13 1 rfl rfl hs.toRunning rfl rfl ?_
  refine Running.jmp ⟨hs.loaded, hs.awake⟩ COBYTE 14 rfl rfl ?_
  refine Stands.co (hs.of_same rfl rfl rfl) rfl fun sp a d e h' l fl env hs => ?_
  exact h sp a _ d e h' l fl env hs

/-- **COBYTE** brings C into the data field. -/
theorem Stands.cobyte (hs : Stands s (w :: ws) v) (hpc : s.pc = COBYTE.entry)
    (hroom : ws.length + 2 < HEIGHT)
    (h : ∀ sp a c d e h l fl env, Stands { s with
        pc := w, sp := sp, a := a, b := 0, c := c, d := d, e := e, h := h, l := l, flags := fl,
        env := env } ws (v.cobyte 0 s.c) →
      Leads M { s with
        pc := w, sp := sp, a := a, b := 0, c := c, d := d, e := e, h := h, l := l, flags := fl,
        env := env } u Q) : Leads M s (791 + u) Q := by
  refine Leads.le (t := 7 + (784 + u)) ?_ (by omega)
  refine piece COBYTE 0 1 rfl rfl hs.toRunning hpc rfl ?_
  exact Stands.cobyte_field (hs.of_same rfl rfl rfl) rfl hroom h

end Monitor

end Umk80
