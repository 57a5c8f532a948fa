import Umk80.Monitor.Session

/-!
# Numbers

PARAM takes the keys of a hexadecimal number and the key that ends it, a space or ВП. The number is
kept in HL, and every digit pushes it to the left, so its last four digits count. Each digit appears
on the display as it is typed.

Whether the number was the last one is in the carry flag.

## Main definitions

* `Key.hex`, `Key.stop` — the keys of the digits, and those that end a number
* `Monitor.Directive` — the six directives, with their keys
* `Monitor.number` — the number that is typed
* `View.typed` — the display after it

## Main results

* `Monitor.toNat_number` — the last four digits count
* `Monitor.Stands.pchk` — a key, and whether it ends a number
* `Monitor.Stands.param` — the digits of a number, and the key that ends it
-/

namespace Umk80

open Isa TimedRuns

/-! ## Keys -/

namespace Key

/-- The ASCII code of a digit. -/
def ascii (d : Fin 16) : U8 := Monitor.hexDigit (BitVec.ofNat 8 d)

/-- The key of a digit. -/
def hex (d : Fin 16) : Key :=
  ⟨⟨2 + d % 4, by omega⟩, match d.val / 4 with | 0 => 1 | 1 => 3 | 2 => 2 | _ => 0⟩

/-- The space, between two numbers. -/
def space : Key := ⟨0, 0⟩

/-- ВП, which ends a directive. -/
def vp : Key := ⟨1, 0⟩

/-- The key behind a number. -/
def stop (last : Bool) : Key := if last then vp else space

theorem code_hex : ∀ d : Fin 16, (hex d).code = ascii d := by decide

theorem code_stop : ∀ last : Bool, (stop last).code = if last then 7 else 6 := by decide

/-- A digit is not below the code of zero. -/
theorem not_ascii_lt : ∀ d : Fin 16, ¬ ascii d < 0x30 := by decide

theorem ascii_ne : ∀ d : Fin 16, ¬ (ascii d = 6 ∨ ascii d = 7) := by decide

/-- The digit of an ASCII code. -/
theorem value_ascii : ∀ d : Fin 16, (if ascii d - 0x30 < 10 then ascii d - 0x30 else
    ascii d - 0x30 - 7) = BitVec.ofNat 8 d := by
  decide

end Key

namespace Monitor

/-- The directives of the monitor, under the labels of their code. -/
inductive Directive
  | replm | replrg | goto | chsum | file | move
deriving DecidableEq

namespace Directive

/-- The code of the key. -/
def code : Directive → U8
  | replm => 0 | replrg => 1 | goto => 2 | chsum => 3 | file => 4 | move => 5

/-- П, РГ, СТ, КС, ЗК and ПМ. -/
def key : Directive → Key
  | replm => ⟨0, 1⟩ | replrg => ⟨1, 1⟩ | goto => ⟨0, 3⟩
  | chsum => ⟨1, 3⟩ | file => ⟨0, 2⟩ | move => ⟨1, 2⟩

theorem code_key (d : Directive) : d.key.code = d.code := by
  cases d
  all_goals decide

theorem code_lt (d : Directive) : d.code < 6 := by
  cases d
  all_goals decide

end Directive

end Monitor

namespace View

variable (v : View) (a b : U8)

/-- A number is typed, digit by digit. -/
def typed (type : U8) (ds : List (Fin 16)) : View :=
  ds.foldl (fun v d => v.co type (Key.ascii d)) v

theorem shiftIn_latch (n : ℕ) (v : View) (c : U16) (x : U8) :
    (v.latch a b).shiftIn c n x = (v.shiftIn c n x).latch a b := by
  induction n generalizing v c x with
  | zero => rfl
  | succ n ih => exact ih (v.write c x) (c + 1) (v.mem c)

theorem co_latch (type c : U8) : (v.latch a b).co type c = (v.co type c).latch a b := by
  rw [co, co, shiftIn_latch, shiftIn_latch]
  split
  all_goals rfl

end View

namespace Monitor

/-- A digit pushes a number to the left. -/
def pushed (x : U16) (d : Fin 16) : U16 := x <<< 4 ||| BitVec.ofNat 16 d.val

/-- A number is pushed to the left by the digits that follow. -/
def number (x : U16) (ds : List (Fin 16)) : U16 := ds.foldl pushed x

theorem toNat_pushed (x : U16) (d : Fin 16) :
    (pushed x d).toNat = (x.toNat * 16 + d.val) % 65536 := by
  have hd := d.isLt
  have hx := x.isLt
  rw [pushed, BitVec.toNat_or, BitVec.toNat_shiftLeft, BitVec.toNat_ofNat, Nat.shiftLeft_eq]
  have hsplit : x.toNat * 2 ^ 4 % 2 ^ 16 = (x.toNat % 4096) <<< 4 := by
    rw [Nat.shiftLeft_eq]
    omega
  rw [hsplit, Nat.mod_eq_of_lt (show d.val < 2 ^ 16 by omega),
    ← Nat.shiftLeft_add_eq_or_of_lt (show d.val < 2 ^ 4 by omega), Nat.shiftLeft_eq]
  omega

/-- The digits to the base 16. -/
def value (n : ℕ) (ds : List (Fin 16)) : ℕ := ds.foldl (fun n d => n * 16 + d.val) n

theorem value_mod (n : ℕ) (ds : List (Fin 16)) :
    value (n % 65536) ds % 65536 = value n ds % 65536 := by
  induction ds generalizing n with
  | nil => exact Nat.mod_mod n 65536
  | cons d ds ih =>
    have hmod : (n % 65536 * 16 + d.val) % 65536 = (n * 16 + d.val) % 65536 := by omega
    change value (n % 65536 * 16 + d.val) ds % 65536 = value (n * 16 + d.val) ds % 65536
    rw [← ih, hmod, ih]

/-- **The last four digits count.** -/
theorem toNat_number (x : U16) (ds : List (Fin 16)) :
    (number x ds).toNat = value x.toNat ds % 65536 := by
  induction ds generalizing x with
  | nil => exact (Nat.mod_eq_of_lt x.isLt).symm
  | cons d ds ih =>
    change (number (pushed x d) ds).toNat = value (x.toNat * 16 + d.val) ds % 65536
    rw [ih, toNat_pushed, value_mod]

variable {k : Key} {ks : List Key} {G g u : ℕ} {bc w : U16} {s s' : State View} {ws : List U16}
  {v : View} {Q : State View → Prop}

namespace Resting

theorem write (h : Resting v) (a : U16) (x : U8) : Resting (v.write a x) := ⟨⟨h.1.a, h.1.b⟩, h.2⟩

theorem latch (h : Resting v) (a b : U8) : Resting (v.latch a b) := ⟨⟨h.1.a, h.1.b⟩, h.2⟩

theorem shiftIn (h : Resting v) (a : U16) (n : ℕ) (x : U8) : Resting (v.shiftIn a n x) := by
  induction n generalizing v a x with
  | zero => exact h
  | succ n ih => exact ih (h.write a x) (a + 1) (v.mem a)

theorem co (h : Resting v) (type c : U8) : Resting (v.co type c) := by
  rw [View.co]
  split
  all_goals exact h.shiftIn _ _ _

end Resting

-- Writes are compared by their address and value, not byte by byte.
attribute [local irreducible] View.write View.output

/-! ## A key is checked -/

def PCHK : Routine where
  entry := 0x026A
  code := [.call 0x02CD, .alui .cmp 6, .rcc .z, .alui .cmp 7, .stc, .rcc .z, .cmc, .ret]

/-- PCHK returns with a code, and says whether it ends a number. -/
structure Checked (x : U8) (bc w : U16) (ws : List U16) (v : View) (s : State View) : Prop
    extends Returns x bc w ws v s where
  zero : s.flags.zero = decide (x = 6 ∨ x = 7)
  carry : s.flags.carry = decide (x = 7)

theorem runs_six (s : State View) : ∃ fl, fl.zero = (s.a - 6 - 0#8 == 0) ∧
    fl.carry = decide (s.a < 6) ∧
    runs View.env (jump s (PCHK.addr 1)) (PCHK.piece 1 1) =
      { s with pc := PCHK.addr 2, flags := fl } := by
  obtain ⟨⟨⟩, _⟩ := s
  exact ⟨_, rfl, rfl, rfl⟩

theorem runs_seven (s : State View) : ∃ fl, fl.zero = (s.a - 7 - 0#8 == 0) ∧ fl.carry = true ∧
    runs View.env (jump s (PCHK.addr 3)) (PCHK.piece 3 2) =
      { s with pc := PCHK.addr 5, flags := fl } := by
  obtain ⟨⟨⟩, _⟩ := s
  exact ⟨_, rfl, rfl, rfl⟩

theorem runs_cmc (s : State View) : ∃ fl, fl.zero = s.flags.zero ∧ fl.carry = !s.flags.carry ∧
    runs View.env (jump s (PCHK.addr 6)) (PCHK.piece 6 1) =
      { s with pc := PCHK.addr 7, flags := fl } := by
  refine ⟨{ s.flags with carry := !s.flags.carry }, rfl, rfl, ?_⟩
  obtain ⟨⟨⟩, _⟩ := s
  rfl

/-- The rest of PCHK, behind CI. -/
theorem Returns.check {x : U8} (h : Returns x bc (PCHK.addr 1) (w :: ws) v s)
    (hQ : ∀ s', Checked x bc w ws v s' → Leads M s' u Q) : Leads M s (42 + u) Q := by
  obtain ⟨hs, hpc, ha, hbc⟩ := h
  obtain ⟨fl, hzero, hcarry, hsix⟩ := runs_six s
  rw [zero_compare, ha] at hzero
  rw [ha] at hcarry
  refine Leads.le (t := 7 + (35 + u)) ?_ (by omega)
  refine piece PCHK 1 1 rfl rfl hs.toRunning hpc hsix ?_
  have hs₁ : Stands { s with pc := PCHK.addr 2, flags := fl } (w :: ws) v := hs.of_same rfl rfl rfl
  by_cases hx : x = 6
  · refine Leads.le (t := 11 + u) ?_ (by omega)
    have htaken : Cond.z.holds fl = true := by rw [Cond.holds, hzero, decide_eq_true hx]
    refine hs₁.ret_if PCHK 2 rfl rfl htaken fun sp hs => ?_
    subst hx
    exact hQ _ ⟨⟨hs, rfl, ha, hbc⟩, hzero, hcarry⟩
  refine Leads.le (t := 5 + (11 + (19 + u))) ?_ (by omega)
  have hstay : Cond.z.holds fl = false := by rw [Cond.holds, hzero, decide_eq_false hx]
  refine hs₁.stay_if PCHK 2 rfl rfl hstay ?_
  obtain ⟨fl', hzero', hcarry', hseven⟩ := runs_seven { s with pc := PCHK.addr 3, flags := fl }
  rw [zero_compare] at hzero'
  change fl'.zero = decide (s.a = 7) at hzero'
  rw [ha] at hzero'
  refine piece PCHK 3 2 rfl rfl ⟨hs.loaded, hs.awake⟩ rfl hseven ?_
  have hs₂ : Stands { s with pc := PCHK.addr 5, flags := fl' } (w :: ws) v :=
    hs.of_same rfl rfl rfl
  by_cases hx' : x = 7
  · refine Leads.le (t := 11 + u) ?_ (by omega)
    have htaken : Cond.z.holds fl' = true := by rw [Cond.holds, hzero', decide_eq_true hx']
    refine hs₂.ret_if PCHK 5 rfl rfl htaken fun sp hs => ?_
    refine hQ _ ⟨⟨hs, rfl, ha, hbc⟩, ?_, ?_⟩
    · change fl'.zero = _
      rw [hzero', decide_eq_true hx', decide_eq_true (Or.inr hx')]
    · change fl'.carry = _
      rw [hcarry', decide_eq_true hx']
  · refine Leads.le (t := 5 + (4 + (10 + u))) ?_ (by omega)
    have hstay' : Cond.z.holds fl' = false := by rw [Cond.holds, hzero', decide_eq_false hx']
    refine hs₂.stay_if PCHK 5 rfl rfl hstay' ?_
    obtain ⟨fl'', hzero'', hcarry'', hcmc⟩ := runs_cmc { s with pc := PCHK.addr 6, flags := fl' }
    refine piece PCHK 6 1 rfl rfl ⟨hs.loaded, hs.awake⟩ rfl hcmc ?_
    refine Stands.ret (hs.of_same rfl rfl rfl) PCHK 7 rfl rfl fun sp hs => ?_
    change fl''.zero = fl'.zero at hzero''
    change fl''.carry = !fl'.carry at hcarry''
    refine hQ _ ⟨⟨hs, rfl, ha, hbc⟩, ?_, ?_⟩
    · change fl''.zero = _
      rw [hzero'', hzero', decide_eq_false hx', decide_eq_false (not_or_intro hx hx')]
    · change fl''.carry = _
      rw [hcarry'', hcarry', decide_eq_false hx']
      rfl

/-- **PCHK** takes the next key. -/
theorem Stands.pchk (hs : Stands s (w :: ws) v) (hpc : s.pc = PCHK.entry) (hv : Resting v)
    (hroom : ws.length + 3 < HEIGHT) (hg : 42 + g ≤ G)
    (h : ∀ s', Checked k.code s.bc w ws (v.latch (column k.col) 0) s' →
      Leads M s' g (Then G Q ks)) : Leads M s (77 + u) (Then G Q (k :: ks)) := by
  refine Leads.le (t := 17 + (60 + u)) ?_ (by omega)
  refine hs.call PCHK 0 rfl hpc (show ws.length + 1 < HEIGHT by omega) fun sp env hs => ?_
  refine hs.ask rfl hv (show ws.length + 1 + 2 < HEIGHT from hroom) fun s' hret => ?_
  exact (hret.check h).le hg

/-! ## A number is taken -/

def PARAM : Routine where
  entry := 0x0239
  code := [.call 0x026A, .jcc .z 0x0276,
    -- PARM1
    .push .bc, .lxi .hl 0,
    -- PARCNT
    .alui .cmp 0x30, .jcc .c 0x0276, .push .hl, .mov .b .c, .mov .c .a, .call 0x0332, .pop .hl,
    .mov .a .c, .alui .sub 0x30, .alui .cmp 10, .jcc .c 0x0259, .alui .sub 7,
    .dad .hl, .dad .hl, .dad .hl, .dad .hl, .alu .ora .l, .mov .l .a, .mov .c .b, .push .hl,
    .call 0x026A, .pop .hl, .jcc .nz 0x0243, .pop .bc, .ret]

def PARM1 : U16 := PARAM.addr 2

/-- A state stands for a board, whatever its ports A and B hold. -/
def Shows (s : State View) (ws : List U16) (v : View) : Prop := ∃ a b, Stands s ws (v.latch a b)

/-- What PARAM returns with. -/
structure Entered (x : U16) (last : Bool) (bc w : U16) (ws : List U16) (v : View)
    (s : State View) : Prop where
  shows : Shows s ws v
  pc : s.pc = w
  hl : s.hl = x
  bc : s.bc = bc
  carry : s.flags.carry = last

/-- The digit is shown. -/
theorem Stands.param_show (hs : Stands s ws v) (hpc : s.pc = PARAM.addr 4)
    (hroom : ws.length + 1 < HEIGHT) {d : Fin 16} (ha : s.a = Key.ascii d)
    (h : ∀ sp a d' e fl env, Stands { s with
        pc := PARAM.addr 11, sp := sp, a := a, b := s.c, c := Key.ascii d, d := d', e := e,
        flags := fl, env := env } ws (v.co s.c (Key.ascii d)) →
      Leads M { s with
        pc := PARAM.addr 11, sp := sp, a := a, b := s.c, c := Key.ascii d, d := d', e := e,
        flags := fl, env := env } u Q) : Leads M s (359 + u) Q := by
  obtain ⟨fl, hcarry, hrun⟩ : ∃ fl, fl.carry = decide (s.a < 0x30) ∧
      runs View.env (jump s (PARAM.addr 4)) (PARAM.piece 4 1) =
        { s with pc := PARAM.addr 5, flags := fl } := by
    obtain ⟨⟨⟩, _⟩ := s
    exact ⟨_, rfl, rfl⟩
  rw [ha, decide_eq_false (Key.not_ascii_lt d)] at hcarry
  refine Leads.le (t := 7 + (10 + (11 + (10 + (17 + (294 + (10 + u))))))) ?_ (by omega)
  refine piece PARAM 4 1 rfl rfl hs.toRunning hpc hrun ?_
  refine Running.fall_if ⟨hs.loaded, hs.awake⟩ PARAM 5 rfl rfl hcarry ?_
  refine Stands.save (hs.of_same rfl rfl rfl) PARAM 6 rfl rfl (Nat.lt_of_succ_lt hroom)
    fun sp env hs => ?_
  refine piece PARAM 7 2 rfl rfl hs.toRunning rfl rfl ?_
  refine Stands.call (hs.of_same rfl rfl rfl) PARAM 9 rfl rfl hroom fun sp env hs => ?_
  refine hs.co rfl fun sp a d' e h' l fl env hs => ?_
  refine hs.restore_hl PARAM 10 rfl rfl fun sp hs => ?_
  change Stands { s with
    pc := PARAM.addr 11, sp := sp, a := a, b := s.c, c := s.a, d := d', e := e, flags := fl,
    env := env } ws (v.co s.c s.a) at hs
  change Leads M { s with
    pc := PARAM.addr 11, sp := sp, a := a, b := s.c, c := s.a, d := d', e := e, flags := fl,
    env := env } u Q
  rw [ha] at hs ⊢
  exact h sp a d' e fl env hs

/-- The value of the digit. -/
theorem Stands.param_digit (hs : Stands s ws v) (hpc : s.pc = PARAM.addr 11) {d : Fin 16}
    (hc : s.c = Key.ascii d)
    (h : ∀ fl, Stands { s with pc := PARAM.addr 16, a := BitVec.ofNat 8 d.val, flags := fl } ws v →
      Leads M { s with pc := PARAM.addr 16, a := BitVec.ofNat 8 d.val, flags := fl } u Q) :
    Leads M s (36 + u) Q := by
  obtain ⟨a, fl, ha, hcarry, hrun⟩ : ∃ a fl, a = s.c - 0x30 - 0#8 ∧ fl.carry = decide (a < 10) ∧
      runs View.env (jump s (PARAM.addr 11)) (PARAM.piece 11 3) =
        { s with pc := PARAM.addr 14, a := a, flags := fl } := by
    obtain ⟨⟨⟩, _⟩ := s
    exact ⟨_, _, rfl, rfl, rfl⟩
  rw [BitVec.sub_zero, hc] at ha
  have hvalue := Key.value_ascii d
  rw [← ha] at hvalue
  refine Leads.le (t := 19 + (10 + (7 + u))) ?_ (by omega)
  refine piece PARAM 11 3 rfl rfl hs.toRunning hpc hrun ?_
  have hs₁ : Stands { s with pc := PARAM.addr 14, a := a, flags := fl } ws v :=
    hs.of_same rfl rfl rfl
  by_cases hd : a < 10
  · rw [if_pos hd] at hvalue
    refine Leads.le (t := 10 + u) ?_ (by omega)
    have htaken : Cond.c.holds fl = true := by rw [Cond.holds, hcarry, decide_eq_true hd]
    refine hs₁.jump_if PARAM 14 rfl rfl htaken ?_
    rw [← hvalue] at h
    exact h fl (hs.of_same rfl rfl rfl)
  · rw [if_neg hd] at hvalue
    have hfall : Cond.c.holds fl = false := by rw [Cond.holds, hcarry, decide_eq_false hd]
    refine hs₁.fall_if PARAM 14 rfl rfl hfall ?_
    obtain ⟨fl', hseven⟩ : ∃ fl', runs View.env (jump { s with
        pc := PARAM.addr 15, a := a, flags := fl } (PARAM.addr 15)) (PARAM.piece 15 1) =
        { s with pc := PARAM.addr 16, a := a - 7 - 0#8, flags := fl' } := by
      obtain ⟨⟨⟩, _⟩ := s
      exact ⟨_, rfl⟩
    rw [BitVec.sub_zero, hvalue] at hseven
    refine piece PARAM 15 1 rfl rfl ⟨hs.loaded, hs.awake⟩ rfl hseven ?_
    exact h fl' (hs.of_same rfl rfl rfl)

/-- Four doublings shift a word by a digit. -/
theorem doubled (x : U16) : x + x + (x + x) + (x + x + (x + x)) +
    (x + x + (x + x) + (x + x + (x + x))) = x <<< 4 := by
  refine BitVec.eq_of_toNat_eq ?_
  simp only [BitVec.toNat_add, BitVec.toNat_shiftLeft, Nat.shiftLeft_eq]
  omega

/-- A byte comes in below. -/
theorem word_or (y : U16) (x : U8) : word (hiByte y) (x ||| loByte y) = y ||| x.setWidth 16 := by
  have hy := word_hiByte_loByte y
  rw [word] at hy ⊢
  rw [BitVec.setWidth_or, BitVec.or_comm (x.setWidth 16), ← BitVec.or_assoc, hy]

theorem setWidth_digit : ∀ d : Fin 16,
    (BitVec.ofNat 8 d.val).setWidth 16 = BitVec.ofNat 16 d.val := by
  decide

/-- The digit comes into the number. -/
theorem Stands.param_push (hs : Stands s ws v) (hpc : s.pc = PARAM.addr 16) {d : Fin 16}
    (ha : s.a = BitVec.ofNat 8 d.val)
    (h : ∀ a fl, Stands (State.setHl { s with pc := PARAM.addr 23, a := a, c := s.b, flags := fl }
        (pushed s.hl d)) ws v →
      Leads M (State.setHl { s with pc := PARAM.addr 23, a := a, c := s.b, flags := fl }
        (pushed s.hl d)) u Q) : Leads M s (54 + u) Q := by
  obtain ⟨fl, hdad⟩ : ∃ fl, runs View.env (jump s (PARAM.addr 16)) (PARAM.piece 16 4) =
      let x := s.hl + s.hl
      let y := word (hiByte x) (loByte x) + word (hiByte x) (loByte x)
      let z := word (hiByte y) (loByte y) + word (hiByte y) (loByte y)
      State.setHl { s with pc := PARAM.addr 20, flags := fl }
        (word (hiByte z) (loByte z) + word (hiByte z) (loByte z)) := by
    obtain ⟨⟨⟩, _⟩ := s
    exact ⟨_, rfl⟩
  simp only [word_hiByte_loByte, doubled] at hdad
  obtain ⟨fl', hor⟩ : ∃ fl', runs View.env (jump (State.setHl { s with
      pc := PARAM.addr 20, flags := fl } (s.hl <<< 4)) (PARAM.addr 20)) (PARAM.piece 20 3) =
      { s with
        pc := PARAM.addr 23
        a := s.a ||| loByte (s.hl <<< 4)
        c := s.b
        h := hiByte (s.hl <<< 4)
        l := s.a ||| loByte (s.hl <<< 4)
        flags := fl' } := by
    obtain ⟨⟨⟩, _⟩ := s
    exact ⟨_, rfl⟩
  have hpushed : word (hiByte (s.hl <<< 4)) (s.a ||| loByte (s.hl <<< 4)) = pushed s.hl d := by
    rw [word_or, ha, setWidth_digit, pushed]
  refine Leads.le (t := 40 + (14 + u)) ?_ (by omega)
  refine piece PARAM 16 4 rfl rfl hs.toRunning hpc hdad ?_
  refine piece PARAM 20 3 rfl rfl ⟨hs.loaded, hs.awake⟩ rfl hor ?_
  simp only [← hpushed, State.setHl, hiByte_word, loByte_word] at h
  exact h _ fl' (hs.of_same rfl rfl rfl)

/-- A digit has come into the number, and the next key is there. -/
structure AtMore (x : U8) (n : U16) (type : U8) (ws : List U16) (v : View) (s : State View) :
    Prop where
  shows : Shows s ws v
  pc : s.pc = PARAM.addr 26
  a : s.a = x
  c : s.c = type
  hl : s.hl = n
  zero : s.flags.zero = decide (x = 6 ∨ x = 7)
  carry : s.flags.carry = decide (x = 7)

theorem c_of_bc {s : State View} {x y : U8} (h : s.bc = word x y) : s.c = y := by
  have hlow := congrArg loByte h
  rwa [Cpu.bc, loByte_word, loByte_word] at hlow

/-- A digit comes into the number. -/
theorem Shows.param_round {d : Fin 16} (hs : Shows s ws v) (hpc : s.pc = PARAM.addr 4)
    (ha : s.a = Key.ascii d) (hv : Resting v) (hroom : ws.length + 4 < HEIGHT) (hg : 52 + g ≤ G)
    (h : ∀ s', AtMore k.code (pushed s.hl d) s.c ws (v.co s.c (Key.ascii d)) s' →
      Leads M s' g (Then G Q ks)) : Leads M s 554 (Then G Q (k :: ks)) := by
  obtain ⟨a, b, hs⟩ := hs
  refine Leads.le (t := 359 + (36 + (54 + (11 + (17 + (77 + 0)))))) ?_ (by omega)
  refine hs.param_show hpc (show ws.length + 1 < HEIGHT by omega) ha fun sp x d' e fl env hs => ?_
  refine hs.param_digit rfl rfl fun fl hs => ?_
  refine hs.param_push rfl rfl fun x fl hs => ?_
  refine hs.save PARAM 23 rfl rfl (show ws.length < HEIGHT by omega) fun sp env hs => ?_
  refine Stands.call (hs.of_same rfl rfl rfl) PARAM 24 rfl rfl
    (show ws.length + 1 < HEIGHT by omega) fun sp env hs => ?_
  refine hs.pchk rfl ((hv.latch a b).co _ _) (show ws.length + 1 + 3 < HEIGHT by omega)
    (show 42 + (10 + g) ≤ G by omega) fun s' hret => ?_
  obtain ⟨⟨hs', hpc', ha', hbc'⟩, hzero, hcarry⟩ := hret
  refine hs'.restore PARAM 25 rfl hpc' fun sp hs' => ?_
  refine h _ ⟨⟨column k.col, 0, ?_⟩, rfl, ha', ?_, ?_, hzero, hcarry⟩
  · rw [View.co_latch] at hs'
    exact hs'
  · exact c_of_bc hbc'
  · rw [setSaved, State.setHl, Cpu.hl, word_hiByte_loByte]
    exact word_hiByte_loByte _

/-- **The digits of a number** that has begun, and the key that ends it. -/
theorem Shows.parcnt {ds : List (Fin 16)} {d : Fin 16} {last : Bool} {x : U16} {type : U8}
    (hs : Shows s (bc :: w :: ws) v) (hpc : s.pc = PARAM.addr 4) (ha : s.a = Key.ascii d)
    (hc : s.c = type) (hhl : s.hl = x) (hv : Resting v) (hroom : ws.length + 6 < HEIGHT)
    (hg : 700 + g ≤ G)
    (h : ∀ s', Entered (number x (d :: ds)) last bc w ws (v.typed type (d :: ds)) s' →
      Leads M s' g (Then G Q ks)) :
    Leads M s 554 (Then G Q (ds.map Key.hex ++ Key.stop last :: ks)) := by
  have hroom' : (bc :: w :: ws).length + 4 < HEIGHT := hroom
  subst hc hhl
  induction ds generalizing s v d with
  | nil =>
    have hturn : 52 + (10 + (10 + (10 + g))) ≤ G := by omega
    refine hs.param_round hpc ha hv hroom' hturn fun s' hmore => ?_
    obtain ⟨⟨a, b, hs'⟩, hpc', -, -, hhl', hzero, hcarry⟩ := hmore
    have hfall : Cond.nz.holds s'.flags = false := by
      rw [Cond.holds, hzero, Key.code_stop]
      cases last
      all_goals rfl
    refine hs'.fall_if PARAM 26 rfl hpc' hfall ?_
    refine Stands.restore (hs'.of_same rfl rfl rfl) PARAM 27 rfl rfl fun sp hs' => ?_
    refine hs'.ret PARAM 28 rfl rfl fun sp hs' => ?_
    refine h _ ⟨⟨a, b, hs'⟩, rfl, hhl', word_hiByte_loByte bc, ?_⟩
    change s'.flags.carry = last
    rw [hcarry, Key.code_stop]
    cases last
    all_goals rfl
  | cons d' ds ih =>
    refine hs.param_round (g := 10 + 554) hpc ha hv hroom' (by omega) fun s' hmore => ?_
    obtain ⟨⟨a, b, hs'⟩, hpc', ha', hc', hhl', hzero, -⟩ := hmore
    rw [Key.code_hex] at ha' hzero
    have htaken : Cond.nz.holds s'.flags = true := by
      rw [Cond.holds, hzero, Bool.not_eq_true', decide_eq_false_iff_not]
      exact Key.ascii_ne d'
    refine hs'.jump_if PARAM 26 rfl hpc' htaken ?_
    refine ih ⟨a, b, hs'.of_same rfl rfl rfl⟩ rfl ha' (hv.co _ _) fun s'' hent => ?_
    change Entered (number s'.hl (d' :: ds)) last bc w ws
      ((v.co s.c (Key.ascii d)).typed s'.c (d' :: ds)) s'' at hent
    rw [hhl', hc'] at hent
    exact h s'' hent

/-- **PARM1** takes a number whose first digit is there. -/
theorem Shows.parm1 {ds : List (Fin 16)} {d : Fin 16} {last : Bool} (hs : Shows s (w :: ws) v)
    (hpc : s.pc = PARM1) (ha : s.a = Key.ascii d) (hv : Resting v) (hroom : ws.length + 6 < HEIGHT)
    (hg : 700 + g ≤ G)
    (h : ∀ s', Entered (number 0 (d :: ds)) last s.bc w ws (v.typed s.c (d :: ds)) s' →
      Leads M s' g (Then G Q ks)) :
    Leads M s 575 (Then G Q (ds.map Key.hex ++ Key.stop last :: ks)) := by
  obtain ⟨a, b, hs⟩ := hs
  refine Leads.le (t := 11 + (10 + 554)) ?_ (by omega)
  refine hs.save PARAM 2 rfl hpc (show ws.length + 1 < HEIGHT by omega) fun sp env hs => ?_
  refine piece PARAM 3 1 rfl rfl hs.toRunning rfl rfl ?_
  change Leads M { s with pc := PARAM.addr 4, sp := sp, h := 0, l := 0, env := env } 554 _
  have hzero : word 0 0 = 0 := by decide
  exact Shows.parcnt ⟨a, b, hs.of_same rfl rfl rfl⟩ rfl ha rfl hzero hv hroom hg h

/-- The keys of a number, and of what ends it. -/
def entry (ds : List (Fin 16)) (last : Bool) : List Key := ds.map Key.hex ++ [Key.stop last]

/-- **PARAM** takes a number. -/
theorem Shows.param {ds : List (Fin 16)} {last : Bool} (hs : Shows s (w :: ws) v)
    (hpc : s.pc = PARAM.entry) (hds : ds ≠ []) (hv : Resting v) (hroom : ws.length + 6 < HEIGHT)
    (hg : 700 + g ≤ G)
    (h : ∀ s', Entered (number 0 ds) last s.bc w ws (v.typed s.c ds) s' →
      Leads M s' g (Then G Q ks)) : Leads M s 94 (Then G Q (entry ds last ++ ks)) := by
  obtain ⟨d, ds, rfl⟩ := List.exists_cons_of_ne_nil hds
  obtain ⟨a, b, hs⟩ := hs
  have hkeys : entry (d :: ds) last ++ ks =
      Key.hex d :: (ds.map Key.hex ++ Key.stop last :: ks) := by
    rw [entry, List.append_assoc]
    rfl
  rw [hkeys]
  refine Leads.le (t := 17 + (77 + 0)) ?_ (by omega)
  refine hs.call PARAM 0 rfl hpc (show ws.length + 1 < HEIGHT by omega) fun sp env hs => ?_
  refine hs.pchk (g := 10 + 575) rfl (hv.latch a b) (show ws.length + 1 + 3 < HEIGHT by omega)
    (by omega) fun s' hret => ?_
  obtain ⟨⟨hs', hpc', ha', hbc'⟩, hzero, -⟩ := hret
  rw [Key.code_hex] at ha' hzero
  have hfall : Cond.z.holds s'.flags = false := by
    rw [Cond.holds, hzero, decide_eq_false_iff_not]
    exact Key.ascii_ne d
  refine hs'.fall_if PARAM 1 rfl hpc' hfall ?_
  refine Shows.parm1 (v := v) ⟨_, _, hs'.of_same rfl rfl rfl⟩ rfl ha' hv hroom hg
    fun s'' hent => ?_
  have hc' : s'.c = s.c := c_of_bc hbc'
  change Entered (number 0 (d :: ds)) last s'.bc w ws (v.typed s'.c (d :: ds)) s'' at hent
  rw [hbc', hc'] at hent
  exact h s'' hent

end Monitor

end Umk80
