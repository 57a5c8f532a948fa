import Umk80.Monitor.Scan

/-!
# A key is pressed

When CI has seen a key it waits for the contacts to settle, reads the rows, waits until the key is
up, and waits for the contacts once more. Then the key is converted to its code. So a key that is
held and released for long enough is read once, whenever it went down and however long it was held.

## Main definitions

* `Key`, `Key.code` — a key, and the code that the monitor has for it
* `Monitor.Held` — the machine waits for the key to be released
* `Monitor.Returns` — CI returns with the code

## Main results

* `Monitor.Waiting.press`, `Monitor.Held.reaches`, `Monitor.Held.release` — a key is pressed, held
  and released
-/

namespace Umk80

open Isa TimedRuns

/-- A key of the matrix. -/
structure Key where
  col : Fin 6
  row : Fin 4
deriving DecidableEq

namespace Key

/-- This key is down, and no other. -/
def down (k : Key) : Keyboard := ⟨fun c r => decide (c = k.col ∧ r = k.row)⟩

/-- What the rows read while the column of the key is selected. -/
def rows (k : Key) : U8 := ~~~((1 : U8) <<< ROW_BIT k.row)

end Key

namespace Monitor

/-- The first half of CONV: four times the number of the row. -/
def rowOf (c : U8) : U8 := ((if c &&& 0x10 = 0 then 0 else c) &&& 0x64) >>> 3

/-- The second half: a digit has its ASCII code, and the other keys the numbers from 0 to 7. -/
def codeOf (b row : U8) : U8 :=
  if b &&& 3 = 0 then
    let a := if b >>> 3 = 4 then b >>> 3 - 1 else b >>> 3
    let a := (a + row) ||| 0x30
    if a < 0x3A then a else a + 7
  else row.rotateRight 1 + ((b &&& 3) - 1)

/-- CONV: a code from the column and the rows. -/
def conv (b c : U8) : U8 := codeOf b (rowOf c)

end Monitor

/-- The code of a key. -/
def Key.code (k : Key) : U8 := Monitor.conv (Monitor.column k.col) k.rows

namespace Monitor

theorem scan_down : ∀ (i col : Fin 6) (row : Fin 4), View.scan (column i) (Key.down ⟨col, row⟩) =
    if i = col then (Key.mk col row).rows else 0xFF := by
  decide

theorem rows_low (k : Key) : k.rows &&& 0x74 ≠ 0x74 := by
  have key : ∀ row : Fin 4, ~~~((1 : U8) <<< ROW_BIT row) &&& 0x74 ≠ 0x74 := by decide
  exact key k.row

variable {k : Key} {u : ℕ} {bc w : U16} {s : State View} {ws : List U16} {v : View} {i : Fin 6}
  {Q : State View → Prop}

-- Writes are compared by their address and value, not byte by byte.
attribute [local irreducible] View.write View.output

/-! ## Until the key is released -/

/-- The rows are about to be read again, to see whether the key is still down. -/
structure AtHold (k : Key) (ws : List U16) (v : View) (s : State View) : Prop where
  ready : v.Ready
  stands : Stands s ws (v.latch (column k.col) 0)
  pc : s.pc = CI.addr 22
  b : s.b = column k.col
  c : s.c = k.rows

/-- The machine waits for the key to be released. -/
def Held (k : Key) (ws : List U16) (v : View) (s : State View) : Prop :=
  Within M (Hushed View.env Clean) 34 (AtHold k ws v) s

/-- A comparison says whether two bytes are the same. -/
theorem zero_compare (x y : U8) : (x - y - 0#8 == 0) = decide (x = y) := by
  rw [Bool.eq_iff_iff, beq_iff_eq, decide_eq_true_iff, BitVec.sub_zero]
  constructor
  · intro h
    bv_omega
  · intro h
    bv_omega

/-- **A key is seen** when its column is read, and the machine waits for its release. -/
theorem AtRead.detect (hkbd : v.kbd = k.down) (h : AtRead ws v k.col s)
    (hroom : ws.length < HEIGHT) : Leads M s 20503 (Held k ws v) := by
  have hscan : View.scan (column k.col) v.kbd = k.rows := by
    rw [hkbd, scan_down k.col k.col k.row, if_pos rfl]
  obtain ⟨hready, hs, hpc, hb, hhl⟩ := h
  have hinput : s.env.input 0xFA = k.rows := by
    rw [hs.input]
    exact hscan
  refine Leads.le (t := 10 + (31 + (10 + (17 + (20420 + (10 + (5 + 0))))))) ?_ (by omega)
  refine Leads.after (instr CI (k := 7) rfl rfl hs.toRunning hpc) ?_
  change Leads M { s with pc := CI.addr 8, a := s.env.input 0xFA } _ _
  rw [hinput]
  obtain ⟨fl, hzero, hlook⟩ := runs_look { s with pc := CI.addr 8, a := k.rows }
  refine piece CI 8 4 rfl rfl ⟨hs.loaded, hs.awake⟩ rfl hlook ?_
  have hs₁ : Stands { s with pc := CI.addr 12, a := 0, flags := fl, env := s.env.output 0xF9 0 } ws
      (v.latch (column k.col) 0) := by
    rw [← View.output_b hready _ (v.mem (place k.col))]
    exact hs.output 0xF9 0 rfl rfl rfl
  have hlow : Cond.nz.holds fl = true := by
    have hne : decide (k.rows &&& 0x74 = 0x74) = false := decide_eq_false (rows_low k)
    rw [Cond.holds, hzero, zero_compare, hne]
    rfl
  refine hs₁.jump_if CI 12 rfl rfl hlow ?_
  refine Stands.call (hs₁.of_same rfl rfl rfl) CI 19 rfl rfl hroom fun sp env hs => ?_
  refine hs.delay rfl fun sp a fl hs => ?_
  refine Leads.after (instr CI (k := 20) rfl rfl ⟨hs.loaded, hs.awake⟩ rfl) ?_
  have hinput : env.input 0xFA = k.rows := by
    rw [hs.input]
    exact hscan
  change Leads M { s with
    pc := CI.addr 21
    sp := sp
    a := env.input 0xFA
    d := 0
    e := 0
    flags := fl
    env := env } _ _
  rw [hinput]
  refine piece CI 21 1 rfl rfl ⟨hs.loaded, hs.awake⟩ rfl rfl ?_
  exact Leads.of (Within.of ⟨hready, hs.of_same rfl rfl rfl, rfl, hb, rfl⟩)

/-- Another column has no key down. -/
theorem AtRead.pass (hkbd : v.kbd = k.down) (h : AtRead ws v i s) (hi : i ≠ k.col) :
    Leads M s 139 (AtRead ws v (i - 1)) := by
  have hscan : View.scan (column i) v.kbd = 0xFF := by
    rw [hkbd, scan_down i k.col k.row, if_neg hi]
  have hcost : M.cost s = 10 := (step_instr CI (k := 7) rfl rfl h.stands.toRunning h.pc).2
  refine Leads.le (t := M.cost s + 129) ?_ (by omega)
  exact Leads.after (Arrives.one M s) (h.next hscan).leads

theorem distance_pred : ∀ i c : Fin 6, i ≠ c → (i - c).val = (i - 1 - c).val + 1 := by decide

theorem eq_of_distance : ∀ i c : Fin 6, (i - c).val = 0 → i = c := by decide

/-- **The column of the key** comes, whichever is selected now. -/
theorem Waiting.press (hkbd : v.kbd = k.down) (h : Waiting ws v s) (hroom : ws.length < HEIGHT) :
    Leads M s 21327 (Held k ws v) := by
  let I (n : ℕ) (s : State View) : Prop := ∃ i, (i - k.col).val = n ∧ AtRead ws v i s
  have hround : ∀ n s, I (n + 1) s → Leads M s 139 (I n) := by
    rintro n s ⟨i, hn, hread⟩
    have hne : i ≠ k.col := by
      rintro rfl
      simp at hn
    have hpred := distance_pred i k.col hne
    exact (hread.pass hkbd hne).mono (Nat.le_refl _) fun s' hs' => ⟨i - 1, by omega, hs'⟩
  refine Leads.le (t := 129 + (5 * 139 + 20503)) ?_ (by omega)
  refine h.leads.bind fun s ⟨i, hread⟩ => ?_
  have hfive : (i - k.col).val * 139 ≤ 5 * 139 :=
    Nat.mul_le_mul_right 139 (Nat.le_of_lt_succ (i - k.col).isLt)
  have hloop : Leads M s (5 * 139) (I 0) := (Leads.loop hround ⟨i, rfl, hread⟩).le hfive
  refine hloop.bind fun s ⟨i, hi, hread⟩ => ?_
  obtain rfl := eq_of_distance i k.col hi
  exact hread.detect hkbd hroom

/-! ## Until the key is up -/

theorem runs_hold (s : State View) : ∃ a fl, fl.zero = ((s.a &&& 0x74) - 0x74 - 0#8 == 0) ∧
    runs View.env (jump s (CI.addr 23)) (CI.piece 23 2) =
      { s with pc := CI.addr 25, a := a, flags := fl } := by
  obtain ⟨⟨⟩, _⟩ := s
  exact ⟨_, _, rfl, rfl⟩

/-- The rows are read again. -/
theorem AtHold.rows (h : AtHold k ws v s) : M.step s =
    { s with pc := CI.addr 23, a := View.scan (column k.col) v.kbd } := by
  obtain ⟨-, hs, hpc, -⟩ := h
  have hinput : s.env.input 0xFA = View.scan (column k.col) v.kbd := hs.input 0xFA
  rw [(step_instr CI (k := 22) rfl rfl hs.toRunning hpc).1, ← hinput]
  rfl

/-- **A key that is down** is waited for. -/
theorem AtHold.stay (hkbd : v.kbd = k.down) (h : AtHold k ws v s) : Held k ws v (M.step s) := by
  have hscan : View.scan (column k.col) v.kbd = k.rows := by
    rw [hkbd, scan_down k.col k.col k.row, if_pos rfl]
  have hrows := h.rows
  obtain ⟨hready, hs, hpc, hb, hc⟩ := h
  have hdark := clean_of_dark hs
  rw [hscan] at hrows
  rw [Held, hrows]
  obtain ⟨a, fl, hzero, hhold⟩ := runs_hold { s with pc := CI.addr 23, a := k.rows }
  have hlow : Cond.nz.holds fl = true := by
    have hne : decide (k.rows &&& 0x74 = 0x74) = false := decide_eq_false (rows_low k)
    rw [Cond.holds, hzero, zero_compare, hne]
    rfl
  refine Within.le (t := 14 + (10 + 0)) ?_ (by omega)
  refine piece_hushed CI 23 2 rfl rfl rfl ⟨hs.loaded, hs.awake⟩ hdark rfl hhold ?_
  refine within_jump CI 25 rfl ⟨hs.loaded, hs.awake⟩ hdark rfl hlow ?_
  exact Within.of ⟨hready, hs.of_same rfl rfl rfl, rfl, hb, hc⟩

namespace Held

/-- **However long** the key is held. -/
theorem reaches {t : ℕ} {s' : State View} (hkbd : v.kbd = k.down) (h : Held k ws v s)
    (hrun : Arrives M s t s') : Held k ws v s' :=
  Within.reaches (fun _ hs => hs.stay hkbd) h hrun

/-- **Whenever** it is released. -/
theorem keys (h : Held k ws v s) (kbd : Keyboard) :
    Held k ws (v.keys kbd) (s.change (View.keys kbd)) := by
  obtain ⟨t, s', ht, hthrough, hhold⟩ := h
  have hmap := hthrough.map (f := State.change (View.keys kbd)) fun s hs => by
    obtain ⟨hquiet, hcost, hstep⟩ := (View.unseen_keys kbd).step s hs.1
    exact ⟨⟨hquiet, hs.2⟩, hcost, hstep⟩
  refine hmap.within ⟨⟨hhold.ready.a, hhold.ready.b⟩, ?_, hhold.pc, hhold.b, hhold.c⟩ ht
  obtain ⟨hrun, hsp, hroom, hstack, hmem, hrev, hppi, -, hdbg⟩ := hhold.stands
  exact ⟨⟨hrun.loaded, hrun.awake⟩, hsp, hroom, hstack, hmem, hrev, hppi, rfl, hdbg⟩

end Held

/-- **The key is up**, and the machine goes on to the conversion. -/
theorem AtHold.up (hkbd : v.kbd = .idle) (h : AtHold k ws v s) (hroom : ws.length < HEIGHT)
    (hQ : ∀ sp a d e fl env, Stands { s with
        pc := CI.addr 27, sp := sp, a := a, d := d, e := e, flags := fl, env := env } ws
        (v.latch (column k.col) 0) →
      Leads M { s with
        pc := CI.addr 27, sp := sp, a := a, d := d, e := e, flags := fl, env := env } u Q) :
    Leads M s (20471 + u) Q := by
  have hscan : View.scan (column k.col) v.kbd = 0xFF := by
    rw [hkbd]
    exact scan_idle k.col
  obtain ⟨hready, hs, hpc, hb, hc⟩ := h
  have hinput : s.env.input 0xFA = 0xFF := by
    rw [hs.input]
    exact hscan
  refine Leads.le (t := 10 + (14 + (10 + (17 + (20420 + u))))) ?_ (by omega)
  refine Leads.after (instr CI (k := 22) rfl rfl hs.toRunning hpc) ?_
  change Leads M { s with pc := CI.addr 23, a := s.env.input 0xFA } _ _
  rw [hinput]
  obtain ⟨a, fl, hzero, hhold⟩ := runs_hold { s with pc := CI.addr 23, a := 0xFF }
  have hfall : Cond.nz.holds fl = false := by
    have heq : decide ((0xFF : U8) &&& 0x74 = 0x74) = true := by decide
    rw [Cond.holds, hzero, zero_compare, heq]
    rfl
  refine piece CI 23 2 rfl rfl ⟨hs.loaded, hs.awake⟩ rfl hhold ?_
  refine Running.fall_if ⟨hs.loaded, hs.awake⟩ CI 25 rfl rfl hfall ?_
  refine Stands.call (hs.of_same rfl rfl rfl) CI 26 rfl rfl hroom fun sp env hs => ?_
  exact hs.delay rfl fun sp a fl hs => hQ _ _ _ _ _ _ hs

/-! ## The code of the key -/

/-- RAR. -/
def rar (x : U8) (cy : Bool) : U8 := x >>> 1 ||| (BitVec.ofBool cy).setWidth 8 <<< 7

/-- RAR three times, from a clear carry. -/
def rar3 (x : U8) : U8 :=
  rar (rar (rar x false) (x.getLsbD 0)) ((rar x false).getLsbD 0)

/-- With the low bits clear it is a shift. -/
theorem rar3_of_low {x : U8} (h : x &&& 3 = 0) : rar3 x = x >>> 3 := by
  have h0 : x.getLsbD 0 = false := by
    have hbit := congrArg (·.getLsbD 0) h
    simpa using hbit
  have h1 : (rar x false).getLsbD 0 = false := by
    have hbit := congrArg (·.getLsbD 1) h
    simpa [rar] using hbit
  have hshift (x : U8) : rar x false = x >>> 1 := BitVec.or_zero
  rw [rar3, h0, h1, hshift, hshift, hshift, ← BitVec.shiftRight_add, ← BitVec.shiftRight_add]

theorem runs_row (s : State View) : ∃ fl, fl.zero = (s.c &&& 0x10 == 0) ∧
    runs View.env (jump s (CI.addr 27)) (CI.piece 27 2) =
      { s with pc := CI.addr 29, a := s.c &&& 0x10, flags := fl } := by
  obtain ⟨⟨⟩, _⟩ := s
  exact ⟨_, rfl, rfl⟩

theorem runs_shift (s : State View) : ∃ fl,
    runs View.env (jump s (CI.addr 31)) (CI.piece 31 6) =
      { s with pc := CI.addr 37, a := rar3 (s.c &&& 0x64), c := rar3 (s.c &&& 0x64),
               flags := fl } := by
  obtain ⟨⟨⟩, _⟩ := s
  exact ⟨_, rfl⟩

theorem rar3_row (c : U8) : rar3 (c &&& 0x64) = (c &&& 0x64) >>> 3 := by
  refine rar3_of_low ?_
  have hmask : (0x64 : U8) &&& 3 = 0 := by decide
  rw [BitVec.and_assoc, hmask]
  exact BitVec.and_zero

theorem Stands.conv_row (hs : Stands s ws v) (hpc : s.pc = CI.addr 27)
    (h : ∀ fl, Stands { s with
        pc := CI.addr 37, a := rowOf s.c, c := rowOf s.c, flags := fl } ws v →
      Leads M { s with pc := CI.addr 37, a := rowOf s.c, c := rowOf s.c, flags := fl } u Q) :
    Leads M s (58 + u) Q := by
  obtain ⟨fl, hzero, hrow⟩ := runs_row s
  refine Leads.le (t := 12 + (46 + u)) ?_ (by omega)
  refine piece CI 27 2 rfl rfl hs.toRunning hpc hrow ?_
  have hs₁ : Stands { s with pc := CI.addr 29, a := s.c &&& 0x10, flags := fl } ws v :=
    hs.of_same rfl rfl rfl
  by_cases hc : s.c &&& 0x10 = 0
  · rw [rowOf, if_pos hc, ← rar3_row] at h
    refine Leads.le (t := 10 + (7 + (29 + u))) ?_ (by omega)
    refine hs₁.fall_if CI 29 rfl rfl ?_ ?_
    · change (!fl.zero) = false
      rw [hzero, hc]
      rfl
    refine piece CI 30 1 rfl rfl ⟨hs.loaded, hs.awake⟩ rfl rfl ?_
    obtain ⟨fl, hshift⟩ := runs_shift
      { s with pc := CI.addr 31, a := s.c &&& 0x10, c := 0, flags := fl }
    refine piece CI 31 6 rfl rfl ⟨hs.loaded, hs.awake⟩ rfl hshift ?_
    exact h fl (hs.of_same rfl rfl rfl)
  · rw [rowOf, if_neg hc, ← rar3_row] at h
    refine Leads.le (t := 10 + (29 + u)) ?_ (by omega)
    refine hs₁.jump_if CI 29 rfl rfl ?_ ?_
    · change (!fl.zero) = true
      rw [hzero, beq_eq_false_iff_ne.mpr hc]
      rfl
    obtain ⟨fl, hshift⟩ := runs_shift
      { s with pc := CI.addr 31, a := s.c &&& 0x10, flags := fl }
    refine piece CI 31 6 rfl rfl ⟨hs.loaded, hs.awake⟩ rfl hshift ?_
    exact h fl (hs.of_same rfl rfl rfl)

/-- CI returns with a code. -/
structure Returns (x : U8) (bc w : U16) (ws : List U16) (v : View) (s : State View) : Prop where
  stands : Stands s ws v
  pc : s.pc = w
  a : s.a = x
  bc : s.bc = bc

theorem runs_digit (s : State View) : ∃ fl, fl.carry = decide ((s.a + s.c) ||| 0x30 < 0x3A) ∧
    runs View.env (jump s (CI.addr 47)) (CI.piece 47 3) =
      { s with pc := CI.addr 50, a := (s.a + s.c) ||| 0x30, flags := fl } := by
  rw [← ofNat_sum_false]
  obtain ⟨⟨⟩, _⟩ := s
  exact ⟨_, rfl, rfl⟩

/-- A digit or a letter. -/
theorem Stands.conv_digit (hs : Stands s (bc :: w :: ws) v) (hpc : s.pc = CI.addr 47)
    (h : ∀ s', Returns (let a := (s.a + s.c) ||| 0x30; if a < 0x3A then a else a + 7) bc w ws v s' →
      Leads M s' u Q) : Leads M s (55 + u) Q := by
  obtain ⟨fl, hcarry, hdigit⟩ := runs_digit s
  refine Leads.le (t := 18 + (10 + (22 + u))) ?_ (by omega)
  refine piece CI 47 3 rfl rfl hs.toRunning hpc hdigit ?_
  refine Stands.restore (hs.of_same rfl rfl rfl) CI 50 rfl rfl fun sp hs => ?_
  by_cases hlow : (s.a + s.c) ||| 0x30 < 0x3A
  · simp only [if_pos hlow] at h
    refine Leads.le (t := 11 + u) ?_ (by omega)
    have htaken : Cond.c.holds fl = true := by rw [Cond.holds, hcarry, decide_eq_true hlow]
    refine hs.ret_if CI 51 rfl rfl htaken fun sp hs => ?_
    exact h _ ⟨hs, rfl, rfl, word_hiByte_loByte bc⟩
  · simp only [if_neg hlow] at h
    refine Leads.le (t := 5 + (7 + (10 + u))) ?_ (by omega)
    have hstay : Cond.c.holds fl = false := by rw [Cond.holds, hcarry, decide_eq_false hlow]
    refine hs.stay_if CI 51 rfl rfl hstay ?_
    refine piece CI 52 1 rfl rfl ⟨hs.loaded, hs.awake⟩ rfl rfl ?_
    refine Stands.ret (hs.of_same rfl rfl rfl) CI 53 rfl rfl fun sp hs => ?_
    exact h _ ⟨hs, rfl, ofNat_sum_false _ 7, word_hiByte_loByte bc⟩

theorem runs_column (s : State View) : ∃ fl, fl.zero = (s.b &&& 3 == 0) ∧ fl.carry = false ∧
    runs View.env (jump s (CI.addr 37)) (CI.piece 37 2) =
      { s with pc := CI.addr 39, a := s.b &&& 3, flags := fl } := by
  obtain ⟨⟨⟩, _⟩ := s
  exact ⟨_, rfl, rfl, rfl⟩

theorem runs_eighth (s : State View) (hcarry : s.flags.carry = false) :
    ∃ fl, fl.zero = (rar3 s.b - 4 - 0#8 == 0) ∧
      runs View.env (jump s (CI.addr 40)) (CI.piece 40 5) =
        { s with pc := CI.addr 45, a := rar3 s.b, flags := fl } := by
  obtain ⟨⟨a, b, c, d, e, h, l, ⟨sign, zero, aux, parity, carry⟩, sp, pc⟩, _⟩ := s
  obtain rfl : carry = false := hcarry
  exact ⟨_, rfl, rfl⟩

theorem runs_func (s : State View) : ∃ b fl, runs View.env (jump s (CI.addr 54)) (CI.piece 54 5) =
    { s with pc := CI.addr 59, a := s.c.rotateRight 1 + (s.a - 1), b := b, flags := fl } := by
  rw [← ofNat_sum_false]
  obtain ⟨⟨⟩, _⟩ := s
  exact ⟨_, _, rfl⟩

/-- **CONV**, from the row on. -/
theorem Stands.conv_code (hs : Stands s (bc :: w :: ws) v) (hpc : s.pc = CI.addr 37)
    (h : ∀ s', Returns (codeOf s.b s.c) bc w ws v s' → Leads M s' u Q) :
    Leads M s (116 + u) Q := by
  obtain ⟨fl, hzero, hcarry, hcolumn⟩ := runs_column s
  refine Leads.le (t := 12 + (104 + u)) ?_ (by omega)
  refine piece CI 37 2 rfl rfl hs.toRunning hpc hcolumn ?_
  have hs₁ : Stands { s with pc := CI.addr 39, a := s.b &&& 3, flags := fl } (bc :: w :: ws) v :=
    hs.of_same rfl rfl rfl
  by_cases hb : s.b &&& 3 = 0
  · rw [codeOf, if_pos hb, ← rar3_of_low hb] at h
    refine Leads.le (t := 10 + (24 + (10 + (5 + (55 + u))))) ?_ (by omega)
    refine hs₁.fall_if CI 39 rfl rfl ?_ ?_
    · change (!fl.zero) = false
      rw [hzero, hb]
      rfl
    obtain ⟨fl', hzero', height⟩ := runs_eighth
      { s with pc := CI.addr 40, a := s.b &&& 3, flags := fl } hcarry
    refine piece CI 40 5 rfl rfl ⟨hs.loaded, hs.awake⟩ rfl height ?_
    have hs₂ : Stands { s with pc := CI.addr 45, a := rar3 s.b, flags := fl' } (bc :: w :: ws) v :=
      hs.of_same rfl rfl rfl
    rw [zero_compare] at hzero'
    by_cases hfour : rar3 s.b = 4
    · rw [if_pos hfour] at h
      refine hs₂.fall_if CI 45 rfl rfl ?_ ?_
      · change (!fl'.zero) = false
        rw [hzero', decide_eq_true hfour]
        rfl
      refine piece CI 46 1 rfl rfl ⟨hs.loaded, hs.awake⟩ rfl rfl ?_
      exact Stands.conv_digit (hs.of_same rfl rfl rfl) rfl h
    · rw [if_neg hfour] at h
      refine Leads.le (t := 10 + (55 + u)) ?_ (by omega)
      refine hs₂.jump_if CI 45 rfl rfl ?_ ?_
      · change (!fl'.zero) = true
        rw [hzero', decide_eq_false hfour]
        rfl
      exact Stands.conv_digit (hs.of_same rfl rfl rfl) rfl h
  · rw [codeOf, if_neg hb] at h
    refine Leads.le (t := 10 + (23 + (10 + (10 + u)))) ?_ (by omega)
    refine hs₁.jump_if CI 39 rfl rfl ?_ ?_
    · change (!fl.zero) = true
      rw [hzero, beq_eq_false_iff_ne.mpr hb]
      rfl
    obtain ⟨b, fl', hfunc⟩ := runs_func
      { s with pc := CI.addr 54, a := s.b &&& 3, flags := fl }
    refine piece CI 54 5 rfl rfl ⟨hs.loaded, hs.awake⟩ rfl hfunc ?_
    refine Stands.restore (hs.of_same rfl rfl rfl) CI 59 rfl rfl fun sp hs => ?_
    refine Stands.ret hs CI 60 rfl rfl fun sp hs => ?_
    exact h _ ⟨hs, rfl, rfl, word_hiByte_loByte bc⟩

/-- **A key that was pressed and is up now** is what CI returns with. -/
theorem Held.release (hkbd : v.kbd = .idle) (h : Held k (bc :: w :: ws) v s)
    (hroom : ws.length + 2 < HEIGHT)
    (hQ : ∀ s', Returns k.code bc w ws (v.latch (column k.col) 0) s' → Leads M s' u Q) :
    Leads M s (20679 + u) Q := by
  refine Leads.le (t := 34 + (20471 + (58 + (116 + u)))) ?_ (by omega)
  refine h.leads.bind fun s hhold => ?_
  have hc := hhold.c
  have hb := hhold.b
  refine hhold.up hkbd hroom fun sp a d e fl env hs => ?_
  refine hs.conv_row rfl fun fl hs => ?_
  refine hs.conv_code rfl fun s' hs' => hQ s' ?_
  change Returns (codeOf s.b (rowOf s.c)) bc w ws _ s' at hs'
  rw [hb, hc] at hs'
  exact hs'

end Monitor

end Umk80
