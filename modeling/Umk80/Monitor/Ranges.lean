import Umk80.Monitor.PowerOn

/-!
# Ranges of memory

The directive ЗК takes two addresses and a byte, and writes the byte from the first address to the
second. КС takes two addresses and shows the sum of the bytes between them. CIADR takes the
addresses, and leaves them on the stack below where it returns to.

The monitor does not look where it writes or what it adds up, so nothing is said of a range that
meets its own stack.

## Main definitions

* `View.fill`, `View.sum` — a byte is written to, or the bytes are added up at, addresses that
  follow one another
* `Monitor.filed`, `Monitor.summed` — the board after a directive

## Main results

* `Monitor.Shows.ciadr` — two addresses are taken
* `Monitor.Prompt.file`, `Monitor.Prompt.chsum` — the directives
* `Monitor.file_of_powered`, `Monitor.chsum_of_powered` — the same on the machine
-/

namespace Umk80

open Isa TimedRuns

namespace View

variable (v : View)

/-- `x` is written to `n` addresses from `a` on. -/
def fill (v : View) (a : U16) (x : U8) : ℕ → View
  | 0 => v
  | n + 1 => fill (v.write a x) (a + 1) x n

/-- `x` and the bytes of `n` addresses from `a` on are added up. -/
def sum (v : View) (a : U16) (x : U8) : ℕ → U8
  | 0 => x
  | n + 1 => sum v (a + 1) (x + v.mem a) n

theorem sum_latch (a b : U8) (n : ℕ) (c : U16) (x : U8) :
    (v.latch a b).sum c x n = v.sum c x n := by
  induction n generalizing c x with
  | zero => rfl
  | succ n ih => exact ih (c + 1) (x + v.mem c)

theorem cobyte_latch (a b type x : U8) :
    (v.latch a b).cobyte type x = (v.cobyte type x).latch a b := by
  rw [cobyte, co_latch, co_latch, cobyte]

theorem fill_latch (a b : U8) (n : ℕ) (v : View) (c : U16) (x : U8) :
    (v.latch a b).fill c x n = (v.fill c x n).latch a b := by
  induction n generalizing v c with
  | zero => rfl
  | succ n ih => exact ih (v.write c x) (c + 1)

theorem rev_shiftIn (n : ℕ) (v : View) (a : U16) (x : U8) : (v.shiftIn a n x).rev = v.rev := by
  induction n generalizing v a x with
  | zero => rfl
  | succ n ih => exact ih _ _ _

theorem rev_typed (type : U8) (ds : List (Fin 16)) : (v.typed type ds).rev = v.rev := by
  induction ds generalizing v with
  | nil => rfl
  | cons d ds ih =>
    change ((v.co type (Key.ascii d)).typed type ds).rev = v.rev
    rw [ih, co]
    split
    all_goals exact rev_shiftIn _ _ _ _

end View

namespace Monitor

variable {k : Key} {ks : List Key} {G g u : ℕ} {bc w : U16} {s s' : State View} {ws : List U16}
  {v : View} {Q : State View → Prop}

namespace Resting

theorem typed (h : Resting v) (type : U8) (ds : List (Fin 16)) : Resting (v.typed type ds) := by
  induction ds generalizing v with
  | nil => exact h
  | cons d ds ih => exact ih (h.co _ _)

theorem cobyte (h : Resting v) (type x : U8) : Resting (v.cobyte type x) := (h.co _ _).co _ _

theorem fill (h : Resting v) (a : U16) (x : U8) (n : ℕ) : Resting (v.fill a x n) := by
  induction n generalizing v a with
  | zero => exact h
  | succ n ih => exact ih (h.write _ _) _

end Resting

/-! ## The addresses -/

def CIADR : Routine where
  entry := 0x021F
  code := [.mov .b .c,
    -- CIADLP
    .call 0x02C0, .mvi .c 1, .call 0x0239, .xthl, .push .hl, .dcr .b, .jcc .nz 0x0220, .ret]

/-- An address has been taken, and is below the return address. -/
structure Taken (n : U16) (left : U8) (w : U16) (ws : List U16) (v : View) (s : State View) :
    Prop where
  shows : Shows s (w :: n :: ws) v
  pc : s.pc = CIADR.addr 7
  b : s.b = left
  zero : s.flags.zero = (left == 0)

theorem b_of_bc {s : State View} {x y : U8} (h : s.bc = word x y) : s.b = x := by
  have hhigh := congrArg hiByte h
  rwa [Cpu.bc, hiByte_word, hiByte_word] at hhigh

theorem runs_dcr (s : State View) : ∃ fl, fl.zero = (s.b - 1 == 0) ∧
    runs View.env (jump s (CIADR.addr 6)) (CIADR.piece 6 1) =
      { s with pc := CIADR.addr 7, b := s.b - 1, flags := fl } := by
  obtain ⟨⟨⟩, _⟩ := s
  exact ⟨_, rfl, rfl⟩

/-- An address is taken. -/
theorem Shows.ciadr_round {ds : List (Fin 16)} {last : Bool} (hs : Shows s (w :: ws) v)
    (hpc : s.pc = CIADR.addr 1) (hds : ds ≠ []) (hv : Resting v) (hroom : ws.length + 8 < HEIGHT)
    (hg : 734 + g ≤ G)
    (h : ∀ s', Taken (number 0 ds) (s.b - 1) w ws (v.ersind.typed 1 ds) s' →
      Leads M s' g (Then G Q ks)) : Leads M s 240 (Then G Q (entry ds last ++ ks)) := by
  obtain ⟨a, b, hs⟩ := hs
  refine Leads.le (t := 17 + (105 + (7 + (17 + 94)))) ?_ (by omega)
  refine hs.call CIADR 1 rfl hpc (show ws.length + 1 < HEIGHT by omega) fun sp env hs => ?_
  refine hs.ersind rfl (show ws.length + 1 + 1 < HEIGHT by omega) fun sp env hs => ?_
  refine piece CIADR 2 1 rfl rfl hs.toRunning rfl rfl ?_
  refine Stands.call (hs.of_same rfl rfl rfl) CIADR 3 rfl rfl
    (show ws.length + 1 < HEIGHT by omega) fun sp env hs => ?_
  rw [View.ersind_latch] at hs
  refine Shows.param (g := 18 + (11 + (5 + g))) ⟨a, b, hs⟩ rfl hds hv.ersind
    (show ws.length + 1 + 6 < HEIGHT by omega) (by omega) fun s' hent => ?_
  obtain ⟨⟨a, b, hs'⟩, hpc', hhl', hbc', -⟩ := hent
  refine hs'.swap CIADR 4 rfl hpc' fun sp env hs' => ?_
  refine hs'.save CIADR 5 rfl rfl (show ws.length + 1 < HEIGHT by omega) fun sp env hs' => ?_
  obtain ⟨fl, hzero, hrun⟩ := runs_dcr { s' with
    pc := CIADR.addr 6, sp := sp, h := hiByte w, l := loByte w, env := env }
  refine piece CIADR 6 1 rfl rfl hs'.toRunning rfl hrun ?_
  have hb : s'.b = s.b := b_of_bc hbc'
  have hw : word (hiByte w) (loByte w) = w := word_hiByte_loByte w
  rw [hhl'] at hs'
  refine h _ ⟨⟨a, b, ?_⟩, rfl, congrArg (· - 1) hb, by rw [hzero, hb]⟩
  have hstack : Stands { s' with
      pc := CIADR.addr 7, sp := sp, b := s'.b - 1, h := hiByte w, l := loByte w, flags := fl,
      env := env } (word (hiByte w) (loByte w) :: number 0 ds :: ws)
      ((v.ersind.typed 1 ds).latch a b) := hs'.of_same rfl rfl rfl
  rw [hw] at hstack
  exact hstack

/-- The board when two addresses have been typed. -/
def ranged (v : View) (ds ds' : List (Fin 16)) : View := (v.ersind.typed 1 ds).ersind.typed 1 ds'

theorem rev_ranged (v : View) (ds ds' : List (Fin 16)) : (ranged v ds ds').rev = v.rev :=
  calc (ranged v ds ds').rev = ((v.ersind.typed 1 ds).ersind).rev := View.rev_typed _ 1 ds'
    _ = v.rev := View.rev_typed _ 1 ds

theorem Resting.ranged (h : Resting v) (ds ds' : List (Fin 16)) : Resting (ranged v ds ds') :=
  (h.ersind.typed 1 ds).ersind.typed 1 ds'

/-- **Two addresses** are taken. -/
theorem Shows.ciadr {ds ds' : List (Fin 16)} {last last' : Bool} (hs : Shows s (w :: ws) v)
    (hpc : s.pc = CIADR.entry) (hc : s.c = 2) (hds : ds ≠ []) (hds' : ds' ≠ []) (hv : Resting v)
    (hroom : ws.length + 9 < HEIGHT) (hg : 984 + g ≤ G)
    (h : ∀ s', s'.pc = w →
      Shows s' (number 0 ds' :: number 0 ds :: ws) (ranged v ds ds') →
      Leads M s' g (Then G Q ks)) :
    Leads M s 245 (Then G Q (entry ds last ++ (entry ds' last' ++ ks))) := by
  obtain ⟨a, b, hs⟩ := hs
  refine Leads.le (t := 5 + 240) ?_ (Nat.le_refl 245)
  have hrun : runs View.env (jump s (CIADR.addr 0)) (CIADR.piece 0 1) =
      { s with pc := CIADR.addr 1, b := 2 } := by
    rw [← hc]
    obtain ⟨⟨⟩, _⟩ := s
    rfl
  refine piece CIADR 0 1 rfl rfl hs.toRunning hpc hrun ?_
  have hs₁ : Shows { s with pc := CIADR.addr 1, b := 2 } (w :: ws) v :=
    ⟨a, b, hs.of_same rfl rfl rfl⟩
  refine Shows.ciadr_round (g := 10 + 240) hs₁ rfl hds hv (by omega) (by omega)
    fun s' htaken => ?_
  obtain ⟨⟨a, b, hs'⟩, hpc', hb', hzero⟩ := htaken
  change s'.b = 2 - 1 at hb'
  change s'.flags.zero = ((2 : U8) - 1 == 0) at hzero
  have htwice : Cond.nz.holds s'.flags = true := by
    rw [Cond.holds, hzero]
    decide
  refine hs'.jump_if CIADR 7 rfl hpc' htwice ?_
  refine Shows.ciadr_round (g := 10 + (10 + g)) ⟨a, b, hs'.of_same rfl rfl rfl⟩ rfl hds'
    (hv.ersind.typed 1 ds) (show ws.length + 1 + 8 < HEIGHT by omega) (by omega)
    fun s'' htaken => ?_
  obtain ⟨⟨a, b, hs''⟩, hpc'', -, hzero'⟩ := htaken
  have honce : Cond.nz.holds s''.flags = false := by
    change s''.flags.zero = (s'.b - 1 == 0) at hzero'
    rw [Cond.holds, hzero', hb']
    decide
  refine hs''.fall_if CIADR 7 rfl hpc'' honce ?_
  refine Stands.ret (hs''.of_same rfl rfl rfl) CIADR 8 rfl rfl fun sp hs'' => ?_
  exact h _ rfl ⟨a, b, hs''⟩

/-! ## The range -/

/-- The addresses come off the stack, and it is an error if the second is below the first. -/
theorem Shows.range {n e : U16} {v' : View} (hs : Shows s (e :: n :: [START.entry]) v)
    (R : Routine) (k : ℕ) (hde : R.code[k]? = some (.pop .de))
    (hhl : R.code[k + 1]? = some (.pop .hl))
    (hcall : R.code[k + 2]? = some (.call COMPA1.entry))
    (hjc : R.code[k + 3]? = some (.jcc .c ERROR.entry)) (hpc : s.pc = R.addr k) (hv : Resting v)
    (hu : 438 ≤ u)
    (h : n ≤ e → ∀ s', s'.pc = R.addr (k + 4) → s'.hl = n → s'.de = e → s'.c = s.c →
      Shows s' [START.entry] v → Leads M s' u (Prompt v')) :
    Leads M s (75 + u) (Prompt (if e < n then v.error else v')) := by
  obtain ⟨a, b, hs⟩ := hs
  refine Leads.le (t := 10 + (10 + (17 + (28 + (10 + u))))) ?_ (by omega)
  refine hs.restore R k hde hpc fun sp hs => ?_
  refine hs.restore R (k + 1) hhl rfl fun sp hs => ?_
  refine hs.call R (k + 2) hcall rfl (show 1 < HEIGHT by decide) fun sp env hs => ?_
  refine hs.compa1 rfl fun sp x fl hcarry hs => ?_
  have hde' : word (hiByte e) (loByte e) = e := word_hiByte_loByte e
  have hhl' : word (hiByte n) (loByte n) = n := word_hiByte_loByte n
  change fl.carry = decide (word (hiByte e) (loByte e) < word (hiByte n) (loByte n)) at hcarry
  rw [hde', hhl'] at hcarry
  by_cases hlt : e < n
  · rw [if_pos hlt]
    have htaken : Cond.c.holds fl = true := by rw [Cond.holds, hcarry, decide_eq_true hlt]
    refine hs.jump_if R (k + 3) hjc rfl htaken ?_
    refine Leads.le (t := 438) ?_ hu
    exact Shows.error ⟨a, b, hs.of_same rfl rfl rfl⟩ rfl hv (show 1 + 1 < HEIGHT by decide)
  · rw [if_neg hlt]
    have hfall : Cond.c.holds fl = false := by rw [Cond.holds, hcarry, decide_eq_false hlt]
    refine hs.fall_if R (k + 3) hjc rfl hfall ?_
    exact h (BitVec.not_lt.mp hlt) _ rfl hhl' hde' rfl ⟨a, b, hs.of_same rfl rfl rfl⟩

/-- `n` addresses come after the one in HL, up to the one in DE, and all of them are outside the
stack area. -/
structure Ahead (rev : Rev) (n : ℕ) (s : State View) : Prop where
  last : s.hl.toNat + n = s.de.toNat
  free : ∀ b, s.hl ≤ b → b ≤ s.de → ¬ Private rev b

theorem Ahead.here {rev : Rev} {n : ℕ} (h : Ahead rev n s) : ¬ Private rev s.hl := by
  have hlast := h.last
  exact h.free s.hl (BitVec.le_refl _) (show s.hl.toNat ≤ s.de.toNat by omega)

/-- The carry that COMPA leaves. HL may come round to zero. -/
theorem Ahead.test {rev : Rev} {n : ℕ} (h : Ahead rev n s) :
    (!(decide (s.hl + 1 = 0) || decide (s.de < s.hl + 1))) = decide (n ≠ 0) := by
  have hlast := h.last
  have hde := s.de.isLt
  rw [Bool.eq_iff_iff, Bool.not_eq_true', Bool.or_eq_false_iff, decide_eq_false_iff_not,
    decide_eq_false_iff_not, decide_eq_true_iff]
  bv_omega

theorem Ahead.next {rev : Rev} {n : ℕ} (h : Ahead rev (n + 1) s) (hhl : s'.hl = s.hl + 1)
    (hde : s'.de = s.de) : Ahead rev n s' := by
  have hlast := h.last
  have hlt := s.de.isLt
  have hnext : (s.hl + 1).toNat = s.hl.toNat + 1 := by bv_omega
  refine ⟨?_, fun b hb hb' => ?_⟩
  · rw [hhl, hde]
    omega
  · rw [hhl] at hb
    rw [hde] at hb'
    exact h.free b (by bv_omega) hb'

def FILE : Routine where
  entry := 0x015C
  code := [.mvi .c 2, .call 0x021F, .mvi .c 0, .call 0x0239, .mov .c .l, .pop .de, .pop .hl,
    .call 0x0234, .jcc .c 0x0276,
    -- FILELP
    .mov .m .c, .call 0x022F, .jcc .nc 0x016F, .jmp 0x02C0]

/-- The byte in C is being written at HL and `n` addresses more, and then the board is `v'`. -/
def Filling (ws : List U16) (v' : View) (n : ℕ) (s : State View) : Prop :=
  ∃ v, Stands s ws v ∧ s.pc = FILE.addr 9 ∧ Ahead v.rev n s ∧ v.fill s.hl s.c (n + 1) = v'

/-- A round of the loop, up to the jump. -/
theorem Filling.round {v' : View} {n : ℕ} (hroom : ws.length + 1 < HEIGHT)
    (h : Filling ws v' n s) : Leads M s 75 (RoundEnd FILE 9 11 .nc (Filling ws v')
      (fun s' => s'.pc = FILE.addr 12 ∧ Stands s' ws v') n) := by
  obtain ⟨v, hs, hpc, hahead, hv⟩ := h
  have hrun : runs View.env (jump s (FILE.addr 9)) (FILE.piece 9 1) =
      { s with pc := FILE.addr 10, env := s.env.write s.hl s.c } := by
    obtain ⟨⟨⟩, _⟩ := s
    rfl
  refine Leads.le (t := 7 + (17 + (51 + 0))) ?_ (by decide)
  refine piece FILE 9 1 rfl rfl hs.toRunning hpc hrun ?_
  have hs₁ : Stands { s with pc := FILE.addr 10, env := s.env.write s.hl s.c } ws
      (v.write s.hl s.c) := hs.write hahead.here s.c rfl rfl rfl
  refine hs₁.call FILE 10 rfl rfl (Nat.lt_of_succ_lt hroom) fun sp env hs => ?_
  refine hs.compa rfl fun sp a fl hcarry hs => .of ?_
  have hhl : word (hiByte (s.hl + 1)) (loByte (s.hl + 1)) = s.hl + 1 := word_hiByte_loByte _
  refine ⟨hs.toRunning, rfl, ?_, ?_, ?_⟩
  · change (!fl.carry) = decide (n ≠ 0)
    rw [hcarry]
    exact hahead.test
  · rintro n rfl
    refine ⟨_, hs.of_same rfl rfl rfl, rfl, hahead.next hhl rfl, ?_⟩
    change View.fill _ (word (hiByte (s.hl + 1)) (loByte (s.hl + 1))) s.c (n + 1) = v'
    rw [hhl]
    exact hv
  · rintro rfl
    exact ⟨rfl, hv ▸ hs.of_same rfl rfl rfl⟩

/-- The loop of FILE: the byte in C is written from HL to DE. -/
theorem Stands.filelp {n : ℕ} {a e : U16} {x : U8} (hs : Stands s ws v) (hpc : s.pc = FILE.addr 9)
    (hhl : s.hl = a) (hde : s.de = e) (hc : s.c = x) (hn : a.toNat + n = e.toNat)
    (hram : ∀ b, a ≤ b → b ≤ e → ¬ Private v.rev b) (hroom : ws.length + 1 < HEIGHT)
    (h : ∀ s', s'.pc = FILE.addr 12 → Stands s' ws (v.fill a x (n + 1)) → Leads M s' u Q) :
    Leads M s (85 * (n + 1) + u) Q := by
  subst hhl hde hc
  have hloop := leads_counted rfl (fun n s => Filling.round hroom) ⟨v, hs, hpc, ⟨hn, hram⟩, rfl⟩
  exact hloop.bind fun s' ⟨hpc', hs'⟩ => h s' hpc' hs'

/-! ## The directive -/

/-- The board when the addresses and the byte have been typed. -/
def asked (v : View) (ds ds' es : List (Fin 16)) : View := (ranged v ds ds').typed 0 es

/-- The board after the directive. -/
def filed (v : View) (ds ds' es : List (Fin 16)) : View :=
  if number 0 ds' < number 0 ds then (asked v ds ds' es).error
  else ((asked v ds ds' es).fill (number 0 ds) (loByte (number 0 es))
    ((number 0 ds').toNat - (number 0 ds).toNat + 1)).ersind.dash

/-- FILE, when everything has been typed. -/
theorem Shows.file {n e x : U16} (hs : Shows s (e :: n :: [START.entry]) v)
    (hpc : s.pc = FILE.addr 4) (hhl : s.hl = x) (hv : Resting v)
    (hram : ∀ b, n ≤ b → b ≤ e → ¬ Private v.rev b) :
    Leads M s (518 + 85 * (e.toNat - n.toNat + 1))
      (Prompt (if e < n then v.error
        else (v.fill n (loByte x) (e.toNat - n.toNat + 1)).ersind.dash)) := by
  obtain ⟨a, b, hs⟩ := hs
  have hrun : runs View.env (jump s (FILE.addr 4)) (FILE.piece 4 1) =
      { s with pc := FILE.addr 5, c := loByte x } := by
    have hl : s.l = loByte x := by rw [← hhl, Cpu.hl, loByte_word]
    rw [← hl]
    obtain ⟨⟨⟩, _⟩ := s
    rfl
  refine Leads.le (t := 5 + (75 + (438 + 85 * (e.toNat - n.toNat + 1)))) ?_ (by omega)
  refine piece FILE 4 1 rfl rfl hs.toRunning hpc hrun ?_
  refine Shows.range (v := v) ⟨a, b, hs.of_same rfl rfl rfl⟩ FILE 5 rfl rfl rfl rfl rfl hv
    (Nat.le_add_right _ _) fun hle s' hpc' hhl' hde' hc' hshows => ?_
  obtain ⟨a, b, hs'⟩ := hshows
  refine Leads.le (t := 85 * (e.toNat - n.toNat + 1) + (10 + (105 + 230))) ?_ (by omega)
  refine Stands.filelp (v := v.latch a b) hs' hpc' hhl' hde' hc' (Nat.add_sub_cancel' hle) hram
    (show 1 + 1 < HEIGHT by decide) fun s' hpc' hs' => ?_
  refine hs'.jmp FILE 12 rfl hpc' ?_
  refine Stands.ersind (hs'.of_same rfl rfl rfl) rfl (show 0 + 1 < HEIGHT by decide)
    fun sp env hs' => ?_
  rw [View.fill_latch, View.ersind_latch] at hs'
  exact Shows.start ⟨a, b, hs'⟩ rfl (hv.fill _ _ _).ersind

/-- **ЗК**, two addresses and a byte. -/
theorem Prompt.file {ds ds' es : List (Fin 16)} {l l' l'' : Bool} (h : Prompt v s) (hds : ds ≠ [])
    (hds' : ds' ≠ []) (hes : es ≠ [])
    (hram : ∀ b, number 0 ds ≤ b → b ≤ number 0 ds' → ¬ Private v.rev b)
    (hg : 1234 + 85 * ((number 0 ds').toNat - (number 0 ds).toNat + 1) ≤ G)
    (hQ : ∀ s', Prompt (filed v.ersind ds ds' es) s' → Then G Q ks s') :
    Then G Q (Directive.file.key :: (entry ds l ++ (entry ds' l' ++ (entry es l'' ++ ks)))) s := by
  have hv : Resting v := h.1
  refine h.directive (g := 7 + (17 + 245)) (by omega) fun s' hpc hshows => ?_
  obtain ⟨a, b, hs⟩ := hshows
  refine piece FILE 0 1 rfl rfl hs.toRunning hpc rfl ?_
  refine Stands.call (hs.of_same rfl rfl rfl) FILE 1 rfl rfl (show 1 < HEIGHT by decide)
    fun sp env hs => ?_
  refine Shows.ciadr (g := 7 + (17 + 94)) ⟨a, b, hs⟩ rfl rfl hds hds' hv.ersind
    (show 1 + 9 < HEIGHT by decide) (by omega) fun s' hpc hshows => ?_
  obtain ⟨a, b, hs⟩ := hshows
  refine piece FILE 2 1 rfl rfl hs.toRunning hpc rfl ?_
  refine Stands.call (hs.of_same rfl rfl rfl) FILE 3 rfl rfl (show 3 < HEIGHT by decide)
    fun sp env hs => ?_
  refine Shows.param (g := 534 + 85 * ((number 0 ds').toNat - (number 0 ds).toNat + 1))
    ⟨a, b, hs⟩ rfl hes (hv.ersind.ranged ds ds') (show 3 + 6 < HEIGHT by decide) (by omega)
    fun s' hent => ?_
  obtain ⟨hshows, hpc', hhl', -, -⟩ := hent
  have hrev : (asked v.ersind ds ds' es).rev = v.rev := by
    rw [asked, View.rev_typed, rev_ranged]
    rfl
  have hfile := hshows.file hpc' hhl' ((hv.ersind.ranged ds ds').typed 0 es) (hrev ▸ hram)
  exact hfile.mono (by omega) hQ

/-! ## The sum -/

def CHSUM : Routine where
  entry := 0x0193
  code := [.mvi .c 2, .call 0x021F, .pop .de, .pop .hl, .call 0x0234, .jcc .c 0x0276, .mvi .c 0,
    -- CSUMLP
    .mov .a .c, .alu .add .m, .mov .c .a, .call 0x022F, .jcc .nc 0x01A2, .call 0x028B,
    .jmp 0x02C3]

/-- The byte at HL and the `n` bytes behind it are being added to C, which makes `x`. -/
def Summing (ws : List U16) (v : View) (x : U8) (n : ℕ) (s : State View) : Prop :=
  Stands s ws v ∧ s.pc = CHSUM.addr 7 ∧ Ahead v.rev n s ∧ v.sum s.hl s.c (n + 1) = x

/-- A round of the loop, up to the jump. -/
theorem Summing.round {x : U8} {n : ℕ} (hroom : ws.length + 1 < HEIGHT) (h : Summing ws v x n s) :
    Leads M s 85 (RoundEnd CHSUM 7 11 .nc (Summing ws v x)
      (fun s' => s'.pc = CHSUM.addr 12 ∧ s'.c = x ∧ Stands s' ws v) n) := by
  obtain ⟨hs, hpc, hahead, hx⟩ := h
  obtain ⟨fl, hrun⟩ : ∃ fl, runs View.env (jump s (CHSUM.addr 7)) (CHSUM.piece 7 3) =
      { s with
        pc := CHSUM.addr 10
        a := s.c + s.env.mem s.hl
        c := s.c + s.env.mem s.hl
        flags := fl } := by
    rw [← ofNat_sum_false s.c (s.env.mem s.hl)]
    obtain ⟨⟨⟩, _⟩ := s
    exact ⟨_, rfl⟩
  rw [hs.mem _ hahead.here] at hrun
  refine Leads.le (t := 17 + (17 + (51 + 0))) ?_ (by decide)
  refine piece CHSUM 7 3 rfl rfl hs.toRunning hpc hrun ?_
  refine Stands.call (hs.of_same rfl rfl rfl) CHSUM 10 rfl rfl (Nat.lt_of_succ_lt hroom)
    fun sp env hs => ?_
  refine hs.compa rfl fun sp a fl hcarry hs => .of ?_
  have hhl : word (hiByte (s.hl + 1)) (loByte (s.hl + 1)) = s.hl + 1 := word_hiByte_loByte _
  refine ⟨hs.toRunning, rfl, ?_, ?_, ?_⟩
  · change (!fl.carry) = decide (n ≠ 0)
    rw [hcarry]
    exact hahead.test
  · rintro n rfl
    refine ⟨hs.of_same rfl rfl rfl, rfl, hahead.next hhl rfl, ?_⟩
    change v.sum (word (hiByte (s.hl + 1)) (loByte (s.hl + 1))) _ (n + 1) = x
    rw [hhl]
    exact hx
  · rintro rfl
    exact ⟨rfl, hx, hs.of_same rfl rfl rfl⟩

/-- The loop of CHSUM: the bytes from HL to DE are added to C. -/
theorem Stands.csumlp {n : ℕ} {a e : U16} {x : U8} (hs : Stands s ws v)
    (hpc : s.pc = CHSUM.addr 7) (hhl : s.hl = a) (hde : s.de = e) (hc : s.c = x)
    (hn : a.toNat + n = e.toNat) (hram : ∀ b, a ≤ b → b ≤ e → ¬ Private v.rev b)
    (hroom : ws.length + 1 < HEIGHT)
    (h : ∀ s', s'.pc = CHSUM.addr 12 → s'.c = v.sum a x (n + 1) → Stands s' ws v →
      Leads M s' u Q) : Leads M s (95 * (n + 1) + u) Q := by
  subst hhl hde hc
  have hloop := leads_counted rfl (fun n s => Summing.round hroom) ⟨hs, hpc, ⟨hn, hram⟩, rfl⟩
  exact hloop.bind fun s' ⟨hpc', hc', hs'⟩ => h s' hpc' hc' hs'

/-- The board after the directive. -/
def summed (v : View) (ds ds' : List (Fin 16)) : View :=
  if number 0 ds' < number 0 ds then (ranged v ds ds').error
  else ((ranged v ds ds').cobyte 0 ((ranged v ds ds').sum (number 0 ds) 0
    ((number 0 ds').toNat - (number 0 ds).toNat + 1))).ersadr.dash

/-- CHSUM, when everything has been typed. -/
theorem Shows.chsum {n e : U16} (hs : Shows s (e :: n :: [START.entry]) v)
    (hpc : s.pc = CHSUM.addr 2) (hv : Resting v)
    (hram : ∀ b, n ≤ b → b ≤ e → ¬ Private v.rev b) :
    Leads M s (1182 + 95 * (e.toNat - n.toNat + 1))
      (Prompt (if e < n then v.error
        else (v.cobyte 0 (v.sum n 0 (e.toNat - n.toNat + 1))).ersadr.dash)) := by
  refine Leads.le (t := 75 + (1107 + 95 * (e.toNat - n.toNat + 1))) ?_ (by omega)
  refine hs.range CHSUM 2 rfl rfl rfl rfl hpc hv (by omega)
    fun hle s' hpc' hhl' hde' _ hshows => ?_
  obtain ⟨a, b, hs'⟩ := hshows
  refine Leads.le (t := 7 + (95 * (e.toNat - n.toNat + 1) + (17 + (791 + (10 + (52 + 230)))))) ?_
    (by omega)
  refine piece CHSUM 6 1 rfl rfl hs'.toRunning hpc' rfl ?_
  refine Stands.csumlp (v := v.latch a b) (hs'.of_same rfl rfl rfl) rfl hhl' hde' rfl
    (Nat.add_sub_cancel' hle) hram (show 1 + 1 < HEIGHT by decide) fun s' hpc' hc' hs' => ?_
  rw [View.sum_latch] at hc'
  refine hs'.call CHSUM 12 rfl hpc' (show 1 < HEIGHT by decide) fun sp env hs' => ?_
  refine hs'.cobyte rfl (show 1 + 2 < HEIGHT by decide) fun sp a' c d e' h l fl env hs' => ?_
  refine hs'.jmp CHSUM 13 rfl rfl ?_
  refine Stands.ersadr (hs'.of_same rfl rfl rfl) rfl fun sp env hs' => ?_
  have hview : ((v.latch a b).cobyte 0 s'.c).ersadr =
      (v.cobyte 0 (v.sum n 0 (e.toNat - n.toNat + 1))).ersadr.latch a b := by
    rw [hc', View.cobyte_latch]
    rfl
  change Stands _ [] ((v.latch a b).cobyte 0 s'.c).ersadr at hs'
  rw [hview] at hs'
  exact Shows.start ⟨a, b, hs'⟩ rfl (hv.cobyte _ _).ersadr

/-- **КС** and two addresses. -/
theorem Prompt.chsum {ds ds' : List (Fin 16)} {l l' : Bool} (h : Prompt v s) (hds : ds ≠ [])
    (hds' : ds' ≠ []) (hram : ∀ b, number 0 ds ≤ b → b ≤ number 0 ds' → ¬ Private v.rev b)
    (hg : 2167 + 95 * ((number 0 ds').toNat - (number 0 ds).toNat + 1) ≤ G)
    (hQ : ∀ s', Prompt (summed v.ersind ds ds') s' → Then G Q ks s') :
    Then G Q (Directive.chsum.key :: (entry ds l ++ (entry ds' l' ++ ks))) s := by
  have hv : Resting v := h.1
  refine h.directive (g := 7 + (17 + 245)) (by omega) fun s' hpc hshows => ?_
  obtain ⟨a, b, hs⟩ := hshows
  refine piece CHSUM 0 1 rfl rfl hs.toRunning hpc rfl ?_
  refine Stands.call (hs.of_same rfl rfl rfl) CHSUM 1 rfl rfl (show 1 < HEIGHT by decide)
    fun sp env hs => ?_
  refine Shows.ciadr (g := 1183 + 95 * ((number 0 ds').toNat - (number 0 ds).toNat + 1))
    ⟨a, b, hs⟩ rfl rfl hds hds' hv.ersind (show 1 + 9 < HEIGHT by decide) (by omega)
    fun s' hpc hshows => ?_
  have hrev : (ranged v.ersind ds ds').rev = v.rev := rev_ranged _ ds ds'
  exact (Shows.chsum hshows hpc (hv.ersind.ranged ds ds') (hrev ▸ hram)).mono (by omega) hQ

/-! ## On the machine -/

/-- **Memory is filled** on a machine that is switched on, when ЗК, two addresses and a byte are
typed. -/
theorem file_of_powered (rev : Rev) {t : ℕ} {m m' : Machine} {ds ds' es : List (Fin 16)}
    {l l' l'' : Bool} (hrun : Arrives Machine.clocked (powered rev) t m) (ht : 2132 ≤ t)
    (hds : ds ≠ []) (hds' : ds' ≠ []) (hes : es ≠ [])
    (hram : ∀ b, number 0 ds ≤ b → b ≤ number 0 ds' → ¬ Private rev b)
    (hg : 1234 + 85 * ((number 0 ds').toNat - (number 0 ds).toNat + 1) ≤ G)
    (htyped : Machine.Typed G (Directive.file.key ::
      (entry ds l ++ (entry ds' l' ++ (entry es l'' ++ [])))) m m') :
    Prompt (filed (welcome rev).ersind ds ds' es) m'.view.toState ∧ Clean m'.view.env := by
  obtain ⟨hprompt, hm⟩ := prompt_of_powered rev hrun ht
  obtain ⟨hsession, -⟩ := htyped.view hm
  have hrev : (welcome rev).rev = rev := rfl
  have hend : Prompt (filed (welcome rev).ersind ds ds' es) m'.view.toState :=
    hsession.ends (fun s h => Prompt.step h)
      (hprompt.file hds hds' hes (hrev.symm ▸ hram) hg fun s' h' => h')
  exact ⟨hend, hend.clean⟩

/-- ЗК 900 90F 5A fills sixteen bytes. -/
theorem file_of_powered_sixteen : ∃ m m' t, Arrives Machine.clocked (powered .rev1) t m ∧
    Machine.Typed 2594 (Directive.file.key :: (entry [9, 0, 0] false ++
      (entry [9, 0, 15] false ++ (entry [5, 10] true ++ [])))) m m' ∧
    Prompt (filed (welcome .rev1).ersind [9, 0, 0] [9, 0, 15] [5, 10]) m'.view.toState ∧
      Clean m'.view.env := by
  obtain ⟨t, m, ht, hrun⟩ := (powered .rev1).lasting 2132
  obtain ⟨m', htyped⟩ := m.exists_typed 2594 (Directive.file.key :: (entry [9, 0, 0] false ++
    (entry [9, 0, 15] false ++ (entry [5, 10] true ++ []))))
  have hfirst : number 0 [9, 0, 0] = 0x900 := by decide
  have hlast : number 0 [9, 0, 15] = 0x90F := by decide
  have hram : ∀ b, number 0 [9, 0, 0] ≤ b → b ≤ number 0 [9, 0, 15] → ¬ Private .rev1 b := by
    rw [hfirst, hlast]
    rintro b hlow hhigh ⟨-, -, hp⟩
    have hlow : 0x900 ≤ b.toNat := hlow
    have hhigh : b.toNat ≤ 0x90F := hhigh
    split at hp
    all_goals omega
  have htime : 1234 + 85 * ((number 0 [9, 0, 15]).toNat - (number 0 [9, 0, 0]).toNat + 1) ≤
      2594 := by
    rw [hfirst, hlast]
    decide
  exact ⟨m, m', t, hrun, htyped, file_of_powered .rev1 hrun ht (List.cons_ne_nil _ _)
    (List.cons_ne_nil _ _) (List.cons_ne_nil _ _) hram htime htyped⟩

/-- **Memory is added up** on a machine that is switched on, when КС and two addresses are typed. -/
theorem chsum_of_powered (rev : Rev) {t : ℕ} {m m' : Machine} {ds ds' : List (Fin 16)}
    {l l' : Bool} (hrun : Arrives Machine.clocked (powered rev) t m) (ht : 2132 ≤ t)
    (hds : ds ≠ []) (hds' : ds' ≠ [])
    (hram : ∀ b, number 0 ds ≤ b → b ≤ number 0 ds' → ¬ Private rev b)
    (hg : 2167 + 95 * ((number 0 ds').toNat - (number 0 ds).toNat + 1) ≤ G)
    (htyped : Machine.Typed G (Directive.chsum.key ::
      (entry ds l ++ (entry ds' l' ++ []))) m m') :
    Prompt (summed (welcome rev).ersind ds ds') m'.view.toState ∧ Clean m'.view.env := by
  obtain ⟨hprompt, hm⟩ := prompt_of_powered rev hrun ht
  obtain ⟨hsession, -⟩ := htyped.view hm
  have hrev : (welcome rev).rev = rev := rfl
  have hend : Prompt (summed (welcome rev).ersind ds ds') m'.view.toState :=
    hsession.ends (fun s h => Prompt.step h)
      (hprompt.chsum hds hds' (hrev.symm ▸ hram) hg fun s' h' => h')
  exact ⟨hend, hend.clean⟩

/-- КС 0 7FF adds up the whole ROM. -/
theorem chsum_of_powered_rom : ∃ m m' t, Arrives Machine.clocked (powered .rev2) t m ∧
    Machine.Typed 196727 (Directive.chsum.key ::
      (entry [0] false ++ (entry [7, 15, 15] true ++ []))) m m' ∧
    Prompt (summed (welcome .rev2).ersind [0] [7, 15, 15]) m'.view.toState ∧
      Clean m'.view.env := by
  obtain ⟨t, m, ht, hrun⟩ := (powered .rev2).lasting 2132
  obtain ⟨m', htyped⟩ := m.exists_typed 196727
    (Directive.chsum.key :: (entry [0] false ++ (entry [7, 15, 15] true ++ [])))
  have hfirst : number 0 [0] = 0 := by decide
  have hlast : number 0 [7, 15, 15] = 0x7FF := by decide
  have hram : ∀ b, number 0 [0] ≤ b → b ≤ number 0 [7, 15, 15] → ¬ Private .rev2 b := by
    rw [hlast]
    rintro b - hhigh ⟨hlow, -, -⟩
    have hhigh : b.toNat ≤ 0x7FF := hhigh
    have hlow : 0x800 ≤ b.toNat := hlow
    omega
  have htime : 2167 + 95 * ((number 0 [7, 15, 15]).toNat - (number 0 [0]).toNat + 1) ≤
      196727 := by
    rw [hfirst, hlast]
    decide
  exact ⟨m, m', t, hrun, htyped, chsum_of_powered .rev2 hrun ht (List.cons_ne_nil _ _)
    (List.cons_ne_nil _ _) hram htime htyped⟩

end Monitor

end Umk80
