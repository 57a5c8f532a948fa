import Umk80.Monitor.Params

/-!
# The prompt

START empties the stack, shows a dash and waits for a key. The keys of the six directives lead to
their code by way of a table, and every other key to ERROR, which shows a question mark and goes
back to START.

The dash is on the left, unless the leftmost digit shows something. Then it is on the right.

## Main definitions

* `Monitor.Prompt` — the monitor waits for a directive
* `Monitor.Directive.entry` — the addresses of the code of the six directives
* `View.dash`, `View.error` — what the display shows

## Main results

* `Monitor.Shows.start` — START leads to the prompt, whatever is on the stack
* `Monitor.Shows.error` — and so does ERROR
* `Monitor.Prompt.directive`, `Monitor.Prompt.unknown` — a key at the prompt
-/

namespace Umk80

open Isa TimedRuns

namespace Monitor

/-- The segment in the middle. -/
def DASH : U8 := 0x40

/-- A question mark. -/
def QUESTION : U8 := 0xD3

end Monitor

namespace View

open Monitor

variable (v : View)

/-- A dash, on the left if the leftmost digit is dark. -/
def dash : View := v.conc (if v.mem (BUFCD + 5) = 0 then 5 else 0) DASH

/-- A question mark, and the dash of the prompt. -/
def error : View := (v.ersind.conc 0 QUESTION).dash

theorem conc_latch (a b i x : U8) : (v.latch a b).conc i x = (v.conc i x).latch a b := rfl

theorem ersind_latch (a b : U8) : (v.latch a b).ersind = v.ersind.latch a b := rfl

end View

namespace Monitor

variable {k : Key} {ks : List Key} {G g u : ℕ} {bc w : U16} {s s' : State View} {ws : List U16}
  {v : View} {Q : State View → Prop}

namespace Resting

theorem conc (h : Resting v) (i x : U8) : Resting (v.conc i x) := h.write _ _

theorem ersbt (h : Resting v) : Resting v.ersbt := (h.write _ _).write _ _

theorem ersadr (h : Resting v) : Resting v.ersadr :=
  (((h.write _ _).write _ _).write _ _).write _ _

theorem ersind (h : Resting v) : Resting v.ersind := h.ersbt.ersadr

theorem dash (h : Resting v) : Resting v.dash := h.conc _ _

end Resting

-- Writes are compared by their address and value, not byte by byte.
attribute [local irreducible] View.write View.output

/-! ## START -/

def START : Routine where
  entry := 0x005A
  code := [.ei, .lxi .sp 0x0FCE, .lxi .hl 0x0FFF, .mov .a .m, .alu .ora .a, .mvi .b 5,
    .jcc .z 0x006A, .mvi .b 0, .mvi .c 0x40, .call 0x02B0, .lxi .hl 0x005A, .push .hl,
    .call 0x02CD, .call 0x02C0, .alui .cmp 6, .jcc .nc 0x0276, .lxi .hl 0x0365, .alu .add .a,
    .mov .e .a, .mvi .d 0, .dad .de, .mov .a .m, .inx .hl, .mov .h .m, .mov .l .a, .pchl]

/-- The monitor waits for a directive. -/
def Prompt (v : View) (s : State View) : Prop :=
  Resting v ∧ ∃ bc a b, Waiting [bc, START.addr 13, START.entry] (v.latch a b) s

/-- The prompt stays. -/
theorem Prompt.step (h : Prompt v s) : Prompt v (M.step s) := by
  obtain ⟨hv, bc, a, b, hwait⟩ := h
  exact ⟨hv, bc, a, b, hwait.reaches hv.idle (Arrives.one M s)⟩

theorem Prompt.clean (h : Prompt v s) : Clean s.env := by
  obtain ⟨-, bc, a, b, hwait⟩ := h
  exact hwait.clean

/-- The stack is empty again. -/
theorem Stands.reset (hs : Stands s ws v) (henv : s'.env = s.env) (hsp : s'.sp = STKPTR)
    (hh : s'.halted = s.halted) : Stands s' [] v :=
  ⟨⟨henv ▸ hs.loaded, by rw [hh, hs.awake]⟩, hsp, Nat.zero_le _, trivial, henv ▸ hs.mem,
    henv ▸ hs.rest⟩

theorem runs_start (s : State View) : ∃ fl, fl.zero = (s.env.mem (BUFCD + 5) == 0) ∧
    runs View.env (jump s (START.addr 0)) (START.piece 0 6) =
      State.setHl { s with
        pc := START.addr 6
        a := s.env.mem (BUFCD + 5)
        b := 5
        flags := fl
        sp := STKPTR
        inte := true } 0x0FFF := by
  obtain ⟨fl, hzero, hrun⟩ : ∃ fl,
      fl.zero = (s.env.mem (word (hiByte 0x0FFF) (loByte 0x0FFF)) |||
        s.env.mem (word (hiByte 0x0FFF) (loByte 0x0FFF)) == 0) ∧
      runs View.env (jump s (START.addr 0)) (START.piece 0 6) =
        State.setHl { s with
          pc := START.addr 6
          a := s.env.mem (word (hiByte 0x0FFF) (loByte 0x0FFF)) |||
            s.env.mem (word (hiByte 0x0FFF) (loByte 0x0FFF))
          b := 5
          flags := fl
          sp := STKPTR
          inte := true } 0x0FFF := by
    obtain ⟨⟨⟩, _⟩ := s
    exact ⟨_, rfl, rfl⟩
  have hlast : BUFCD + 5 = 0x0FFF := by decide
  rw [word_hiByte_loByte, ← hlast, BitVec.or_self] at hzero hrun
  exact ⟨fl, hzero, hrun⟩

theorem runs_dash (s : State View) : runs View.env (jump s (START.addr 8)) (START.piece 8 1) =
    { s with pc := START.addr 9, c := DASH } := by
  obtain ⟨⟨⟩, _⟩ := s
  rfl

theorem runs_return (s : State View) : runs View.env (jump s (START.addr 10)) (START.piece 10 1) =
    { s with pc := START.addr 11, h := 0, l := 0x5A } := by
  obtain ⟨⟨⟩, _⟩ := s
  rfl

/-- The dash is shown, and the monitor waits. -/
theorem Shows.dash {i : U8} (hs : Shows s [] v) (hpc : s.pc = START.addr 8) (hb : s.b = i)
    (hi : i < 6) (hv : Resting v) : Leads M s 171 (Prompt (v.conc i DASH)) := by
  obtain ⟨a, b, hs⟩ := hs
  subst hb
  refine Leads.le (t := 7 + (17 + (49 + (10 + (11 + (17 + (60 + 0))))))) ?_ (by omega)
  refine piece START 8 1 rfl rfl hs.toRunning hpc (runs_dash s) ?_
  refine Stands.call (hs.of_same rfl rfl rfl) START 9 rfl rfl (show 0 < HEIGHT by decide)
    fun sp env hs => ?_
  refine hs.conc rfl hi fun sp d e h l fl env hs => ?_
  refine piece START 10 1 rfl rfl hs.toRunning rfl (runs_return _) ?_
  refine Stands.save (hs.of_same rfl rfl rfl) START 11 rfl rfl (show 0 < HEIGHT by decide)
    fun sp env hs => ?_
  refine hs.call START 12 rfl rfl (show 1 < HEIGHT by decide) fun sp env hs => ?_
  have hentry : word 0 0x5A = START.entry := by decide
  change Stands _ [START.addr 13, word 0 0x5A] ((v.latch a b).conc s.b DASH) at hs
  rw [hentry, View.conc_latch] at hs
  refine (hs.ci rfl ((hv.conc _ _).latch a b).ready (show 1 + 1 < HEIGHT by decide)).mono
    (Nat.le_refl 60) fun s' hwait => ?_
  exact ⟨hv.conc _ _, word s.b DASH, a, b, hwait⟩

/-- **START** leads to the prompt, whatever is on the stack. -/
theorem Shows.start (hs : Shows s ws v) (hpc : s.pc = START.entry) (hv : Resting v) :
    Leads M s 230 (Prompt v.dash) := by
  obtain ⟨a, b, hs⟩ := hs
  obtain ⟨fl, hzero, hrun⟩ := runs_start s
  have hmem : s.env.mem (BUFCD + 5) = v.mem (BUFCD + 5) :=
    hs.mem _ (not_private_of_shown (by decide))
  rw [hmem] at hzero hrun
  refine Leads.le (t := 42 + (10 + (7 + 171))) ?_ (by omega)
  refine piece START 0 6 rfl rfl hs.toRunning hpc hrun ?_
  have hs₁ : Stands (State.setHl { s with
      pc := START.addr 6
      a := v.mem (BUFCD + 5)
      b := 5
      flags := fl
      sp := STKPTR
      inte := true } 0x0FFF) [] (v.latch a b) := hs.reset rfl rfl rfl
  by_cases hdark : v.mem (BUFCD + 5) = 0
  · have hdash : v.dash = v.conc 5 DASH := by rw [View.dash, if_pos hdark]
    rw [hdash]
    refine Leads.le (t := 10 + 171) ?_ (by omega)
    have htaken : Cond.z.holds fl = true := by rw [Cond.holds, hzero, beq_iff_eq.mpr hdark]
    refine hs₁.jump_if START 6 rfl rfl htaken ?_
    exact Shows.dash ⟨a, b, hs₁.of_same rfl rfl rfl⟩ rfl rfl (by decide) hv
  · have hdash : v.dash = v.conc 0 DASH := by rw [View.dash, if_neg hdark]
    rw [hdash]
    have hfall : Cond.z.holds fl = false := by
      rw [Cond.holds, hzero, beq_eq_false_iff_ne.mpr hdark]
    refine hs₁.fall_if START 6 rfl rfl hfall ?_
    refine piece START 7 1 rfl rfl ⟨hs₁.loaded, hs₁.awake⟩ rfl rfl ?_
    exact Shows.dash ⟨a, b, hs₁.of_same rfl rfl rfl⟩ rfl rfl (by decide) hv

/-! ## ERROR -/

def ERROR : Routine where
  entry := 0x0276
  code := [.call 0x02C0, .lxi .bc 0x00D3, .call 0x02B0, .jmp 0x005A]

theorem runs_question (s : State View) : runs View.env (jump s (ERROR.addr 1)) (ERROR.piece 1 1) =
    { s with pc := ERROR.addr 2, b := 0, c := QUESTION } := by
  obtain ⟨⟨⟩, _⟩ := s
  rfl

/-- **ERROR** shows a question mark and leads to the prompt. -/
theorem Shows.error (hs : Shows s ws v) (hpc : s.pc = ERROR.entry) (hv : Resting v)
    (hroom : ws.length + 1 < HEIGHT) : Leads M s 438 (Prompt v.error) := by
  obtain ⟨a, b, hs⟩ := hs
  have hroom' : ws.length < HEIGHT := Nat.lt_of_succ_lt hroom
  refine Leads.le (t := 17 + (105 + (10 + (17 + (49 + (10 + 230)))))) ?_ (by omega)
  refine hs.call ERROR 0 rfl hpc hroom' fun sp env hs => ?_
  refine hs.ersind rfl hroom fun sp env hs => ?_
  refine piece ERROR 1 1 rfl rfl hs.toRunning rfl (runs_question _) ?_
  refine Stands.call (hs.of_same rfl rfl rfl) ERROR 2 rfl rfl hroom' fun sp env hs => ?_
  refine hs.conc rfl (show (0 : U8) < 6 by decide) fun sp d e h l fl env hs => ?_
  refine hs.jmp ERROR 3 rfl rfl ?_
  rw [View.ersind_latch, View.conc_latch] at hs
  exact Shows.start ⟨a, b, hs.of_same rfl rfl rfl⟩ rfl (hv.ersind.conc 0 QUESTION)

/-! ## The directives -/

/-- The address of the code of a directive. -/
def Directive.entry : Directive → U16
  | replm => 0x00EB | replrg => 0x008B | goto => 0x0119
  | chsum => 0x0193 | file => 0x015C | move => 0x0179

/-- Where the table has the address of a directive. -/
def Directive.slot (d : Directive) : U16 := CTBL.entry + word 0 (d.code + d.code)

/-- **The table has the addresses.** -/
theorem ctbl (hv : Loaded v) (d : Directive) : v.mem d.slot = loByte d.entry ∧
    v.mem (d.slot + 1) = hiByte d.entry := by
  refine ⟨CTBL.mem hv (i := 2 * d.code.toNat) ?_ ?_, CTBL.mem hv (i := 2 * d.code.toNat + 1) ?_ ?_⟩
  all_goals
    cases d
    all_goals decide

theorem runs_slot (s : State View) : ∃ fl,
    runs View.env (jump s (START.addr 16)) (START.piece 16 5) =
      State.setHl { s with
        pc := START.addr 21, a := s.a + s.a, d := 0, e := s.a + s.a, flags := fl }
        (CTBL.entry + word 0 (s.a + s.a)) := by
  obtain ⟨fl, hrun⟩ : ∃ fl, runs View.env (jump s (START.addr 16)) (START.piece 16 5) =
      State.setHl { s with
        pc := START.addr 21, a := s.a + s.a, d := 0, e := s.a + s.a, flags := fl }
        (word (hiByte CTBL.entry) (loByte CTBL.entry) + word 0 (s.a + s.a)) := by
    rw [← ofNat_sum_false]
    obtain ⟨⟨⟩, _⟩ := s
    exact ⟨_, rfl⟩
  rw [word_hiByte_loByte] at hrun
  exact ⟨fl, hrun⟩

theorem runs_pchl (s : State View) : runs View.env (jump s (START.addr 21)) (START.piece 21 5) =
    { s with
      pc := word (s.env.mem (s.hl + 1)) (s.env.mem s.hl)
      a := s.env.mem s.hl
      h := s.env.mem (s.hl + 1)
      l := s.env.mem s.hl } := by
  have hrun : runs View.env (jump s (START.addr 21)) (START.piece 21 5) =
      let x := s.env.mem (word (hiByte (s.hl + 1)) (loByte (s.hl + 1)))
      { s with
        pc := word x (s.env.mem s.hl)
        a := s.env.mem s.hl
        h := x
        l := s.env.mem s.hl } := by
    obtain ⟨⟨⟩, _⟩ := s
    rfl
  rwa [word_hiByte_loByte] at hrun

/-- The table is read, and the directive begins. -/
theorem Stands.dispatch {d : Directive} (hs : Stands s ws v) (hpc : s.pc = START.addr 16)
    (ha : s.a = d.code)
    (h : ∀ s', s'.pc = d.entry → Stands s' ws v → Leads M s' u Q) : Leads M s (65 + u) Q := by
  obtain ⟨fl, hslot⟩ := runs_slot s
  have hhl : CTBL.entry + word 0 (s.a + s.a) = d.slot := by rw [ha, Directive.slot]
  rw [hhl] at hslot
  refine Leads.le (t := 36 + (29 + u)) ?_ (by omega)
  refine piece START 16 5 rfl rfl hs.toRunning hpc hslot ?_
  refine piece START 21 5 rfl rfl ⟨hs.loaded, hs.awake⟩ rfl (runs_pchl _) ?_
  refine h _ ?_ (hs.of_same rfl rfl rfl)
  obtain ⟨hlow, hhigh⟩ := ctbl hs.loaded d
  change word (s.env.mem (word (hiByte d.slot) (loByte d.slot) + 1))
    (s.env.mem (word (hiByte d.slot) (loByte d.slot))) = d.entry
  rw [word_hiByte_loByte, hlow, hhigh, word_hiByte_loByte]

/-! ## A key at the prompt -/

theorem runs_known (s : State View) : ∃ fl, fl.carry = decide (s.a < 6) ∧
    runs View.env (jump s (START.addr 14)) (START.piece 14 1) =
      { s with pc := START.addr 15, flags := fl } := by
  obtain ⟨⟨⟩, _⟩ := s
  exact ⟨_, rfl, rfl⟩

/-- The display is dark, and the key is compared. -/
theorem Returns.known {x : U8} (h : Returns x bc (START.addr 13) [START.entry] v s)
    (hQ : ∀ sp h l fl env, fl.carry = decide (x < 6) →
      Stands { s with pc := START.addr 15, sp := sp, h := h, l := l, flags := fl, env := env }
        [START.entry] v.ersind →
      Leads M { s with pc := START.addr 15, sp := sp, h := h, l := l, flags := fl, env := env }
        u Q) : Leads M s (129 + u) Q := by
  obtain ⟨hs, hpc, ha, -⟩ := h
  refine Leads.le (t := 17 + (105 + (7 + u))) ?_ (by omega)
  refine hs.call START 13 rfl hpc (show 1 < HEIGHT by decide) fun sp env hs => ?_
  refine hs.ersind rfl (show 1 + 1 < HEIGHT by decide) fun sp env hs => ?_
  obtain ⟨fl, hcarry, hrun⟩ := runs_known
    { s with pc := START.addr 14, sp := sp, h := 0, l := 0, env := env }
  refine piece START 14 1 rfl rfl hs.toRunning rfl hrun ?_
  rw [← ha] at hQ
  exact hQ sp 0 0 fl env hcarry (hs.of_same rfl rfl rfl)

/-- **The key of a directive** leads to its code. -/
theorem Prompt.directive {d : Directive} (h : Prompt v s) (hg : 204 + g ≤ G)
    (hQ : ∀ s', s'.pc = d.entry → Shows s' [START.entry] v.ersind → Leads M s' g (Then G Q ks)) :
    Then G Q (d.key :: ks) s := by
  obtain ⟨hv, bc, a, b, hwait⟩ := h
  refine ⟨bc, _, _, _, hwait, hv.idle, show 1 + 2 < HEIGHT by decide, fun s' hret => ?_⟩
  rw [d.code_key] at hret
  refine Leads.le (t := 129 + (10 + (65 + g))) ?_ (by omega)
  refine hret.known fun sp h l fl env hcarry hs => ?_
  have hknown : Cond.nc.holds fl = false := by
    rw [Cond.holds, hcarry, decide_eq_true d.code_lt]
    rfl
  refine hs.fall_if START 15 rfl rfl hknown ?_
  refine Stands.dispatch (hs.of_same rfl rfl rfl) rfl hret.a fun s'' hpc hs => ?_
  rw [View.ersind_latch, View.ersind_latch] at hs
  exact hQ s'' hpc ⟨column d.key.col, 0, hs⟩

/-- **Every other key** is an error. -/
theorem Prompt.unknown (h : Prompt v s) (hk : ¬ k.code < 6) (hg : 577 ≤ G)
    (hQ : ∀ s', Prompt v.ersind.error s' → Then G Q ks s') : Then G Q (k :: ks) s := by
  obtain ⟨hv, bc, a, b, hwait⟩ := h
  refine ⟨bc, _, _, _, hwait, hv.idle, show 1 + 2 < HEIGHT by decide, fun s' hret => ?_⟩
  refine Leads.le (t := 129 + (10 + 438)) ?_ (by omega)
  refine hret.known fun sp h l fl env hcarry hs => ?_
  have hunknown : Cond.nc.holds fl = true := by
    rw [Cond.holds, hcarry, decide_eq_false hk]
    rfl
  refine hs.jump_if START 15 rfl rfl hunknown ?_
  rw [View.ersind_latch, View.ersind_latch] at hs
  refine Leads.mono (t := 438) ?_ (Nat.le_refl 438) hQ
  exact Shows.error ⟨column k.col, 0, hs.of_same rfl rfl rfl⟩ rfl hv.ersind
    (show 1 + 1 < HEIGHT by decide)

end Monitor

end Umk80
