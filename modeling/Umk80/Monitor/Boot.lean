import Umk80.Monitor.Prompt

/-!
# From reset to the prompt

BOOT copies the initial registers into RAM, makes ports A and B of the ВВ55 outputs, darkens the
display and falls through to START. Nothing is assumed of the machine but that the monitor is in its
ROM: not of RAM, of the registers or of what the ports were before.

## Main definitions

* `View.copied` — bytes of the ROM are copied
* `View.boot` — the board after BOOT

## Main results

* `Monitor.Running.boot` — from reset to the prompt
-/

namespace Umk80

open Isa TimedRuns

namespace View

open Monitor

/-- `n` bytes of the ROM are copied. -/
def copied (v : View) (src dst : U16) : ℕ → View
  | 0 => v
  | n + 1 => copied (v.write dst (romByte src)) (src + 1) (dst + 1) n

/-- The initial registers, and the mode of the ports. -/
def tos (v : View) : View := (v.copied 0x03BD STKPTR 44).output 0xFB 0x89

/-- The board after BOOT. -/
def boot (v : View) : View := v.tos.ersind

end View

namespace Monitor

variable {u : ℕ} {s s' : State View} {ws : List U16} {v : View} {Q : State View → Prop}

/-- Ports A and B are outputs. -/
theorem ready_mode (v : View) : (v.output 0xFB 0x89).Ready := ⟨rfl, rfl⟩

theorem kbd_mode (v : View) : (v.output 0xFB 0x89).kbd = v.kbd := rfl

theorem kbd_copied (n : ℕ) (v : View) (src dst : U16) : (v.copied src dst n).kbd = v.kbd := by
  induction n generalizing v src dst with
  | zero => rfl
  | succ n ih => exact ih _ _ _

theorem resting_tos (hkbd : v.kbd = .idle) : Resting v.tos := by
  refine ⟨ready_mode _, ?_⟩
  rw [View.tos, kbd_mode, kbd_copied, hkbd]

-- Writes are compared by their address and value, not byte by byte.
attribute [local irreducible] View.write View.output

def RESET : Routine where
  entry := 0x0000
  code := [.jmp 0x0040]

def BOOT : Routine where
  entry := 0x0040
  code := [.lxi .sp 0x0FCE, .lxi .hl 0x0FCE, .lxi .bc 0x03BD, .mvi .d 0x2C,
    -- MOVLP
    .ldaxB, .mov .m .a, .inx .hl, .inx .bc, .dcr .d, .jcc .nz 0x004B,
    .mvi .a 0x89, .out 0xFB, .call 0x02C0]

theorem runs_boot (s : State View) : runs View.env (jump s (BOOT.addr 0)) (BOOT.piece 0 4) =
    { s with
      pc := BOOT.addr 4
      sp := STKPTR
      h := 0x0F
      l := 0xCE
      b := 0x03
      c := 0xBD
      d := 0x2C } := by
  obtain ⟨⟨⟩, _⟩ := s
  rfl

/-- The stack begins empty, wherever it was before. -/
theorem Running.begin (hs : Running s) (hsp : s.sp = STKPTR) : Stands s [] s.env :=
  ⟨hs, hsp, Nat.zero_le _, trivial, fun _ _ => rfl, rfl, rfl, rfl, rfl⟩

/-- An address of the variables, above the stack. -/
def Variable (a : U16) : Prop := STKPTR ≤ a ∧ a < 0x1000

theorem not_private_of_variable {rev : Rev} {a : U16} (h : Variable a) : ¬ Private rev a := by
  rintro ⟨-, -, hp⟩
  have hlow : 0xFCE ≤ a.toNat := h.1
  have hhigh : a.toNat < 0x1000 := h.2
  split at hp
  all_goals omega

/-- The bytes at BC are being copied to HL, `n` of them besides this one, and then the board is
`v'`. -/
def Copying (ws : List U16) (v' : View) (n : ℕ) (s : State View) : Prop :=
  ∃ v, Stands s ws v ∧ s.pc = BOOT.addr 4 ∧ s.d = BitVec.ofNat 8 (n + 1) ∧ n < 255 ∧
    STKPTR ≤ s.hl ∧ s.hl.toNat + n < 0x1000 ∧ s.bc.toNat + n < 0x800 ∧
    v.copied s.bc s.hl (n + 1) = v'

/-- A round of the loop, up to the jump. -/
theorem Copying.round {v' : View} {n : ℕ} (h : Copying ws v' n s) :
    Leads M s 29 (RoundEnd BOOT 4 9 .nz (Copying ws v')
      (fun s' => s'.pc = BOOT.addr 10 ∧ Stands s' ws v') n) := by
  obtain ⟨v, hs, hpc, hd, hn, hlow, hhigh, hsource, hv⟩ := h
  have hlow' : 0xFCE ≤ s.hl.toNat := hlow
  have hvar : Variable s.hl := ⟨hlow, show s.hl.toNat < 0x1000 by omega⟩
  have hrom : s.bc < RAM_BASE := show s.bc.toNat < 0x800 by omega
  obtain ⟨s', hrun, hpc', hd', hhl', hbc', hzero, henv, hsp, hh⟩ :
      ∃ s', runs View.env (jump s (BOOT.addr 4)) (BOOT.piece 4 5) = s' ∧ s'.pc = BOOT.addr 9 ∧
        s'.d = s.d - 1 ∧ s'.hl = s.hl + 1 ∧ s'.bc = s.bc + 1 ∧ s'.flags.zero = (s.d - 1 == 0) ∧
        s'.env = s.env.write s.hl (s.env.mem s.bc) ∧ s'.sp = s.sp ∧ s'.halted = s.halted := by
    obtain ⟨⟨⟩, _⟩ := s
    exact ⟨_, rfl, rfl, rfl, word_hiByte_loByte _, word_hiByte_loByte _, rfl, rfl, rfl, rfl⟩
  rw [hs.loaded _ hrom] at henv
  have hs' : Stands s' ws (v.write s.hl (romByte s.bc)) :=
    hs.write (not_private_of_variable hvar) _ henv hsp hh
  refine piece (u := 0) BOOT 4 5 rfl rfl hs.toRunning hpc hrun (.of ?_)
  refine ⟨hs'.toRunning, hpc', ?_, ?_, ?_⟩
  · rw [Cond.holds, hzero, counter_test hd hn]
  · rintro n rfl
    refine ⟨_, hs'.of_same rfl rfl rfl, rfl, by rw [hd', counter_next hd], by omega, ?_⟩
    change STKPTR ≤ s'.hl ∧ s'.hl.toNat + n < 0x1000 ∧ s'.bc.toNat + n < 0x800 ∧
      View.copied _ s'.bc s'.hl (n + 1) = v'
    rw [hhl', hbc']
    have hnext : (s.hl + 1).toNat = s.hl.toNat + 1 := by bv_omega
    have hnext' : (s.bc + 1).toNat = s.bc.toNat + 1 := by bv_omega
    exact ⟨show 0xFCE ≤ (s.hl + 1).toNat by omega, by omega, by omega, hv⟩
  · rintro rfl
    exact ⟨rfl, hv ▸ hs'.of_same rfl rfl rfl⟩

/-- The loop of BOOT: the bytes at BC are copied to HL. -/
theorem Stands.movlp {n : ℕ} (hn : n < 255) {a b : U16} {s : State View} {v : View}
    (hs : Stands s ws v) (hpc : s.pc = BOOT.addr 4) (hhl : s.hl = a) (hbc : s.bc = b)
    (hd : s.d = BitVec.ofNat 8 (n + 1)) (ha : STKPTR ≤ a) (ha' : a.toNat + n < 0x1000)
    (hb : b.toNat + n < 0x800)
    (h : ∀ s', s'.pc = BOOT.addr 10 → Stands s' ws (v.copied b a (n + 1)) → Leads M s' u Q) :
    Leads M s (39 * (n + 1) + u) Q := by
  subst hhl hbc
  have hloop := leads_counted rfl (fun n s => Copying.round)
    ⟨v, hs, hpc, hd, hn, ha, ha', hb, rfl⟩
  exact hloop.bind fun s' ⟨hpc', hs'⟩ => h s' hpc' hs'

theorem runs_mode (s : State View) : runs View.env (jump s (BOOT.addr 10)) (BOOT.piece 10 2) =
    { s with pc := BOOT.addr 12, a := 0x89, env := s.env.output 0xFB 0x89 } := by
  obtain ⟨⟨⟩, _⟩ := s
  rfl

/-- **From reset to the prompt.** -/
theorem Running.boot (hs : Running s) (hpc : s.pc = RESET.entry) (hkbd : s.env.kbd = .idle) :
    Leads M s 2132 (Prompt s.env.boot.dash) := by
  refine Leads.le (t := 10 + (37 + (39 * (43 + 1) + (17 + (17 + (105 + 230)))))) ?_ (by omega)
  refine piece RESET 0 1 rfl rfl hs hpc rfl ?_
  refine piece BOOT 0 4 rfl rfl ⟨hs.loaded, hs.awake⟩ rfl (runs_boot _) ?_
  have hhl : word 0x0F 0xCE = STKPTR := by decide
  have hbc : word 0x03 0xBD = 0x03BD := by decide
  refine Stands.movlp (n := 43) (by decide) (Running.begin ⟨hs.loaded, hs.awake⟩ rfl) rfl hhl hbc
    rfl (by decide) (by decide) (by decide) fun s' hpc' hs' => ?_
  refine piece BOOT 10 2 rfl rfl hs'.toRunning hpc' (runs_mode s') ?_
  have hs₁ : Stands { s' with pc := BOOT.addr 12, a := 0x89, env := s'.env.output 0xFB 0x89 } []
      s.env.tos := hs'.output 0xFB 0x89 rfl rfl rfl
  refine hs₁.call BOOT 12 rfl rfl (show 0 < HEIGHT by decide) fun sp env hs => ?_
  refine hs.ersind rfl (show 0 + 1 < HEIGHT by decide) fun sp env hs => ?_
  exact Shows.start ⟨_, _, hs⟩ rfl (resting_tos hkbd).ersind

end Monitor

end Umk80
