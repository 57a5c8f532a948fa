import Umk80.Monitor.Code

/-!
# The monitor and its stack

What the monitor does is described on a board whose stack area is left open. The stack itself is a
list of words: PUSH and CALL put a word on it, POP and RET take one off, and the rest of memory is
what the description says. A state of the machine `Stands` for such a pair.

The stack begins at `STKPTR`, so its pointer follows from its height, and nothing the monitor does
to its stack reaches below `STACK_LOW`. On a board of the first revision the area has a second
address a kilobyte lower; `Private` covers both.

## Main definitions

* `Monitor.Private` — the addresses of the stack area
* `Monitor.Stands` — a state stands for a stack of words and a board
* `Monitor.RoundEnd` — a round of a loop has come to its end

## Main results

* `Monitor.Stands.push`, `Monitor.Stands.write`, `Monitor.Stands.output` — what keeps this up
* `Monitor.Stands.call`, `Monitor.Stands.ret`, … — one rule for each instruction that uses the stack
  or jumps
* `Monitor.leads_counted` — the rule for counted loops
-/

namespace Umk80

namespace Monitor

open Isa TimedRuns
open I8080 (CodeAt)

/-! ## The stack area -/

/-- The monitor's stack is empty. -/
def STKPTR : U16 := 0x0FCE

/-- No more than this many words are ever on the stack. -/
def HEIGHT : ℕ := 11

/-- The stack pointer with `n` words on the stack. -/
def spOf (n : ℕ) : U16 := BitVec.ofNat 16 (0x0FCE - 2 * n)

/-- The addresses of the stack area. -/
def Private (rev : Rev) (a : U16) : Prop :=
  RAM_BASE ≤ a ∧ a < RAM_BASE + RAM_MAX ∧
    if rev = .rev1 then 0x3B8 ≤ a.toNat % 0x400 ∧ a.toNat % 0x400 < 0x3CE
    else 0xFB8 ≤ a.toNat ∧ a.toNat < 0xFCE

instance (rev : Rev) (a : U16) : Decidable (Private rev a) := by
  unfold Private
  infer_instance

theorem toNat_spOf (n : ℕ) : (spOf n).toNat = 0x0FCE - 2 * n := by
  rw [spOf, BitVec.toNat_ofNat]
  omega

/-- The two bytes of the word with `n` words below it. -/
theorem toNat_slot {n : ℕ} (hn : n < HEIGHT) : (spOf (n + 1)).toNat = 0x0FCC - 2 * n ∧
    (spOf (n + 1) + 1).toNat = 0x0FCD - 2 * n ∧ n ≤ 10 := by
  have h : (spOf (n + 1)).toNat = 0x0FCE - 2 * (n + 1) := toNat_spOf (n + 1)
  have hone : (1 : U16).toNat = 1 := rfl
  have hle : n ≤ 10 := Nat.le_of_lt_succ hn
  rw [BitVec.toNat_add, h, hone]
  omega

theorem spOf_succ {n : ℕ} (hn : n < HEIGHT) :
    spOf n - 2 = spOf (n + 1) ∧ spOf n - 1 = spOf (n + 1) + 1 ∧ spOf (n + 1) + 2 = spOf n := by
  have h := toNat_spOf n
  obtain ⟨hlo, hhi, hle⟩ := toNat_slot hn
  refine ⟨?_, ?_, ?_⟩
  all_goals bv_omega

/-- Addresses of one cell are private together. -/
theorem private_iff_of_shares {rev : Rev} {a b : U16} (h : Shares rev a b) :
    Private rev a ↔ Private rev b := by
  obtain ⟨ha, ha', hb, hb', hcell⟩ := h
  simp only [Private, ha, ha', hb, hb', true_and]
  cases rev with
  | rev1 =>
    simp only [if_true] at hcell ⊢
    rw [hcell]
  | rev2 =>
    simp only [reduceCtorEq, if_false] at hcell ⊢
    rw [hcell]

/-- Near the end of RAM no two addresses share a cell. -/
theorem shares_iff (rev : Rev) {a b : U16} (ha : 0x0C00 ≤ a) (ha' : a < 0x1000) (hb : 0x0C00 ≤ b)
    (hb' : b < 0x1000) : Shares rev a b ↔ a = b := by
  have hax : 0xC00 ≤ a.toNat := ha
  have hax' : a.toNat < 0x1000 := ha'
  have hbx : 0xC00 ≤ b.toNat := hb
  have hbx' : b.toNat < 0x1000 := hb'
  have hram : ∀ x : U16, 0xC00 ≤ x.toNat → x.toNat < 0x1000 →
      RAM_BASE ≤ x ∧ x < RAM_BASE + RAM_MAX := by
    intro x h h'
    exact ⟨show 0x800 ≤ x.toNat by omega, h'⟩
  obtain ⟨har, har'⟩ := hram a hax hax'
  obtain ⟨hbr, hbr'⟩ := hram b hbx hbx'
  simp only [Shares, SameCell, har, har', hbr, hbr', true_and]
  cases rev with
  | rev1 =>
    simp only [if_true, ← BitVec.toNat_inj]
    omega
  | rev2 => simp only [reduceCtorEq, if_false]

theorem private_word (rev : Rev) {n : ℕ} (hn : n < HEIGHT) :
    Private rev (spOf (n + 1)) ∧ Private rev (spOf (n + 1) + 1) := by
  obtain ⟨hlo, hhi, hle⟩ := toNat_slot hn
  have key : ∀ a : U16, 0xFB8 ≤ a.toNat → a.toNat < 0xFCE → Private rev a := by
    intro a ha ha'
    refine ⟨show 0x800 ≤ a.toNat by omega, show a.toNat < 0x1000 by omega, ?_⟩
    split
    all_goals omega
  exact ⟨key _ (by omega) (by omega), key _ (by omega) (by omega)⟩

/-- The bytes of the stack are in different cells. -/
theorem shares_word (rev : Rev) {m n : ℕ} (hm : m < HEIGHT) (hn : n < HEIGHT) :
    (Shares rev (spOf (m + 1)) (spOf (n + 1)) ↔ m = n) ∧
      (Shares rev (spOf (m + 1) + 1) (spOf (n + 1) + 1) ↔ m = n) ∧
      ¬ Shares rev (spOf (m + 1)) (spOf (n + 1) + 1) ∧
      ¬ Shares rev (spOf (m + 1) + 1) (spOf (n + 1)) := by
  obtain ⟨hm1, hm2, hmle⟩ := toNat_slot hm
  obtain ⟨hn1, hn2, hnle⟩ := toNat_slot hn
  have hiff : ∀ x y : U16, 0xFB8 ≤ x.toNat → x.toNat < 0xFCE → 0xFB8 ≤ y.toNat → y.toNat < 0xFCE →
      (Shares rev x y ↔ x.toNat = y.toNat) := by
    intro x y hx hx' hy hy'
    rw [BitVec.toNat_inj]
    exact shares_iff rev (show 0xC00 ≤ x.toNat by omega) (show x.toNat < 0x1000 by omega)
      (show 0xC00 ≤ y.toNat by omega) (show y.toNat < 0x1000 by omega)
  rw [hiff _ _ (by omega) (by omega) (by omega) (by omega),
    hiff _ _ (by omega) (by omega) (by omega) (by omega),
    hiff _ _ (by omega) (by omega) (by omega) (by omega),
    hiff _ _ (by omega) (by omega) (by omega) (by omega)]
  omega

/-! ## The stack as a list of words -/

/-- The words on the stack, the last one first. -/
def StackAt (mem : U16 → U8) : List U16 → Prop
  | [] => True
  | w :: ws => mem (spOf (ws.length + 1)) = loByte w ∧
      mem (spOf (ws.length + 1) + 1) = hiByte w ∧ StackAt mem ws

theorem StackAt.of_same {mem mem' : U16 → U8} {ws : List U16} (h : StackAt mem ws)
    (hsame : ∀ n < ws.length, mem' (spOf (n + 1)) = mem (spOf (n + 1)) ∧
      mem' (spOf (n + 1) + 1) = mem (spOf (n + 1) + 1)) : StackAt mem' ws := by
  induction ws with
  | nil => trivial
  | cons w ws ih =>
    obtain ⟨hlo, hhi, hrest⟩ := h
    obtain ⟨hlo', hhi'⟩ := hsame ws.length (Nat.lt_succ_self _)
    exact ⟨by rw [hlo', hlo], by rw [hhi', hhi],
      ih hrest fun n hn => hsame n (Nat.lt_succ_of_lt hn)⟩

/-- A state of the machine stands for a stack of words and a board whose stack area is left open. -/
structure Stands (s : State View) (ws : List U16) (v : View) : Prop extends Running s where
  sp : s.sp = spOf ws.length
  room : ws.length ≤ HEIGHT
  stack : StackAt s.env.mem ws
  mem : ∀ a, ¬ Private v.rev a → s.env.mem a = v.mem a
  rest : s.env.rev = v.rev ∧ s.env.ppi = v.ppi ∧ s.env.kbd = v.kbd ∧ s.env.dbgPort = v.dbgPort

namespace Stands

variable {s s' : State View} {w : U16} {ws : List U16} {v : View}

theorem rev (h : Stands s ws v) : s.env.rev = v.rev := h.rest.1

/-- Registers do not matter. -/
theorem of_same (h : Stands s ws v) (henv : s'.env = s.env) (hsp : s'.sp = s.sp)
    (hh : s'.halted = s.halted) : Stands s' ws v :=
  ⟨⟨henv ▸ h.loaded, by rw [hh, h.awake]⟩, by rw [hsp, h.sp], h.room, henv ▸ h.stack, henv ▸ h.mem,
    henv ▸ h.rest⟩

theorem input (h : Stands s ws v) (port : U8) : s.env.input port = v.input port := by
  obtain ⟨-, hppi, hkbd, hdbg⟩ := h.rest
  rw [View.input, View.input, hppi, hkbd, hdbg]

theorem output (h : Stands s ws v) (port x : U8) (hs : s'.env = s.env.output port x)
    (hsp : s'.sp = s.sp) (hh : s'.halted = s.halted) : Stands s' ws (v.output port x) := by
  obtain ⟨hrev, hppi, hkbd, hdbg⟩ := h.rest
  refine ⟨⟨?_, by rw [hh, h.awake]⟩, by rw [hsp, h.sp], h.room, ?_, ?_, ?_⟩
  · rw [hs]
    exact h.loaded
  · rw [hs]
    exact h.stack
  · rw [hs]
    exact h.mem
  · rw [hs]
    exact ⟨hrev, congrArg (Ppi.write · port x) hppi, hkbd, congrArg (ite _ x) hdbg⟩

/-- A write outside the stack area. -/
theorem write (h : Stands s ws v) {a : U16} (ha : ¬ Private v.rev a) (x : U8)
    (hs : s'.env = s.env.write a x) (hsp : s'.sp = s.sp) (hh : s'.halted = s.halted) :
    Stands s' ws (v.write a x) := by
  have hrev := h.rev
  have hmem (b : U16) : s'.env.mem b = if Shares v.rev b a then x else s.env.mem b := by
    rw [hs, ← hrev]
    rfl
  refine ⟨⟨?_, by rw [hh, h.awake]⟩, by rw [hsp, h.sp], h.room, ?_, fun b hb => ?_, ?_⟩
  · rw [hs]
    exact h.loaded.write a x
  · refine h.stack.of_same fun n hn => ?_
    obtain ⟨hp, hp'⟩ := private_word v.rev (Nat.lt_of_lt_of_le hn h.room)
    rw [hmem, hmem, if_neg fun hshare => ha ((private_iff_of_shares hshare).mp hp),
      if_neg fun hshare => ha ((private_iff_of_shares hshare).mp hp')]
    exact ⟨rfl, rfl⟩
  · rw [hmem]
    exact congrArg (ite _ x) (h.mem b hb)
  · rw [hs]
    exact h.rest

/-- A word is pushed. -/
theorem push (h : Stands s ws v) (hroom : ws.length < HEIGHT) (w : U16)
    (hs : s'.env = (Isa.push View.env s w).env) (hsp : s'.sp = s.sp - 2)
    (hh : s'.halted = s.halted) : Stands s' (w :: ws) v := by
  have hrev := h.rev
  obtain ⟨hsub, hsub', -⟩ := spOf_succ hroom
  obtain ⟨hlow, hhigh⟩ := private_word v.rev hroom
  have hmem (b : U16) : s'.env.mem b =
      if Shares v.rev b (spOf (ws.length + 1)) then loByte w
      else if Shares v.rev b (spOf (ws.length + 1) + 1) then hiByte w else s.env.mem b := by
    rw [hs, ← hrev, ← hsub', ← hsub, ← h.sp]
    rfl
  obtain ⟨hself, hself', -, hcross⟩ := shares_word v.rev hroom hroom
  refine ⟨⟨?_, by rw [hh, h.awake]⟩, ?_, hroom, ⟨?_, ?_, ?_⟩, fun b hb => ?_, ?_⟩
  · rw [hs]
    exact (h.loaded.write _ _).write _ _
  · rw [hsp, h.sp, hsub]
    rfl
  · rw [hmem, if_pos (hself.mpr rfl)]
  · rw [hmem, if_neg hcross, if_pos (hself'.mpr rfl)]
  · refine h.stack.of_same fun n hlt => ?_
    obtain ⟨h1, h2, h3, h4⟩ := shares_word v.rev (Nat.lt_trans hlt hroom) hroom
    rw [hmem, hmem, if_neg (mt h1.mp (Nat.ne_of_lt hlt)), if_neg h3, if_neg h4,
      if_neg (mt h2.mp (Nat.ne_of_lt hlt))]
    exact ⟨rfl, rfl⟩
  · rw [hmem, if_neg fun hshare => hb ((private_iff_of_shares hshare).mpr hlow),
      if_neg fun hshare => hb ((private_iff_of_shares hshare).mpr hhigh)]
    exact h.mem b hb
  · rw [hs]
    exact h.rest

/-- The word on the stack. -/
theorem top (h : Stands s (w :: ws) v) : Isa.top View.env s = w := by
  obtain ⟨hlo, hhi, -⟩ := h.stack
  have hsp : s.sp = spOf (ws.length + 1) := h.sp
  change word (s.env.mem (s.sp + 1)) (s.env.mem s.sp) = w
  rw [hsp, hhi, hlo, word_hiByte_loByte]

/-- A word is taken off the stack. -/
theorem pop (h : Stands s (w :: ws) v) (hs : s'.env = s.env) (hsp : s'.sp = s.sp + 2)
    (hh : s'.halted = s.halted) : Stands s' ws v := by
  have hroom : ws.length < HEIGHT := h.room
  have hsp' : s.sp = spOf (ws.length + 1) := h.sp
  refine ⟨⟨hs ▸ h.loaded, by rw [hh, h.awake]⟩, ?_, Nat.le_of_lt hroom, ?_, hs ▸ h.mem, hs ▸ h.rest⟩
  · rw [hsp, hsp', (spOf_succ hroom).2.2]
  · rw [hs]
    exact h.stack.2.2

end Stands

/-! ## Rules -/

section Rules

variable {k u : ℕ} {i : Insn} {a w : U16} {cc : Cond} {s : State View} {ws : List U16}
  {v : View} {Q : State View → Prop}

theorem piece_one {R : Routine} (hk : R.code[k]? = some i) : R.piece k 1 = [i] := by
  obtain ⟨hlt, hget⟩ := List.getElem?_eq_some_iff.mp hk
  rw [Routine.piece, List.drop_eq_getElem_cons hlt, hget]
  rfl

theorem addr_succ {R : Routine} (hk : R.code[k]? = some i) :
    R.addr k + BitVec.ofNat 16 i.length = R.addr (k + 1) := by
  have htake : R.code.take (k + 1) = R.code.take k ++ [i] := by
    rw [List.take_add_one, hk]
    rfl
  rw [Routine.addr, Routine.addr, htake, bytes, bytes, List.flatMap_append,
    List.length_append, BitVec.ofNat_add, BitVec.add_assoc]
  simp [Insn.length]

/-- The instruction with number `k` is the next. -/
theorem fetch_instr (R : Routine) (hk : R.code[k]? = some i) (hi : i.real = true) (hs : Running s)
    (hpc : s.pc = R.addr k) : s.fetch View.env = i := by
  have hcode := R.codeAt_piece hs.loaded k 1
  rw [piece_one hk, ← hpc, bytes, List.flatMap_singleton] at hcode
  exact fetch_of_codeAt hcode (ne_mov_of_real hi)

theorem step_instr (R : Routine) (hk : R.code[k]? = some i) (hi : i.real = true) (hs : Running s)
    (hpc : s.pc = R.addr k) : M.step s = act View.env { s with pc := R.addr (k + 1) } i ∧
      M.cost s = i.cost s.flags := by
  have hstep := step_of_fetch (fetch_instr R hk hi hs hpc) hs.awake
  rwa [exec, State.skip, hpc, addr_succ hk] at hstep

/-- The instruction with number `k` runs. -/
theorem instr (R : Routine) (hk : R.code[k]? = some i) (hi : i.real = true)
    (hs : Running s) (hpc : s.pc = R.addr k) :
    Arrives M s (i.cost s.flags) (act View.env { s with pc := R.addr (k + 1) } i) := by
  obtain ⟨hstep, hcost⟩ := step_instr R hk hi hs hpc
  rw [← hstep, ← hcost]
  exact Arrives.one M s

/-- The same, when nothing happens outside before the next IN. -/
theorem within_instr {C : View → Prop} (R : Routine) (k : ℕ) (hk : R.code[k]? = some i)
    (hi : i.real = true) (hin : ∀ port, i ≠ .inp port) (hs : Running s) (hC : C s.env)
    (hpc : s.pc = R.addr k) (h : Within M (Hushed View.env C) u Q
      (act View.env { s with pc := R.addr (k + 1) } i)) :
    Within M (Hushed View.env C) (i.cost s.flags + u) Q s := by
  obtain ⟨hstep, hcost⟩ := step_instr R hk hi hs hpc
  have hfetch := fetch_instr R hk hi hs hpc
  obtain ⟨t, s', ht, hrun, hQ⟩ := h
  rw [← hstep] at hrun
  have hquiet : Quiet View.env s := fun port => hfetch ▸ hin port
  exact (Through.step ⟨hquiet, hC⟩ hrun).within hQ (by omega)

theorem within_fall {C : View → Prop} (R : Routine) (k : ℕ) (hk : R.code[k]? = some (.jcc cc a))
    (hs : Running s) (hC : C s.env) (hpc : s.pc = R.addr k) (hcc : cc.holds s.flags = false)
    (h : Within M (Hushed View.env C) u Q { s with pc := R.addr (k + 1) }) :
    Within M (Hushed View.env C) (10 + u) Q s := by
  have hact : act View.env { s with pc := R.addr (k + 1) } (.jcc cc a) =
      { s with pc := R.addr (k + 1) } := if_neg (Bool.not_eq_true _ ▸ hcc)
  rw [← hact] at h
  exact within_instr R k hk rfl (fun _ => Insn.noConfusion) hs hC hpc h

theorem within_jump {C : View → Prop} (R : Routine) (k : ℕ) (hk : R.code[k]? = some (.jcc cc a))
    (hs : Running s) (hC : C s.env) (hpc : s.pc = R.addr k) (hcc : cc.holds s.flags = true)
    (h : Within M (Hushed View.env C) u Q { s with pc := a }) :
    Within M (Hushed View.env C) (10 + u) Q s := by
  have hact : act View.env { s with pc := R.addr (k + 1) } (.jcc cc a) = { s with pc := a } :=
    if_pos hcc
  rw [← hact] at h
  exact within_instr R k hk rfl (fun _ => Insn.noConfusion) hs hC hpc h

namespace Running

theorem jmp (hs : Running s) (R : Routine) (k : ℕ) (hk : R.code[k]? = some (.jmp a))
    (hpc : s.pc = R.addr k) (h : Leads M { s with pc := a } u Q) : Leads M s (10 + u) Q :=
  h.after (instr R hk rfl hs hpc)

/-- A conditional jump that is taken. -/
theorem jump_if (hs : Running s) (R : Routine) (k : ℕ) (hk : R.code[k]? = some (.jcc cc a))
    (hpc : s.pc = R.addr k) (hcc : cc.holds s.flags = true) (h : Leads M { s with pc := a } u Q) :
    Leads M s (10 + u) Q := by
  have hrun := instr R hk rfl hs hpc
  have hact : act View.env { s with pc := R.addr (k + 1) } (.jcc cc a) = { s with pc := a } :=
    if_pos hcc
  rw [hact] at hrun
  exact h.after hrun

/-- A conditional jump that is not taken. -/
theorem fall_if (hs : Running s) (R : Routine) (k : ℕ) (hk : R.code[k]? = some (.jcc cc a))
    (hpc : s.pc = R.addr k) (hcc : cc.holds s.flags = false)
    (h : Leads M { s with pc := R.addr (k + 1) } u Q) : Leads M s (10 + u) Q := by
  have hrun := instr R hk rfl hs hpc
  have hact : act View.env { s with pc := R.addr (k + 1) } (.jcc cc a) =
      { s with pc := R.addr (k + 1) } := if_neg (Bool.not_eq_true _ ▸ hcc)
  rw [hact] at hrun
  exact h.after hrun

end Running

/-- A round of a loop has come to the jump at its end, with `n` rounds to go. While there are any
the jump is taken, to where `I` holds of those to go; else the loop is left, to where `Q` holds. -/
structure RoundEnd (R : Routine) (j k : ℕ) (cc : Cond) (I : ℕ → State View → Prop)
    (Q : State View → Prop) (n : ℕ) (s : State View) : Prop where
  running : Running s
  pc : s.pc = R.addr k
  test : cc.holds s.flags = decide (n ≠ 0)
  again : ∀ m, n = m + 1 → I m { s with pc := R.addr j }
  leave : n = 0 → Q { s with pc := R.addr (k + 1) }

/-- **Counted loops.** If every round ends so, the loop is left. -/
theorem leads_counted {R : Routine} {j k n t : ℕ} {I : ℕ → State View → Prop}
    (hk : R.code[k]? = some (.jcc cc (R.addr j)))
    (hround : ∀ n s, I n s → Leads M s t (RoundEnd R j k cc I Q n)) (hs : I n s) :
    Leads M s ((t + 10) * (n + 1)) Q := by
  have hagain : ∀ m s, I (m + 1) s → Leads M s (t + 10) (I m) := by
    intro m s hs
    refine (hround (m + 1) s hs).bind fun s' h => ?_
    exact h.running.jump_if (u := 0) R k hk h.pc h.test (.of (h.again m rfl))
  have hleave : ∀ s, I 0 s → Leads M s (t + 10) Q := by
    intro s hs
    refine (hround 0 s hs).bind fun s' h => ?_
    exact h.running.fall_if (u := 0) R k hk h.pc h.test (.of (h.leave rfl))
  refine ((Leads.loop hagain hs).bind hleave).le (Nat.le_of_eq ?_)
  rw [Nat.mul_comm, Nat.mul_succ]

/-- A counter with `n` rounds to go, when it is counted down. -/
theorem counter_test {d : U8} {n : ℕ} (hd : d = BitVec.ofNat 8 (n + 1)) (hn : n < 255) :
    (!(d - 1 == 0)) = decide (n ≠ 0) := by
  rw [← bne, Bool.eq_iff_iff, bne_iff_ne, decide_eq_true_iff, hd]
  bv_omega

theorem counter_next {d : U8} {n : ℕ} (hd : d = BitVec.ofNat 8 (n + 1 + 1)) :
    d - 1 = BitVec.ofNat 8 (n + 1) := by
  rw [hd]
  bv_omega

namespace Stands

theorem call (hs : Stands s ws v) (R : Routine) (k : ℕ) (hk : R.code[k]? = some (.call a))
    (hpc : s.pc = R.addr k) (hroom : ws.length < HEIGHT)
    (h : ∀ sp e, Stands { s with pc := a, sp := sp, env := e } (R.addr (k + 1) :: ws) v →
      Leads M { s with pc := a, sp := sp, env := e } u Q) : Leads M s (17 + u) Q :=
  (h _ _ (hs.push hroom (R.addr (k + 1)) rfl rfl rfl)).after (instr R hk rfl hs.toRunning hpc)

theorem ret (hs : Stands s (w :: ws) v) (R : Routine) (k : ℕ) (hk : R.code[k]? = some .ret)
    (hpc : s.pc = R.addr k)
    (h : ∀ sp, Stands { s with pc := w, sp := sp } ws v →
      Leads M { s with pc := w, sp := sp } u Q) : Leads M s (10 + u) Q := by
  have hrun := instr R hk rfl hs.toRunning hpc
  have hact : act View.env { s with pc := R.addr (k + 1) } .ret =
      { s with pc := w, sp := s.sp + 2 } := by
    rw [← hs.top]
    rfl
  rw [hact] at hrun
  exact (h _ (hs.pop rfl rfl rfl)).after hrun

/-- A conditional return that is taken. -/
theorem ret_if (hs : Stands s (w :: ws) v) (R : Routine) (k : ℕ)
    (hk : R.code[k]? = some (.rcc cc)) (hpc : s.pc = R.addr k) (hcc : cc.holds s.flags = true)
    (h : ∀ sp, Stands { s with pc := w, sp := sp } ws v →
      Leads M { s with pc := w, sp := sp } u Q) : Leads M s (11 + u) Q := by
  have hrun := instr R hk rfl hs.toRunning hpc
  have hact : act View.env { s with pc := R.addr (k + 1) } (.rcc cc) =
      { s with pc := w, sp := s.sp + 2 } := by
    rw [← hs.top]
    exact if_pos hcc
  have hcost : (Insn.rcc cc).cost s.flags = 11 := if_pos hcc
  rw [hact, hcost] at hrun
  exact (h _ (hs.pop rfl rfl rfl)).after hrun

/-- A conditional return that is not taken. -/
theorem stay_if (hs : Stands s ws v) (R : Routine) (k : ℕ) (hk : R.code[k]? = some (.rcc cc))
    (hpc : s.pc = R.addr k) (hcc : cc.holds s.flags = false)
    (h : Leads M { s with pc := R.addr (k + 1) } u Q) : Leads M s (5 + u) Q := by
  have hrun := instr R hk rfl hs.toRunning hpc
  have hact : act View.env { s with pc := R.addr (k + 1) } (.rcc cc) =
      { s with pc := R.addr (k + 1) } := if_neg (Bool.not_eq_true _ ▸ hcc)
  have hcost : (Insn.rcc cc).cost s.flags = 5 := if_neg (Bool.not_eq_true _ ▸ hcc)
  rw [hact, hcost] at hrun
  exact h.after hrun

/-- PUSH. -/
theorem save {p : Saved} (hs : Stands s ws v) (R : Routine) (k : ℕ)
    (hk : R.code[k]? = some (.push p)) (hpc : s.pc = R.addr k) (hroom : ws.length < HEIGHT)
    (h : ∀ sp e, Stands { s with pc := R.addr (k + 1), sp := sp, env := e } (getSaved s p :: ws) v →
      Leads M { s with pc := R.addr (k + 1), sp := sp, env := e } u Q) : Leads M s (11 + u) Q := by
  have hsaved : getSaved { s with pc := R.addr (k + 1) } p = getSaved s p := by
    cases p
    all_goals rfl
  have hrun := instr R hk rfl hs.toRunning hpc
  refine Leads.after hrun ?_
  change Leads M (Isa.push View.env { s with pc := R.addr (k + 1) } (getSaved _ p)) u Q
  rw [hsaved]
  exact h _ _ (hs.push hroom _ rfl rfl rfl)

/-- POP. -/
theorem restore {p : Saved} (hs : Stands s (w :: ws) v) (R : Routine) (k : ℕ)
    (hk : R.code[k]? = some (.pop p)) (hpc : s.pc = R.addr k)
    (h : ∀ sp, Stands (setSaved { s with pc := R.addr (k + 1), sp := sp } w p) ws v →
      Leads M (setSaved { s with pc := R.addr (k + 1), sp := sp } w p) u Q) :
    Leads M s (10 + u) Q := by
  have hrun := instr R hk rfl hs.toRunning hpc
  refine Leads.after hrun ?_
  change Leads M
    (setSaved { s with pc := R.addr (k + 1), sp := s.sp + 2 } (Isa.top View.env s) p) u Q
  rw [hs.top]
  refine h _ (hs.pop ?_ ?_ ?_)
  all_goals
    cases p
    all_goals rfl

/-- POP of a pair that was pushed from its registers. -/
theorem restore_bc {x y : U8} (hs : Stands s (word x y :: ws) v) (R : Routine) (k : ℕ)
    (hk : R.code[k]? = some (.pop .bc)) (hpc : s.pc = R.addr k)
    (h : ∀ sp, Stands { s with pc := R.addr (k + 1), sp := sp, b := x, c := y } ws v →
      Leads M { s with pc := R.addr (k + 1), sp := sp, b := x, c := y } u Q) :
    Leads M s (10 + u) Q := by
  refine hs.restore R k hk hpc fun sp hs => ?_
  rw [setSaved, State.setBc, hiByte_word, loByte_word] at hs ⊢
  exact h sp hs

theorem restore_hl {x y : U8} (hs : Stands s (word x y :: ws) v) (R : Routine) (k : ℕ)
    (hk : R.code[k]? = some (.pop .hl)) (hpc : s.pc = R.addr k)
    (h : ∀ sp, Stands { s with pc := R.addr (k + 1), sp := sp, h := x, l := y } ws v →
      Leads M { s with pc := R.addr (k + 1), sp := sp, h := x, l := y } u Q) :
    Leads M s (10 + u) Q := by
  refine hs.restore R k hk hpc fun sp hs => ?_
  rw [setSaved, State.setHl, hiByte_word, loByte_word] at hs ⊢
  exact h sp hs

/-- XTHL. -/
theorem swap (hs : Stands s (w :: ws) v) (R : Routine) (k : ℕ) (hk : R.code[k]? = some .xthl)
    (hpc : s.pc = R.addr k)
    (h : ∀ sp e,
      Stands (State.setHl { s with pc := R.addr (k + 1), sp := sp, env := e } w) (s.hl :: ws) v →
      Leads M (State.setHl { s with pc := R.addr (k + 1), sp := sp, env := e } w) u Q) :
    Leads M s (18 + u) Q := by
  have hrun := instr R hk rfl hs.toRunning hpc
  refine Leads.after hrun ?_
  have hpop : Stands (drop { s with pc := R.addr (k + 1) }) ws v := hs.pop rfl rfl rfl
  have hpush : Stands (Isa.push View.env (drop { s with pc := R.addr (k + 1) }) s.hl)
      (s.hl :: ws) v := hpop.push hs.room s.hl rfl rfl rfl
  change Leads M (State.setHl _ (Isa.top View.env s)) u Q
  rw [hs.top]
  exact h _ _ (hpush.of_same rfl rfl rfl)

end Stands

end Rules

end Monitor

end Umk80
