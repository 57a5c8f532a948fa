import Mathlib.Data.List.Basic
import Umk80.EiShadow
import Umk80.I8080Effect

/-!
# A handler that saves what it uses is invisible

The handlers the monitor documentation describes push the pairs they use, pop them in the
opposite order, enable interrupts and return. Such a handler is nested: `PUSH p`, the handler for
the remaining pairs, `POP p`. The proof follows that nesting. The inner part runs with `sp` two
lower and changes memory only below the pair just pushed, so the POP reads back what the PUSH
wrote.

Requests may be raised again before every step. They wait while INTE is 0, and the shadow of the
EI keeps them out until RET has run.

## Main definitions

* `I8080.flat` — 64 KB of memory on the bus
* `I8080.Pair`, `I8080.body`, `I8080.handler` — the handler's code
* `I8080.stepsWith`, `I8080.acksWith` — steps with an optional request before each, and how many
  of them acknowledge

## Main results

* `I8080.body_transparent` — the saves and restores, by induction on the pairs
* `I8080.interrupt_transparent` — the whole excursion restores every register
-/

namespace Umk80

open Interaction

namespace I8080

/-! ## A flat memory bus -/

/-- 64 KB of memory, with ports that read `inp` and ignore what is written to them. -/
def flat (inp : U8 → U8) : Handler BusOp BusOp.Ans (U16 → U8)
  | .read a _, mem => (mem a, mem)
  | .write a v _, mem => ((), Function.update mem a v)
  | .input port, mem => (inp port, mem)
  | .output _ _, mem => ((), mem)

/-- The register pairs of PUSH and POP. -/
inductive Pair
  | bc
  | de
  | hl
  | psw
deriving DecidableEq

def Pair.pushOp : Pair → U8
  | .bc => 0xC5
  | .de => 0xD5
  | .hl => 0xE5
  | .psw => 0xF5

def Pair.popOp : Pair → U8
  | .bc => 0xC1
  | .de => 0xD1
  | .hl => 0xE1
  | .psw => 0xF1

/-- The word PUSH stores. -/
def Pair.get (r : Regs) : Pair → U16
  | .bc => r.getBc
  | .de => r.getDe
  | .hl => r.getHl
  | .psw => word r.a (r.f &&& F_MASK ||| F_ONE)

/-- What POP does with the word it loads. -/
def Pair.set (r : Regs) (v : U16) : Pair → Regs
  | .bc => r.setBc v
  | .de => r.setDe v
  | .hl => r.setHl v
  | .psw => { r with a := hiByte v, f := loByte v &&& F_MASK ||| F_ONE }

theorem Pair.set_get {r : Regs} (hf : Normalised r.f) (p : Pair) : p.set r (p.get r) = r := by
  cases p with
  | bc => simp [Pair.set, Pair.get, Regs.setBc, Regs.getBc]
  | de => simp [Pair.set, Pair.get, Regs.setDe, Regs.getDe]
  | hl => simp [Pair.set, Pair.get, Regs.setHl, Regs.getHl]
  | psw => simp [Pair.set, Pair.get, mask_of_normalised hf]

@[simp] theorem IntState.consumeGrace_zero (i : IntState) : i.consumeGrace 0 = i := by
  simp [IntState.consumeGrace]

section Flat

variable (inp : U8 → U8) {x : I8080 × (U16 → U8)}

/-- The state after a step that fetches `op`. -/
theorem act_flat_of_fetches {op : U8} (hx : Fetches x) (hop : x.2 x.1.pc = op) :
    (act (flat inp) x .step).1.toRegs =
        ((((execute op).run (x.1.fetched op)).run (flat inp) x.2).1.2).toRegs ∧
      (act (flat inp) x .step).1.toIntState =
        (intStateAfter op x.1.toIntState).consumeGrace x.1.intDelay ∧
      (act (flat inp) x .step).2 = (((execute op).run (x.1.fetched op)).run (flat inp) x.2).2 := by
  have hread : flat inp (.read x.1.pc CYC_FETCH) x.2 = (op, x.2) := by rw [← hop]; rfl
  have hint := intState_step_of_fetches (flat inp) hx
  rw [show opcodeAt (flat inp) x = op from hop] at hint
  refine ⟨?_, hint, ?_⟩
  · simp only [act, step_run_of_fetch hx.1 hx.2, Prog.run_bind, Prog.run_pure, Prog.run_perform,
      hread]
    rfl
  · simp only [act, step_run_of_fetch hx.1 hx.2, Prog.run_bind, Prog.run_pure, Prog.run_perform,
      hread]

theorem act_push {p : Pair} (hx : Fetches x) (hd : x.1.intDelay = 0)
    (hop : x.2 x.1.pc = p.pushOp) :
    (act (flat inp) x .step).1.toRegs = { x.1.toRegs with pc := x.1.pc + 1, sp := x.1.sp - 2 } ∧
      (act (flat inp) x .step).1.toIntState = x.1.toIntState ∧
      (act (flat inp) x .step).2 =
        Function.update (Function.update x.2 (x.1.sp - 1) (hiByte (p.get x.1.toRegs)))
          (x.1.sp - 2) (loByte (p.get x.1.toRegs)) := by
  obtain ⟨hregs, hint, hmem⟩ := act_flat_of_fetches inp hx hop
  rw [hregs, hint, hmem, hd, IntState.consumeGrace_zero]
  cases p
  all_goals exact ⟨rfl, rfl, rfl⟩

theorem act_pop {p : Pair} (hx : Fetches x) (hd : x.1.intDelay = 0)
    (hop : x.2 x.1.pc = p.popOp) :
    (act (flat inp) x .step).1.toRegs =
        p.set { x.1.toRegs with pc := x.1.pc + 1, sp := x.1.sp + 2 }
          (word (x.2 (x.1.sp + 1)) (x.2 x.1.sp)) ∧
      (act (flat inp) x .step).1.toIntState = x.1.toIntState ∧
      (act (flat inp) x .step).2 = x.2 := by
  obtain ⟨hregs, hint, hmem⟩ := act_flat_of_fetches inp hx hop
  rw [hregs, hint, hmem, hd, IntState.consumeGrace_zero]
  cases p
  all_goals exact ⟨rfl, rfl, rfl⟩

theorem act_ei (hx : Fetches x) (hd : x.1.intDelay = 0) (hop : x.2 x.1.pc = 0xFB) :
    (act (flat inp) x .step).1.toRegs = { x.1.toRegs with pc := x.1.pc + 1 } ∧
      (act (flat inp) x .step).1.toIntState = { x.1.toIntState with inte := true, intDelay := 1 } ∧
      (act (flat inp) x .step).2 = x.2 := by
  obtain ⟨hregs, hint, hmem⟩ := act_flat_of_fetches inp hx hop
  rw [hregs, hint, hmem, hd, IntState.consumeGrace_zero]
  exact ⟨rfl, rfl, rfl⟩

/-- RET in the shadow of EI. -/
theorem act_ret (hx : Fetches x) (hd : x.1.intDelay = 1) (hop : x.2 x.1.pc = 0xC9) :
    (act (flat inp) x .step).1.toRegs =
        { x.1.toRegs with sp := x.1.sp + 2, pc := word (x.2 (x.1.sp + 1)) (x.2 x.1.sp) } ∧
      (act (flat inp) x .step).1.toIntState = { x.1.toIntState with intDelay := 0 } ∧
      (act (flat inp) x .step).2 = x.2 := by
  obtain ⟨hregs, hint, hmem⟩ := act_flat_of_fetches inp hx hop
  rw [hregs, hint, hmem, hd]
  refine ⟨rfl, ?_, rfl⟩
  simp [intStateAfter, IntState.consumeGrace, hd]

/-- The acknowledge of RST 7. -/
theorem act_rst7 (hx : x.1.acknowledges = true) (hv : x.1.intVector = 0xFF) :
    (act (flat inp) x .step).1.toRegs = { x.1.toRegs with sp := x.1.sp - 2, pc := 0x38 } ∧
      (act (flat inp) x .step).1.toIntState =
        { x.1.toIntState with intPending := false, inte := false, halted := false } ∧
      (act (flat inp) x .step).2 =
        Function.update (Function.update x.2 (x.1.sp - 1) (hiByte x.1.pc))
          (x.1.sp - 2) (loByte x.1.pc) := by
  have hint := intState_step_of_acknowledges (flat inp) hx
  rw [hv] at hint
  refine ⟨?_, hint, ?_⟩
  · simp only [act, step_run_of_acknowledges hx, Prog.run_bind, Prog.run_pure, hv]
    rfl
  · simp only [act, step_run_of_acknowledges hx, Prog.run_bind, Prog.run_pure, hv]
    rfl

end Flat

/-! ## Steps with requests in between -/

section Requests

variable {σ : Type} (bus : Handler BusOp BusOp.Ans σ)

/-- Possibly raise a request. -/
def withRequest (x : I8080 × σ) : Option U8 → I8080 × σ
  | none => x
  | some v => act bus x (.request v)

/-- A step, with an optional request before it. -/
def stepWith (x : I8080 × σ) (r : Option U8) : I8080 × σ := act bus (withRequest bus x r) .step

def stepsWith (x : I8080 × σ) (rs : List (Option U8)) : I8080 × σ := rs.foldl (stepWith bus) x

/-- How many of the steps acknowledge an interrupt. -/
def acksWith : I8080 × σ → List (Option U8) → ℕ
  | _, [] => 0
  | x, r :: rs =>
    (if (withRequest bus x r).1.acknowledges then 1 else 0) + acksWith (stepWith bus x r) rs

theorem stepsWith_append (x : I8080 × σ) (rs rs' : List (Option U8)) :
    stepsWith bus x (rs ++ rs') = stepsWith bus (stepsWith bus x rs) rs' :=
  List.foldl_append

theorem acksWith_append (x : I8080 × σ) (rs rs' : List (Option U8)) :
    acksWith bus x (rs ++ rs') = acksWith bus x rs + acksWith bus (stepsWith bus x rs) rs' := by
  induction rs generalizing x with
  | nil => simp [acksWith, stepsWith]
  | cons r rs ih => simp [acksWith, stepsWith, ih, Nat.add_assoc]

theorem stepsWith_around (x : I8080 × σ) (r : Option U8) (mid : List (Option U8)) (r' : Option U8) :
    stepsWith bus x (r :: (mid ++ [r'])) = stepWith bus (stepsWith bus (stepWith bus x r) mid) r' :=
  stepsWith_append bus (stepWith bus x r) mid [r']

theorem acksWith_around (x : I8080 × σ) (r : Option U8) (mid : List (Option U8)) (r' : Option U8) :
    acksWith bus x (r :: (mid ++ [r'])) =
      (if (withRequest bus x r).1.acknowledges then 1 else 0) +
        (acksWith bus (stepWith bus x r) mid +
          if (withRequest bus (stepsWith bus (stepWith bus x r) mid) r').1.acknowledges
          then 1 else 0) := by
  simp [acksWith, acksWith_append]

theorem stepsWith_excursion (x : I8080 × σ) (r₀ : Option U8) (mid : List (Option U8))
    (r₁ r₂ : Option U8) : stepsWith bus x (r₀ :: (mid ++ [r₁, r₂])) =
      stepWith bus (stepWith bus (stepsWith bus (stepWith bus x r₀) mid) r₁) r₂ :=
  stepsWith_append bus (stepWith bus x r₀) mid [r₁, r₂]

theorem acksWith_excursion (x : I8080 × σ) (r₀ : Option U8) (mid : List (Option U8))
    (r₁ r₂ : Option U8) : acksWith bus x (r₀ :: (mid ++ [r₁, r₂])) =
      (if (withRequest bus x r₀).1.acknowledges then 1 else 0) +
        (acksWith bus (stepWith bus x r₀) mid +
          acksWith bus (stepsWith bus (stepWith bus x r₀) mid) [r₁, r₂]) := by
  rw [acksWith, acksWith_append]

theorem acksWith_pair (x : I8080 × σ) (r₁ r₂ : Option U8) : acksWith bus x [r₁, r₂] =
    (if (withRequest bus x r₁).1.acknowledges then 1 else 0) +
      if (withRequest bus (stepWith bus x r₁) r₂).1.acknowledges then 1 else 0 := by
  simp [acksWith]

/-- Running with interrupts masked: INTE is 0 and no grace is armed. -/
structure Masked (i : IntState) : Prop where
  inte : i.inte = false
  intDelay : i.intDelay = 0
  halted : i.halted = false

/-- Running in the shadow of an EI. -/
structure Shadowed (i : IntState) : Prop where
  inte : i.inte = true
  intDelay : i.intDelay = 1
  halted : i.halted = false

theorem Masked.fetches {x : I8080 × σ} (h : Masked x.1.toIntState) : Fetches x :=
  ⟨by simp [acknowledges, h.inte], h.halted⟩

theorem Shadowed.fetches {x : I8080 × σ} (h : Shadowed x.1.toIntState) : Fetches x :=
  ⟨by simp [acknowledges, h.intDelay], h.halted⟩

/-- A request moves nothing but the pending vector. -/
theorem withRequest_frame (x : I8080 × σ) (r : Option U8) :
    (withRequest bus x r).1.toRegs = x.1.toRegs ∧ (withRequest bus x r).2 = x.2 := by
  cases r with
  | none => exact ⟨rfl, rfl⟩
  | some v => exact ⟨rfl, rfl⟩

theorem Masked.withRequest {x : I8080 × σ} (h : Masked x.1.toIntState) (r : Option U8) :
    Masked (withRequest bus x r).1.toIntState := by
  cases r with
  | none => exact h
  | some v => exact ⟨h.inte, h.intDelay, h.halted⟩

theorem Shadowed.withRequest {x : I8080 × σ} (h : Shadowed x.1.toIntState) (r : Option U8) :
    Shadowed (withRequest bus x r).1.toIntState := by
  cases r with
  | none => exact h
  | some v => exact ⟨h.inte, h.intDelay, h.halted⟩

end Requests

/-! ## The handler -/

/-- `code` lies in memory from `pc` on. -/
def CodeAt (mem : U16 → U8) (pc : U16) (code : List U8) : Prop :=
  ∀ i (h : i < code.length), mem (pc + BitVec.ofNat 16 i) = code[i]

/-- The `n` bytes from `pc` on share no address with the `m` bytes below `sp`. -/
def Apart (pc : U16) (n : ℕ) (sp : U16) (m : ℕ) : Prop :=
  ∀ i < n, ∀ j < m, pc + BitVec.ofNat 16 i ≠ sp - 1 - BitVec.ofNat 16 j

/-- Memory changed at most in the `n` bytes below `sp`. -/
def SameOutside (sp : U16) (n : ℕ) (mem mem' : U16 → U8) : Prop :=
  ∀ a, (∀ j < n, a ≠ sp - 1 - BitVec.ofNat 16 j) → mem' a = mem a

/-- `PUSH p₁ … PUSH pₖ` and then `POP pₖ … POP p₁`. -/
def body (ps : List Pair) : List U8 := ps.map Pair.pushOp ++ ps.reverse.map Pair.popOp

/-- The saves and restores, then `EI` and `RET`. -/
def handler (ps : List Pair) : List U8 := body ps ++ [0xFB, 0xC9]

theorem body_cons (p : Pair) (ps : List Pair) :
    body (p :: ps) = p.pushOp :: (body ps ++ [p.popOp]) := by
  simp [body]

theorem length_body (ps : List Pair) : (body ps).length = 2 * ps.length := by
  simp [body]
  omega

/-- Code and a stack area that are apart leave no room for the area to wrap around. -/
theorem Apart.lt {pc sp : U16} {n m : ℕ} (h : Apart pc n sp m) (hn : 0 < n) : m < 65536 := by
  by_contra hm
  refine h 0 hn (sp - 1 - pc).toNat (by have := (sp - 1 - pc).isLt; omega) ?_
  rw [BitVec.ofNat_toNat, BitVec.setWidth_eq]
  bv_omega

theorem Apart.mono {pc sp : U16} {n n' m m' : ℕ} (h : Apart pc n sp m) (hn : n' ≤ n)
    (hm : m' ≤ m) : Apart pc n' sp m' :=
  fun i hi j hj => h i (Nat.lt_of_lt_of_le hi hn) j (Nat.lt_of_lt_of_le hj hm)

theorem Apart.shift {pc sp : U16} {n m : ℕ} (i₀ : ℕ) (h : Apart pc (i₀ + n) sp m) :
    Apart (pc + BitVec.ofNat 16 i₀) n sp m := by
  intro i hi j hj
  rw [BitVec.add_assoc, ← BitVec.ofNat_add]
  exact h (i₀ + i) (by omega) j hj

theorem add_around (pc : U16) (k : ℕ) :
    pc + 1 + BitVec.ofNat 16 (2 * k) + 1 = pc + BitVec.ofNat 16 (2 * (k + 1)) := by
  bv_omega

theorem sub_below (sp : U16) (j : ℕ) :
    sp - 2 - 1 - BitVec.ofNat 16 j = sp - 1 - BitVec.ofNat 16 (j + 2) := by
  bv_omega

/-- Below a pushed pair there is still no code. -/
theorem Apart.below {pc sp : U16} {n m : ℕ} (h : Apart pc n sp (m + 2)) :
    Apart pc n (sp - 2) m := by
  intro i hi j hj heq
  exact h i hi (j + 2) (by omega) (by rw [heq, sub_below sp j])

theorem CodeAt.append_left {mem : U16 → U8} {pc : U16} {c c' : List U8}
    (h : CodeAt mem pc (c ++ c')) : CodeAt mem pc c := by
  intro i hi
  rw [h i (by simp; omega), List.getElem_append_left hi]

theorem CodeAt.append_right {mem : U16 → U8} {pc : U16} {c c' : List U8}
    (h : CodeAt mem pc (c ++ c')) : CodeAt mem (pc + BitVec.ofNat 16 c.length) c' := by
  intro i hi
  have := h (c.length + i) (by simp; omega)
  rw [List.getElem_append_right (by omega)] at this
  simpa [BitVec.ofNat_add, BitVec.add_assoc] using this

theorem CodeAt.head {mem : U16 → U8} {pc : U16} {b : U8} {c : List U8}
    (h : CodeAt mem pc (b :: c)) :
    mem pc = b := by
  have h0 := h 0 (Nat.succ_pos _)
  rwa [BitVec.add_zero] at h0

theorem CodeAt.tail {mem : U16 → U8} {pc : U16} {b : U8} {c : List U8}
    (h : CodeAt mem pc (b :: c)) :
    CodeAt mem (pc + 1) c :=
  CodeAt.append_right (c := [b]) h

/-- Code apart from the stack area survives changes to it. -/
theorem CodeAt.of_sameOutside {mem mem' : U16 → U8} {pc sp : U16} {c : List U8} {n : ℕ}
    (h : CodeAt mem pc c) (hs : SameOutside sp n mem mem') (ha : Apart pc c.length sp n) :
    CodeAt mem' pc c := by
  intro i hi
  rw [hs _ (ha i hi), h i hi]

/-! ## The saves and restores -/

section Transparency

variable (inp : U8 → U8)

theorem stepWith_push {x : I8080 × (U16 → U8)} (hm : Masked x.1.toIntState) {p : Pair}
    (hop : x.2 x.1.pc = p.pushOp) (r : Option U8) :
    (stepWith (flat inp) x r).1.toRegs = { x.1.toRegs with pc := x.1.pc + 1, sp := x.1.sp - 2 } ∧
      Masked (stepWith (flat inp) x r).1.toIntState ∧
      (stepWith (flat inp) x r).2 =
        Function.update (Function.update x.2 (x.1.sp - 1) (hiByte (p.get x.1.toRegs)))
          (x.1.sp - 2) (loByte (p.get x.1.toRegs)) := by
  obtain ⟨hregs, hmem⟩ := withRequest_frame (flat inp) x r
  have hm' := hm.withRequest (flat inp) r
  have hpc : (withRequest (flat inp) x r).1.pc = x.1.pc := congrArg Regs.pc hregs
  have hsp : (withRequest (flat inp) x r).1.sp = x.1.sp := congrArg Regs.sp hregs
  obtain ⟨hr, hi, hs⟩ := act_push inp hm'.fetches hm'.intDelay (by rw [hmem, hpc, hop])
  rw [stepWith, hr, hi, hs, hmem, hpc, hsp, hregs]
  exact ⟨rfl, hm', rfl⟩

theorem stepWith_pop {x : I8080 × (U16 → U8)} (hm : Masked x.1.toIntState) {p : Pair}
    (hop : x.2 x.1.pc = p.popOp) (r : Option U8) :
    (stepWith (flat inp) x r).1.toRegs =
        p.set { x.1.toRegs with pc := x.1.pc + 1, sp := x.1.sp + 2 }
          (word (x.2 (x.1.sp + 1)) (x.2 x.1.sp)) ∧
      Masked (stepWith (flat inp) x r).1.toIntState ∧ (stepWith (flat inp) x r).2 = x.2 := by
  obtain ⟨hregs, hmem⟩ := withRequest_frame (flat inp) x r
  have hm' := hm.withRequest (flat inp) r
  have hpc : (withRequest (flat inp) x r).1.pc = x.1.pc := congrArg Regs.pc hregs
  have hsp : (withRequest (flat inp) x r).1.sp = x.1.sp := congrArg Regs.sp hregs
  obtain ⟨hr, hi, hs⟩ := act_pop inp hm'.fetches hm'.intDelay (by rw [hmem, hpc, hop])
  rw [stepWith, hr, hi, hs, hmem, hpc, hsp, hregs]
  exact ⟨rfl, hm', rfl⟩

theorem stepWith_ei {x : I8080 × (U16 → U8)} (hm : Masked x.1.toIntState)
    (hop : x.2 x.1.pc = 0xFB) (r : Option U8) :
    (stepWith (flat inp) x r).1.toRegs = { x.1.toRegs with pc := x.1.pc + 1 } ∧
      Shadowed (stepWith (flat inp) x r).1.toIntState ∧ (stepWith (flat inp) x r).2 = x.2 := by
  obtain ⟨hregs, hmem⟩ := withRequest_frame (flat inp) x r
  have hm' := hm.withRequest (flat inp) r
  have hpc : (withRequest (flat inp) x r).1.pc = x.1.pc := congrArg Regs.pc hregs
  obtain ⟨hr, hi, hs⟩ := act_ei inp hm'.fetches hm'.intDelay (by rw [hmem, hpc, hop])
  rw [stepWith, hr, hi, hs, hmem, hpc, hregs]
  exact ⟨rfl, ⟨rfl, rfl, hm'.halted⟩, rfl⟩

theorem stepWith_ret {x : I8080 × (U16 → U8)} (hsh : Shadowed x.1.toIntState)
    (hop : x.2 x.1.pc = 0xC9) (r : Option U8) :
    (stepWith (flat inp) x r).1.toRegs =
        { x.1.toRegs with sp := x.1.sp + 2, pc := word (x.2 (x.1.sp + 1)) (x.2 x.1.sp) } ∧
      ((stepWith (flat inp) x r).1.inte = true ∧ (stepWith (flat inp) x r).1.halted = false) ∧
      (stepWith (flat inp) x r).2 = x.2 := by
  obtain ⟨hregs, hmem⟩ := withRequest_frame (flat inp) x r
  have hsh' := hsh.withRequest (flat inp) r
  have hpc : (withRequest (flat inp) x r).1.pc = x.1.pc := congrArg Regs.pc hregs
  have hsp : (withRequest (flat inp) x r).1.sp = x.1.sp := congrArg Regs.sp hregs
  obtain ⟨hr, hi, hs⟩ := act_ret inp hsh'.fetches hsh'.intDelay (by rw [hmem, hpc, hop])
  rw [stepWith, hr, hi, hs, hmem, hsp, hregs]
  exact ⟨rfl, ⟨hsh'.inte, hsh'.halted⟩, rfl⟩

/-- The acknowledge that enters the handler. -/
theorem stepWith_rst7 {x : I8080 × (U16 → U8)} (hinte : x.1.inte = true) (hd : x.1.intDelay = 0)
    (hpend : x.1.intPending = true) (hvec : x.1.intVector = 0xFF) {r : Option U8}
    (hr : ∀ v ∈ r, v = 0xFF) :
    (withRequest (flat inp) x r).1.acknowledges = true ∧
      (stepWith (flat inp) x r).1.toRegs = { x.1.toRegs with sp := x.1.sp - 2, pc := 0x38 } ∧
      Masked (stepWith (flat inp) x r).1.toIntState ∧
      (stepWith (flat inp) x r).2 =
        Function.update (Function.update x.2 (x.1.sp - 1) (hiByte x.1.pc))
          (x.1.sp - 2) (loByte x.1.pc) := by
  have hreq : withRequest (flat inp) x r = x := by
    cases r with
    | none => rfl
    | some v =>
      obtain rfl := hr v rfl
      rw [← hvec, withRequest, act, interrupt, ← hpend]
  have hack : x.1.acknowledges = true := by simp [acknowledges, hinte, hd, hpend]
  obtain ⟨hr, hi, hs⟩ := act_rst7 inp hack hvec
  rw [stepWith, hreq, hr, hi, hs]
  exact ⟨hack, rfl, ⟨rfl, hd, rfl⟩, rfl⟩

/-- A push below `sp`, seen as a change to the two bytes below `sp`. -/
theorem sameOutside_push (sp : U16) (mem : U16 → U8) (hi lo : U8) :
    SameOutside sp 2 mem (Function.update (Function.update mem (sp - 1) hi) (sp - 2) lo) := by
  intro a ha
  have h0 : a ≠ sp - 1 := by simpa using ha 0 (by omega)
  have h1 : a ≠ sp - 2 := fun h => ha 1 (by omega) (by rw [h]; bv_omega)
  rw [Function.update_of_ne h1, Function.update_of_ne h0]

/-- Changes below `sp` and then below `sp - 2` are changes below `sp`. -/
theorem SameOutside.trans {sp : U16} {n : ℕ} {mem mem₁ mem₂ : U16 → U8}
    (h₁ : SameOutside sp 2 mem mem₁) (h₂ : SameOutside (sp - 2) n mem₁ mem₂) :
    SameOutside sp (n + 2) mem mem₂ := by
  intro a ha
  rw [h₂ a fun j hj h => ha (j + 2) (by omega) (by rw [h, sub_below sp j]),
    h₁ a fun j hj => ha j (by omega)]

/-- Changes below a pushed pair leave the pair readable. -/
theorem SameOutside.pushed {sp : U16} {n : ℕ} {mem mem' : U16 → U8} {hi lo : U8}
    (h : SameOutside (sp - 2) n
      (Function.update (Function.update mem (sp - 1) hi) (sp - 2) lo) mem')
    (hn : n + 2 < 65536) : mem' (sp - 2) = lo ∧ mem' (sp - 2 + 1) = hi := by
  constructor
  · rw [h _ fun j hj h => by bv_omega, Function.update_self]
  · rw [show sp - 2 + 1 = sp - 1 by bv_omega, h _ fun j hj h => by bv_omega,
      Function.update_of_ne (by bv_omega), Function.update_self]

theorem sub_two_add_two (sp : U16) : sp - 2 + 2 = sp := by
  bv_omega

/-- What PUSH stores does not depend on `pc` and `sp`. -/
theorem Pair.get_with (p : Pair) (r : Regs) (pc sp : U16) :
    p.get { r with pc := pc, sp := sp } = p.get r := by
  cases p
  all_goals rfl

/-- POP after PUSH: `mid` lies between them and touches only what is below the pushed pair. -/
theorem stepWith_pop_push {x y : I8080 × (U16 → U8)} {n : ℕ} {p : Pair}
    (hf : Normalised x.1.f) (hm : Masked y.1.toIntState) (hop : y.2 y.1.pc = p.popOp)
    {pc : U16} (hregs : y.1.toRegs = { x.1.toRegs with pc := pc, sp := x.1.sp - 2 })
    (hmem : SameOutside (x.1.sp - 2) n
      (Function.update (Function.update x.2 (x.1.sp - 1) (hiByte (p.get x.1.toRegs)))
        (x.1.sp - 2) (loByte (p.get x.1.toRegs))) y.2)
    (hn : n + 2 < 65536) (r : Option U8) :
    (stepWith (flat inp) y r).1.toRegs = { x.1.toRegs with pc := pc + 1 } ∧
      Masked (stepWith (flat inp) y r).1.toIntState ∧ (stepWith (flat inp) y r).2 = y.2 := by
  obtain ⟨hr, hm', hs⟩ := stepWith_pop inp hm hop r
  refine ⟨?_, hm', hs⟩
  have hpc : y.1.pc = pc := congrArg Regs.pc hregs
  have hsp : y.1.sp = x.1.sp - 2 := congrArg Regs.sp hregs
  obtain ⟨hlo, hhi⟩ := hmem.pushed hn
  rw [hr, hsp, hlo, hhi, word_hiByte_loByte, hpc, sub_two_add_two, hregs]
  have h := Pair.set_get (r := { x.1.toRegs with pc := pc + 1, sp := x.1.sp }) hf p
  rwa [Pair.get_with] at h

/-- **The saves and restores.** From a masked state, the `2k` steps of the body give back every
register but `pc`, acknowledge nothing, and change only the `2k` bytes below `sp`. -/
theorem body_transparent (ps : List Pair) : ∀ (x : I8080 × (U16 → U8)) (rs : List (Option U8)),
    Masked x.1.toIntState → Normalised x.1.f → CodeAt x.2 x.1.pc (body ps) →
    Apart x.1.pc (2 * ps.length) x.1.sp (2 * ps.length) → rs.length = 2 * ps.length →
    (stepsWith (flat inp) x rs).1.toRegs =
        { x.1.toRegs with pc := x.1.pc + BitVec.ofNat 16 (2 * ps.length) } ∧
      Masked (stepsWith (flat inp) x rs).1.toIntState ∧ acksWith (flat inp) x rs = 0 ∧
      SameOutside x.1.sp (2 * ps.length) x.2 (stepsWith (flat inp) x rs).2 := by
  induction ps with
  | nil =>
    intro x rs hm hf hcode hap hlen
    obtain rfl : rs = [] := List.length_eq_zero_iff.mp hlen
    exact ⟨by simp [stepsWith], hm, rfl, fun a _ => rfl⟩
  | cons p ps ih =>
    intro x rs hm hf hcode hap hlen
    rw [body_cons] at hcode
    rw [List.length_cons, Nat.mul_add] at hlen hap
    obtain ⟨r, rs, rfl⟩ := List.exists_cons_of_length_eq_add_one hlen
    obtain rfl | ⟨mid, r', rfl⟩ := List.eq_nil_or_concat rs
    · simp at hlen
    rw [List.concat_eq_append] at hlen ⊢
    have hmid : mid.length = 2 * ps.length := by simpa using hlen
    have hlt : 2 * ps.length + 2 < 65536 := hap.lt (by omega)
    -- the PUSH leaves the rest of the code where it was
    have hpush := stepWith_push inp hm hcode.head r
    have hsteps := stepsWith_around (flat inp) x r mid r'
    have hacks := acksWith_around (flat inp) x r mid r'
    obtain ⟨x₁, hx₁⟩ : ∃ y, y = stepWith (flat inp) x r := ⟨_, rfl⟩
    rw [← hx₁] at hpush hsteps hacks
    obtain ⟨hr₁, hm₁, hs₁⟩ := hpush
    have hpc₁ : x₁.1.pc = x.1.pc + 1 := congrArg Regs.pc hr₁
    have hsp₁ : x₁.1.sp = x.1.sp - 2 := congrArg Regs.sp hr₁
    have hf₁ : x₁.1.f = x.1.f := by rw [hr₁]
    have hsame₁ : SameOutside x.1.sp 2 x.2 x₁.2 := by
      rw [hs₁]
      apply sameOutside_push
    have hcode₁ : CodeAt x₁.2 (x.1.pc + 1) (body ps) := by
      refine hcode.tail.append_left.of_sameOutside hsame₁ ?_
      rw [length_body]
      exact (hap.mono (by omega) (by omega)).shift 1
    have hap₁ : Apart (x.1.pc + 1) (2 * ps.length) (x.1.sp - 2) (2 * ps.length) :=
      ((hap.mono (by omega) (Nat.le_refl _)).shift 1).below
    -- the inner pairs
    have hinner := ih x₁ mid hm₁ (by rwa [hf₁]) (by rwa [hpc₁]) (by rwa [hpc₁, hsp₁]) hmid
    generalize stepsWith (flat inp) x₁ mid = x₂ at hinner hsteps hacks
    obtain ⟨hr₂, hm₂, hacks₂, hs₂⟩ := hinner
    rw [hsp₁] at hs₂
    rw [hpc₁, hr₁] at hr₂
    have hpc₂ : x₂.1.pc = x.1.pc + 1 + BitVec.ofNat 16 (2 * ps.length) := congrArg Regs.pc hr₂
    have hcode₂ : CodeAt x₂.2 x₂.1.pc [p.popOp] := by
      have h := hcode.tail.append_right
      rw [length_body, ← hpc₂] at h
      refine h.of_sameOutside (hsame₁.trans hs₂) ?_
      rw [hpc₂]
      exact ((hap.mono (by simp; omega) (Nat.le_refl _)).shift 1).shift (2 * ps.length)
    -- and the POP that finds what was pushed
    have hmask := (hm.withRequest (flat inp) r).fetches.1
    have hmask' := (hm₂.withRequest (flat inp) r').fetches.1
    have hpop := stepWith_pop_push inp hf hm₂ hcode₂.head hr₂ (by rwa [← hs₁]) hlt r'
    generalize stepWith (flat inp) x₂ r' = x₃ at hpop hsteps
    obtain ⟨hr₃, hm₃, hs₃⟩ := hpop
    rw [hsteps, hacks, hr₃, hs₃, hmask, hmask', hacks₂, List.length_cons, ← add_around]
    exact ⟨rfl, hm₃, rfl, hsame₁.trans hs₂⟩

/-- A list of `k + 3` requests, cut at the acknowledge and before the final EI and RET. -/
theorem exists_cut {k : ℕ} {rs : List (Option U8)} (h : rs.length = k + 3) :
    ∃ r₀ mid r₁ r₂, rs = r₀ :: (mid ++ [r₁, r₂]) ∧ mid.length = k := by
  obtain ⟨r₀, rs, rfl⟩ := List.exists_cons_of_length_eq_add_one h
  have htwo : (rs.drop k).length = 2 := by simp at h ⊢; omega
  obtain ⟨r₁, r₂, hcut⟩ := List.length_eq_two.mp htwo
  refine ⟨r₀, rs.take k, r₁, r₂, ?_, by simp at h ⊢; omega⟩
  rw [← hcut, List.take_append_drop]

/-- **The interrupt is invisible.** A pending RST 7 with a handler that saves and restores the
pairs `ps` costs `2k + 3` steps. Whatever is requested before them, they acknowledge once, give
back every register, leave interrupts enabled and change only the stack area. -/
theorem interrupt_transparent (cpu : I8080) (mem : U16 → U8) (ps : List Pair)
    (rs : List (Option U8)) (hinte : cpu.inte = true) (hd : cpu.intDelay = 0)
    (hf : Normalised cpu.f) (hpend : cpu.intPending = true) (hvec : cpu.intVector = 0xFF)
    (hcode : CodeAt mem 0x38 (handler ps))
    (hap : Apart 0x38 (2 * ps.length + 2) cpu.sp (2 * ps.length + 2))
    (hlen : rs.length = 2 * ps.length + 3) (hfirst : ∀ v, rs.head? = some (some v) → v = 0xFF) :
    acksWith (flat inp) (cpu, mem) rs = 1 ∧
      (stepsWith (flat inp) (cpu, mem) rs).1.toRegs = cpu.toRegs ∧
      (stepsWith (flat inp) (cpu, mem) rs).1.halted = false ∧
      (stepsWith (flat inp) (cpu, mem) rs).1.inte = true ∧
      SameOutside cpu.sp (2 * ps.length + 2) mem (stepsWith (flat inp) (cpu, mem) rs).2 := by
  obtain ⟨r₀, mid, r₁, r₂, rfl, hmid⟩ := exists_cut hlen
  have hlt : 2 * ps.length + 2 < 65536 := hap.lt (by omega)
  have hsteps := stepsWith_excursion (flat inp) (cpu, mem) r₀ mid r₁ r₂
  have hacks := acksWith_excursion (flat inp) (cpu, mem) r₀ mid r₁ r₂
  -- the acknowledge
  obtain ⟨hack, hr₁, hm₁, hs₁⟩ := stepWith_rst7 inp (x := (cpu, mem)) hinte hd hpend hvec (r := r₀)
    fun v hv => hfirst v (by simpa using hv)
  generalize stepWith (flat inp) (cpu, mem) r₀ = x₁ at hr₁ hm₁ hs₁ hsteps hacks
  have hpc₁ : x₁.1.pc = 0x38 := congrArg Regs.pc hr₁
  have hsp₁ : x₁.1.sp = cpu.sp - 2 := congrArg Regs.sp hr₁
  have hf₁ : x₁.1.f = cpu.f := by rw [hr₁]
  have hsame₁ : SameOutside cpu.sp 2 mem x₁.2 := by
    rw [hs₁]
    apply sameOutside_push
  have hcode₁ : CodeAt x₁.2 0x38 (handler ps) := by
    refine hcode.of_sameOutside hsame₁ (hap.mono ?_ (by omega))
    simp [handler, length_body]
  -- the saves and restores
  have hbody := body_transparent inp ps x₁ mid hm₁ (by rwa [hf₁])
    (by rw [hpc₁]; exact hcode₁.append_left)
    (by rw [hpc₁, hsp₁]; exact (hap.mono (by omega) (Nat.le_refl _)).below) hmid
  generalize stepsWith (flat inp) x₁ mid = x₂ at hbody hsteps hacks
  obtain ⟨hr₂, hm₂, hacks₂, hs₂⟩ := hbody
  rw [hsp₁] at hs₂
  rw [hr₁] at hr₂
  have hpc₂ : x₂.1.pc = 0x38 + BitVec.ofNat 16 (2 * ps.length) := congrArg Regs.pc hr₂
  have hcode₂ : CodeAt x₂.2 x₂.1.pc [0xFB, 0xC9] := by
    have h := hcode.append_right
    rw [length_body, ← hpc₂] at h
    refine h.of_sameOutside (hsame₁.trans hs₂) ?_
    rw [hpc₂]
    exact hap.shift (2 * ps.length)
  -- EI
  have hei := stepWith_ei inp hm₂ hcode₂.head r₁
  have hmask₁ := (hm₂.withRequest (flat inp) r₁).fetches.1
  rw [acksWith_pair] at hacks
  generalize stepWith (flat inp) x₂ r₁ = x₃ at hei hsteps hacks
  obtain ⟨hr₃, hsh₃, hs₃⟩ := hei
  have hpc₃ : x₃.1.pc = x₂.1.pc + 1 := congrArg Regs.pc hr₃
  have hsp₃ : x₃.1.sp = cpu.sp - 2 := by
    rw [hr₃, hr₂]
  -- RET
  have hmask₂ := (hsh₃.withRequest (flat inp) r₂).fetches.1
  obtain ⟨hr₄, ⟨hinte₄, hhalt₄⟩, hs₄⟩ := stepWith_ret inp hsh₃
    (by rw [hs₃, hpc₃]; exact hcode₂.tail.head) r₂
  rw [hs₁] at hs₂
  obtain ⟨hlo, hhi⟩ := hs₂.pushed hlt
  rw [hsteps, hacks, hr₄, hs₄, hs₃, hsp₃, hlo, hhi, word_hiByte_loByte, sub_two_add_two, hr₃, hr₂,
    hack, hacks₂, hmask₁, hmask₂]
  exact ⟨rfl, rfl, hhalt₄, hinte₄, SameOutside.trans (sameOutside_push _ _ _ _) hs₂⟩

end Transparency

/-- Interrupts enabled, RST 7 pending, halted before 1000h. -/
def waiting : I8080 :=
  { reset with sp := 0x8400, pc := 0x1000, inte := true, halted := true, intPending := true,
               intVector := 0xFF }

/-- `PUSH PSW; POP PSW; EI; RET` at 0038h. -/
def saveFlags (a : U16) : U8 :=
  if a = 0x38 then 0xF5 else if a = 0x39 then 0xF1 else if a = 0x3A then 0xFB
  else if a = 0x3B then 0xC9 else 0x00

theorem interrupt_transparent_saveFlags :
    (stepsWith (flat fun _ => 0) (waiting, saveFlags)
      [some 0xFF, some 0xC7, none, some 0xFF, some 0xFF]).1.toRegs = waiting.toRegs :=
  (interrupt_transparent (fun _ => 0) waiting saveFlags [.psw]
    [some 0xFF, some 0xC7, none, some 0xFF, some 0xFF] rfl rfl (by unfold Normalised; decide) rfl
    rfl (by unfold CodeAt; decide) (by unfold Apart; decide) rfl (by simp)).2.1

end I8080

end Umk80
