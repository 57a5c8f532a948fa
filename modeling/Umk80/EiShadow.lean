import Umk80.I8080Code

/-!
# The instruction after EI

The header says that after EI one more instruction executes before an interrupt can be
recognised. `step` keeps that promise with a counter: EI arms it inside `execute`, and `step`
consumes it afterwards if the value is the one it had before. An EI fetched while the counter is
still armed by the EI before it leaves the same value, so its own grace is consumed at once.

A run is any sequence of steps and interrupt requests from reset. `EiShadow` is the promise over
a run, and `eiShadow_iff` says exactly which runs keep it.

## Main definitions

* `I8080.Action`, `I8080.runActs` — steps and requests in any order, on any bus
* `I8080.EiShadow` — no acknowledge by the step that follows an EI
* `I8080.ShadowedEi` — the next step fetches an EI with the grace counter still armed

## Main results

* `I8080.Code.frame` — processor code leaves the interrupt state and the cycle counter alone
* `I8080.intDelay_le_one` — the counter is 0 or 1 throughout every run
* `I8080.eiShadow_iff` — the promise fails only after a shadowed EI with a request pending
-/

namespace Umk80

open Interaction

namespace I8080

variable {α : Type} {n : ℕ}

/-! ## The frame of processor code -/

theorem Code.frame {p : CpuM α} (hp : Code n p) (cpu : I8080) : (p.run cpu).wp fun _ r =>
    r.2.toIntState = cpu.toIntState ∧ r.2.cycles = cpu.cycles := by
  induction hp generalizing cpu with
  | pure n a => exact ⟨rfl, rfl⟩
  | regs n => exact ⟨rfl, rfl⟩
  | modifyRegs n g => exact ⟨rfl, rfl⟩
  | busRd n a st => exact fun v => ⟨rfl, rfl⟩
  | busWr n a v st => exact fun _ => ⟨rfl, rfl⟩
  | busOut n port v => exact fun _ => ⟨rfl, rfl⟩
  | bind hp hf ihp ihf =>
    rw [StateT.run_bind, Prog.wp_bind]
    refine Prog.wp_mono (fun es r hr => ?_) (ihp cpu)
    refine Prog.wp_mono (fun es' r' hr' => ?_) (ihf r.1 r.2)
    exact ⟨by rw [hr'.1, hr.1], by rw [hr'.2, hr.2]⟩

/-- What an opcode does to the interrupt state. -/
def intStateAfter (op : U8) (i : IntState) : IntState :=
  if op = 0xF3 then { i with inte := false, intDelay := 0 }
  else if op = 0xFB then { i with inte := true, intDelay := 1 }
  else if op = 0x76 then { i with halted := true }
  else i

/-- **Only DI, EI and HLT move the interrupt state**, and no opcode moves the cycle counter. -/
theorem execute_frame (op : U8) (cpu : I8080) : ((execute op).run cpu).wp fun _ r =>
    r.2.toIntState = intStateAfter op cpu.toIntState ∧ r.2.cycles = cpu.cycles := by
  by_cases hdi : op = 0xF3
  · subst hdi; exact ⟨rfl, rfl⟩
  by_cases hei : op = 0xFB
  · subst hei; exact ⟨rfl, rfl⟩
  by_cases hhlt : op = 0x76
  · subst hhlt; exact ⟨rfl, rfl⟩
  rw [intStateAfter, if_neg hdi, if_neg hei, if_neg hhlt]
  by_cases hin : op = 0xDB
  · subst hin
    rw [execute_in, StateT.run_bind, Prog.wp_bind]
    exact Prog.wp_mono (fun es r hr v => hr) (Code.fetch8.frame cpu)
  · exact (execute_code hdi hei hhlt hin).frame cpu

/-! ## Runs -/

/-- What can happen to the processor: a request, or a step. -/
inductive Action
  | request (vector : U8)
  | step
deriving DecidableEq

def Action.isRequest : Action → Bool
  | .request _ => true
  | .step => false

section Runs

variable {σ : Type} (bus : Handler BusOp BusOp.Ans σ)

/-- The processor together with what is on its bus, after one action. -/
def act : I8080 × σ → Action → I8080 × σ
  | (cpu, s), .request v => (cpu.interrupt v, s)
  | (cpu, s), .step => (((step.run cpu).run bus s).1.2, ((step.run cpu).run bus s).2)

/-- A run from reset. -/
def runActs (s : σ) (acts : List Action) : I8080 × σ := acts.foldl (act bus) (reset, s)

/-- The byte the next step fetches, if it fetches one. -/
def opcodeAt (x : I8080 × σ) : U8 := (bus (.read x.1.pc CYC_FETCH) x.2).1

/-- The next step is an ordinary instruction. -/
def Fetches (x : I8080 × σ) : Prop := x.1.acknowledges = false ∧ x.1.halted = false

/-- The next step executes an EI, fetched or jammed by the interrupting logic. -/
def ExecutesEi (x : I8080 × σ) : Prop :=
  Fetches x ∧ opcodeAt bus x = 0xFB ∨ x.1.acknowledges = true ∧ x.1.intVector = 0xFB

/-- The next step fetches an EI while the grace of an earlier EI is still armed. -/
def ShadowedEi (x : I8080 × σ) : Prop :=
  Fetches x ∧ opcodeAt bus x = 0xFB ∧ x.1.intDelay ≠ 0

/-- Wherever a run takes a step that executes EI, the next step is no acknowledge, whatever was
requested in between. -/
def EiShadow (s : σ) (acts : List Action) : Prop :=
  ∀ pre reqs post, acts = pre ++ .step :: (reqs ++ .step :: post) →
    (∀ a ∈ reqs, a.isRequest) → ExecutesEi bus (runActs bus s pre) →
    (runActs bus s (pre ++ .step :: reqs)).1.acknowledges = false

/-! ## What an action does to the interrupt state -/

theorem intState_step_of_acknowledges {x : I8080 × σ} (h : x.1.acknowledges = true) :
    (act bus x .step).1.toIntState = intStateAfter x.1.intVector x.1.acknowledged.toIntState := by
  simp only [act, step_run_of_acknowledges h, Prog.run_bind, Prog.run_pure]
  exact (Prog.wp_run bus (execute_frame x.1.intVector x.1.acknowledged) x.2).1

theorem intState_step_of_halted {x : I8080 × σ} (h : x.1.acknowledges = false)
    (hh : x.1.halted = true) : (act bus x .step).1.toIntState = x.1.toIntState := by
  simp only [act, step_run_of_halted h hh, Prog.run_pure]
  rfl

theorem intState_step_of_fetches {x : I8080 × σ} (h : Fetches x) :
    (act bus x .step).1.toIntState =
      (intStateAfter (opcodeAt bus x) x.1.toIntState).consumeGrace x.1.intDelay := by
  simp only [act, step_run_of_fetch h.1 h.2, Prog.run_bind, Prog.run_pure, Prog.run_perform]
  exact congrArg (IntState.consumeGrace · _)
    (Prog.wp_run bus (execute_frame (opcodeAt bus x) (x.1.fetched (opcodeAt bus x))) _).1

theorem intDelay_intStateAfter_le {op : U8} {i : IntState} (h : i.intDelay ≤ 1) :
    (intStateAfter op i).intDelay ≤ 1 := by
  unfold intStateAfter
  repeat' split
  · exact (by decide : (0 : U8) ≤ 1)
  · exact BitVec.le_refl _
  · exact h
  · exact h

theorem intDelay_consumeGrace_le {i : IntState} (h : i.intDelay ≤ 1) (d : U8) :
    (i.consumeGrace d).intDelay ≤ 1 := by
  unfold IntState.consumeGrace
  split
  · dsimp only
    bv_omega
  · exact h

theorem intDelay_act_le {x : I8080 × σ} (a : Action) (h : x.1.intDelay ≤ 1) :
    (act bus x a).1.intDelay ≤ 1 := by
  cases a with
  | request v => exact h
  | step =>
    cases hack : x.1.acknowledges with
    | true =>
      rw [congrArg IntState.intDelay (intState_step_of_acknowledges bus hack)]
      exact intDelay_intStateAfter_le h
    | false =>
      cases hh : x.1.halted with
      | true => exact (congrArg IntState.intDelay (intState_step_of_halted bus hack hh)) ▸ h
      | false =>
        rw [congrArg IntState.intDelay (intState_step_of_fetches bus ⟨hack, hh⟩)]
        exact intDelay_consumeGrace_le (intDelay_intStateAfter_le h) _

/-- **The grace counter is 0 or 1** in every state of every run. -/
theorem intDelay_le_one (s : σ) (acts : List Action) : (runActs bus s acts).1.intDelay ≤ 1 := by
  have hrun : ∀ x : I8080 × σ, x.1.intDelay ≤ 1 → (acts.foldl (act bus) x).1.intDelay ≤ 1 := by
    induction acts with
    | nil => exact fun x h => h
    | cons a acts ih => exact fun x h => ih _ (intDelay_act_le bus a h)
  exact hrun _ (by decide : (0 : U8) ≤ 1)

/-! ## The shadow -/

theorem intState_request {acts : List Action} (hreq : ∀ a ∈ acts, a.isRequest) (x : I8080 × σ) :
    (acts.foldl (act bus) x).1.inte = x.1.inte ∧
      (acts.foldl (act bus) x).1.intDelay = x.1.intDelay := by
  induction acts generalizing x with
  | nil => exact ⟨rfl, rfl⟩
  | cons a acts ih =>
    have ha := hreq a List.mem_cons_self
    have ih := ih (fun b hb => hreq b (List.mem_cons_of_mem _ hb)) (act bus x a)
    cases a with
    | request v => exact ih
    | step => exact absurd ha Bool.false_ne_true

/-- The step after the requests `reqs` that follow a step. -/
theorem runActs_append_step (s : σ) (pre reqs : List Action) :
    runActs bus s (pre ++ .step :: reqs) =
      reqs.foldl (act bus) (act bus (runActs bus s pre) .step) := by
  simp [runActs, List.foldl_append]

/-- An EI leaves the grace armed, unless it was fetched in the shadow of another. -/
theorem intDelay_after_ei {x : I8080 × σ} (hei : ExecutesEi bus x) (hns : ¬ ShadowedEi bus x) :
    (act bus x .step).1.intDelay = 1 := by
  rcases hei with ⟨hf, hop⟩ | ⟨hack, hvec⟩
  · have hd : x.1.intDelay = 0 := by
      by_contra hd
      exact hns ⟨hf, hop, hd⟩
    rw [congrArg IntState.intDelay (intState_step_of_fetches bus hf), hop, hd]
    rfl
  · rw [congrArg IntState.intDelay (intState_step_of_acknowledges bus hack), hvec]
    rfl

theorem consumeGrace_intStateAfter_ei (i : IntState) :
    (intStateAfter 0xFB i).consumeGrace 1 = { i with inte := true, intDelay := 0 } := by
  simp [intStateAfter, IntState.consumeGrace]

/-- A shadowed EI enables interrupts with the grace already consumed. -/
theorem intState_after_shadowedEi {x : I8080 × σ} (hle : x.1.intDelay ≤ 1)
    (hs : ShadowedEi bus x) :
    (act bus x .step).1.inte = true ∧ (act bus x .step).1.intDelay = 0 := by
  obtain ⟨hf, hop, hd⟩ := hs
  have hone : x.1.intDelay = 1 := by
    have : x.1.intDelay ≠ 0 := hd
    bv_omega
  have h := intState_step_of_fetches bus hf
  rw [hop, hone, consumeGrace_intStateAfter_ei] at h
  exact ⟨congrArg IntState.inte h, congrArg IntState.intDelay h⟩

/-- **When the promise is kept.** A run keeps the EI shadow exactly when no EI that is fetched
with the grace of an earlier EI still armed is followed by a step with a request pending. -/
theorem eiShadow_iff (s : σ) (acts : List Action) : EiShadow bus s acts ↔
    ∀ pre reqs post, acts = pre ++ .step :: (reqs ++ .step :: post) →
      (∀ a ∈ reqs, a.isRequest) → ShadowedEi bus (runActs bus s pre) →
      (runActs bus s (pre ++ .step :: reqs)).1.intPending = false := by
  constructor
  · intro h pre reqs post hacts hreq hs
    have hack := h pre reqs post hacts hreq (Or.inl ⟨hs.1, hs.2.1⟩)
    obtain ⟨hinte, hdelay⟩ := intState_after_shadowedEi bus (intDelay_le_one bus s pre) hs
    obtain ⟨hinte', hdelay'⟩ := intState_request bus hreq (act bus (runActs bus s pre) .step)
    rw [runActs_append_step] at hack ⊢
    simpa [acknowledges, hinte', hdelay', hinte, hdelay] using hack
  · intro h pre reqs post hacts hreq hei
    by_cases hs : ShadowedEi bus (runActs bus s pre)
    · simp [acknowledges, h pre reqs post hacts hreq hs]
    · rw [runActs_append_step, acknowledges, (intState_request bus hreq _).2,
        intDelay_after_ei bus hei hs]
      simp

/-- A bus that reads 0FBh everywhere. -/
def allEi : Handler BusOp BusOp.Ans Unit
  | .read _ _, _ => (0xFB, ())
  | .write _ _ _, _ => ((), ())
  | .input _, _ => (0xFF, ())
  | .output _ _, _ => ((), ())

/-- On `EI; EI` with a request waiting, the step after the second EI acknowledges it. -/
theorem not_eiShadow_allEi : ¬ EiShadow allEi () [.request 0xFF, .step, .step, .step] := by
  intro h
  have := h [.request 0xFF, .step] [] [] rfl (by simp) (Or.inl ⟨⟨rfl, rfl⟩, rfl⟩)
  exact absurd this (by decide)

end Runs

end I8080

end Umk80
