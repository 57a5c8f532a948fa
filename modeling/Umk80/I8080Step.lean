import Umk80.EiShadow
import Umk80.I8080Effect
import Umk80.I8080Trace

/-!
# What a step does

A step runs one opcode, fetched or jammed, or idles. Each way through it is described once, on any
bus: the state in which the opcode runs, the calls it makes, and what is done with its result.

The T states of a step then agree with its machine cycles. Each machine cycle takes three, and what
is left depends on the opcode alone; a conditional CALL or RET that is taken pays for its two stack
cycles and for nothing else.

## Main definitions

* `I8080.Execution` — everything about the run of an opcode within a step
* `I8080.executed` — the opcode a step runs
* `I8080.Timing` — T states and machine cycles agree

## Main results

* `I8080.step_of_fetches`, `I8080.step_of_acknowledges`, `I8080.step_of_halted` — the three ways
  through a step
* `I8080.step_timing` — timing agrees with bus activity, on every bus
-/

namespace Umk80

open Interaction

namespace I8080

/-! ## The run of an opcode within a step -/

/-- The run of an opcode from a state whose trace holds the one cycle that brought it. -/
structure Execution (op : U8) (cpu : I8080) (es : List BusEvent) (r : ℕ × I8080) : Prop where
  effect : Effect op cpu es r
  mcCount : r.2.mcCount.toNat = 1 + es.length
  intState : r.2.toIntState = intStateAfter op cpu.toIntState
  cycles : r.2.cycles = cpu.cycles

theorem execute_execution (op : U8) {cpu : I8080} (h : cpu.mcCount.toNat = 1) :
    ((execute op).run cpu).wp (Execution op cpu) := by
  have hrun := Prog.wp_and (execute_effect op cpu)
    (Prog.wp_and (execute_records op cpu (by omega)) (execute_frame op cpu))
  refine Prog.wp_mono (fun es r hr => ?_) hrun
  obtain ⟨heffect, ⟨-, hcount, -⟩, hint, hcycles⟩ := hr
  exact ⟨heffect, h ▸ hcount, hint, hcycles⟩

section Bus

variable {σ : Type} (bus : Handler BusOp BusOp.Ans σ) {x : I8080 × σ}

/-- The T states of the next step, and the processor after it. -/
abbrev stepResult (x : I8080 × σ) : ℕ × I8080 := ((step.run x.1).run bus x.2).1

/-- The bus calls of the next step. -/
abbrev stepCalls (x : I8080 × σ) : List BusEvent := (step.run x.1).runLog bus x.2

/-- Whatever holds on every path of the opcode holds of its run within a step that fetches it. -/
theorem wp_of_fetches (h : Fetches x) {Q : List BusEvent → ℕ × I8080 → Prop}
    (hQ : ((execute (opcodeAt bus x)).run (x.1.fetched (opcodeAt bus x))).wp Q) :
    ∃ es r, Q es r ∧ stepCalls bus x = ⟨.read x.1.pc CYC_FETCH, opcodeAt bus x⟩ :: es ∧
      stepResult bus x = (r.1, (r.2.consumeGrace x.1.intDelay).addCycles r.1) := by
  refine ⟨_, _, Prog.wp_run bus hQ (bus (.read x.1.pc CYC_FETCH) x.2).2, ?_, ?_⟩
  · rw [stepCalls, step_run_of_fetch h.1 h.2, Prog.runLog_bind, Prog.runLog_bind]
    exact congrArg _ (List.append_nil _)
  · rw [stepResult, step_run_of_fetch h.1 h.2, Prog.run_bind, Prog.run_bind]
    rfl

/-- The same for a step that acknowledges. -/
theorem wp_of_acknowledges (h : x.1.acknowledges = true) {Q : List BusEvent → ℕ × I8080 → Prop}
    (hQ : ((execute x.1.intVector).run x.1.acknowledged).wp Q) :
    ∃ es r, Q es r ∧ stepCalls bus x = es ∧ stepResult bus x = (r.1, r.2.addCycles r.1) := by
  refine ⟨_, _, Prog.wp_run bus hQ x.2, ?_, ?_⟩
  · rw [stepCalls, step_run_of_acknowledges h, Prog.runLog_bind]
    exact List.append_nil _
  · rw [stepResult, step_run_of_acknowledges h, Prog.run_bind]
    rfl

/-- **A fetched instruction.** -/
theorem step_of_fetches (h : Fetches x) : ∃ es r,
    Execution (opcodeAt bus x) (x.1.fetched (opcodeAt bus x)) es r ∧
      stepCalls bus x = ⟨.read x.1.pc CYC_FETCH, opcodeAt bus x⟩ :: es ∧
      stepResult bus x = (r.1, (r.2.consumeGrace x.1.intDelay).addCycles r.1) :=
  wp_of_fetches bus h (execute_execution _ (mcCount_log_clear _ _ _ _))

/-- **An acknowledge.** -/
theorem step_of_acknowledges (h : x.1.acknowledges = true) : ∃ es r,
    Execution x.1.intVector x.1.acknowledged es r ∧ stepCalls bus x = es ∧
      stepResult bus x = (r.1, r.2.addCycles r.1) :=
  wp_of_acknowledges bus h (execute_execution _ (mcCount_log_clear _ _ _ _))

/-- **An idle cycle.** -/
theorem step_of_halted (h : x.1.acknowledges = false) (hh : x.1.halted = true) :
    stepCalls bus x = [] ∧ stepResult bus x = (4, x.1.idled) := by
  rw [stepCalls, stepResult, step_run_of_halted h hh]
  exact ⟨rfl, rfl⟩

/-! ## Timing -/

/-- The opcode the next step runs, fetched or jammed; an idle cycle runs none. -/
def executed (x : I8080 × σ) : Option U8 :=
  if x.1.acknowledges then some x.1.intVector
  else if x.1.halted then none
  else some (opcodeAt bus x)

/-- The T states of a step are three for each machine cycle it records and a rest that the opcode
determines. They are added to the cycle counter. A conditional CALL or RET takes the T states of
the table and three for each stack cycle; there are two of these if the condition is true. -/
structure Timing (x : I8080 × σ) : Prop where
  states : (stepResult bus x).1 =
    3 * (stepResult bus x).2.mcCount.toNat + (executed bus x).elim 1 slack
  cycles : (stepResult bus x).2.cycles = x.1.cycles + BitVec.ofNat 64 (stepResult bus x).1
  taken : ∀ op ∈ executed bus x, ∀ cc ∈ stackCondition op,
    (stepResult bus x).1 =
        opcodeCycles op + 3 * (stepCalls bus x).countP BusEvent.isStack ∧
      (stepCalls bus x).countP BusEvent.isStack = if x.1.condTrue cc then 2 else 0

/-- **Timing agrees with bus activity**, for every processor state and every bus. -/
theorem step_timing (x : I8080 × σ) : Timing bus x := by
  cases hack : x.1.acknowledges with
  | true =>
    obtain ⟨es, r, hexec, hcalls, hresult⟩ := step_of_acknowledges bus hack
    have hop : executed bus x = some x.1.intVector := by simp [executed, hack]
    refine ⟨?_, ?_, fun op h cc hcc => ?_⟩
    · rw [hop, hresult, hexec.effect.cost]
      change _ = 3 * r.2.mcCount.toNat + slack x.1.intVector
      rw [hexec.mcCount, Nat.add_comm 1]
    · rw [hresult, addCycles, hexec.cycles]
      rfl
    · obtain rfl : x.1.intVector = op := Option.some.inj (by rw [← hop, h])
      rw [hresult, hcalls]
      exact hexec.effect.taken cc hcc
  | false =>
    cases hh : x.1.halted with
    | true =>
      obtain ⟨-, hresult⟩ := step_of_halted bus hack hh
      have hop : executed bus x = none := by simp [executed, hack, hh]
      refine ⟨?_, ?_, fun op h => ?_⟩
      · have hcount : x.1.idled.mcCount.toNat = 1 := mcCount_log_clear _ _ _ _
        rw [hop, hresult, hcount]
        rfl
      · rw [hresult]
        rfl
      · rw [hop] at h
        cases h
    | false =>
      obtain ⟨es, r, hexec, hcalls, hresult⟩ := step_of_fetches bus ⟨hack, hh⟩
      have hop : executed bus x = some (opcodeAt bus x) := by simp [executed, hack, hh]
      refine ⟨?_, ?_, fun op h cc hcc => ?_⟩
      · rw [hop, hresult, hexec.effect.cost]
        change _ = 3 * r.2.mcCount.toNat + slack (opcodeAt bus x)
        rw [hexec.mcCount, Nat.add_comm 1]
      · rw [hresult, addCycles, consumeGrace, hexec.cycles]
        rfl
      · obtain rfl : opcodeAt bus x = op := Option.some.inj (by rw [← hop, h])
        have hfetch : ¬ BusEvent.isStack ⟨.read x.1.pc CYC_FETCH, opcodeAt bus x⟩ = true :=
          show ¬ (CYC_FETCH == CYC_STACKR) = true by decide
        rw [hresult, hcalls, List.countP_cons_of_neg hfetch]
        exact hexec.effect.taken cc hcc

end Bus

end I8080

end Umk80
