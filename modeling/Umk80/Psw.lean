import Umk80.Interrupts

/-!
# The program status word

The flag byte is edited piecemeal by a dozen helpers of the ALU. Some normalise it and some only set
or clear a flag, so bits 1, 3 and 5 keep their values by an invariant of the whole interpreter:
every opcode leaves a normalised flag byte normalised, and POP PSW normalises whatever the stack
holds. That is why PUSH PSW, which masks the byte once more, writes exactly `f`, and why POP PSW
restores it.

## Main definitions

* `I8080.stackValues` — the values that the stack reads of a step returned
* `I8080.PswKept` — what holds of the status word over a run

## Main results

* `I8080.normalised_reach` — the flag byte is normalised in every state of every run
* `I8080.pswKept` — and PUSH PSW and POP PSW carry it through the stack
-/

namespace Umk80

open Interaction Runs

/-- The values that the stack reads among some bus calls returned. -/
def stackValues (es : List BusEvent) : List U8 :=
  es.filterMap fun
    | ⟨.read _ st, v⟩ => if st = CYC_STACKR then some v else none
    | _ => none

namespace I8080

section Runs

variable {σ : Type} (bus : Handler BusOp BusOp.Ans σ) {x : I8080 × σ}

/-! ## The invariant -/

theorem normalised_step (x : I8080 × σ) (h : Normalised x.1.f) :
    Normalised (act bus x .step).1.f := by
  cases hack : x.1.acknowledges with
  | true =>
    obtain ⟨es, r, hexec, -, hresult⟩ := step_of_acknowledges bus hack
    have hpsw : Normalised r.2.f := hexec.effect.psw h
    exact (congrArg (fun r => Normalised r.2.f) hresult).mpr hpsw
  | false =>
    cases hh : x.1.halted with
    | true =>
      rw [act_step_of_halted bus hack hh]
      exact h
    | false =>
      obtain ⟨es, r, hexec, -, hresult⟩ := step_of_fetches bus ⟨hack, hh⟩
      have hpsw : Normalised r.2.f := hexec.effect.psw h
      exact (congrArg (fun r => Normalised r.2.f) hresult).mpr hpsw

theorem normalised_feed (x : I8080 × σ) (i : Input) (h : Normalised x.1.f) :
    Normalised (feed bus x i).1.f := by
  cases i with
  | reset => exact (by unfold Normalised; decide : Normalised F_ONE)
  | act a =>
    cases a with
    | request v => exact h
    | step => exact normalised_step bus x h

/-- **The flag byte is normalised** in every state of every run. -/
theorem normalised_reach (s : σ) (is : List Input) : Normalised (reach bus s is).1.f :=
  run_inv (feed bus) (P := fun x => Normalised x.1.f) (normalised_feed bus)
    (by unfold Normalised; decide : Normalised F_ONE) is

/-! ## Through the stack -/

/-- Whatever holds on every path of the opcode, from the registers of the step up to the program
counter, holds of the step. -/
theorem wp_of_executed {op : U8} (hop : executed bus x = some op)
    {Q : List BusEvent → ℕ × I8080 → Prop}
    (hQ : ∀ cpu pc, cpu.toRegs = { x.1.toRegs with pc := pc } → ((execute op).run cpu).wp Q) :
    ∃ es r, Q es r ∧ memWrites (stepCalls bus x) = memWrites es ∧
      stackValues (stepCalls bus x) = stackValues es ∧
      (act bus x .step).1.toRegs = r.2.toRegs := by
  cases hack : x.1.acknowledges with
  | true =>
    obtain rfl : x.1.intVector = op :=
      Option.some.inj (by rw [← executed_of_acknowledges bus hack, hop])
    obtain ⟨es, r, hr, hcalls, hresult⟩ := wp_of_acknowledges bus hack (hQ _ x.1.pc rfl)
    exact ⟨es, r, hr, congrArg _ hcalls, congrArg _ hcalls,
      congrArg (fun r => r.2.toRegs) hresult⟩
  | false =>
    cases hh : x.1.halted with
    | true =>
      rw [executed_of_halted bus hack hh] at hop
      cases hop
    | false =>
      obtain rfl : opcodeAt bus x = op :=
        Option.some.inj (by rw [← executed_of_fetches bus ⟨hack, hh⟩, hop])
      obtain ⟨es, r, hr, hcalls, hresult⟩ := wp_of_fetches bus ⟨hack, hh⟩ (hQ _ (x.1.pc + 1) rfl)
      refine ⟨es, r, hr, ?_, ?_, congrArg (fun r => r.2.toRegs) hresult⟩
      · rw [hcalls]
        rfl
      · rw [hcalls]
        rfl

/-- PUSH PSW writes the accumulator and the flag byte. -/
theorem memWrites_pushPsw (hf : Normalised x.1.f) (hop : executed bus x = some 0xF5) :
    memWrites (stepCalls bus x) =
      [(x.1.sp - 1, x.1.a, CYC_STACKW), (x.1.sp - 2, x.1.f, CYC_STACKW)] := by
  obtain ⟨es, r, hwrites, hcalls, -⟩ := wp_of_executed bus hop
    (Q := fun es _ => memWrites es = pushWrites x.1.sp (word x.1.a (x.1.f &&& F_MASK ||| F_ONE)))
    fun cpu pc hregs => by
      rw [show x.1.sp = cpu.sp by rw [hregs], show x.1.a = cpu.a by rw [hregs],
        show x.1.f = cpu.f by rw [hregs]]
      exact fun _ _ => rfl
  rw [hcalls, hwrites, mask_of_normalised hf, pushWrites, hiByte_word, loByte_word]

/-- POP PSW loads the flag byte, normalised, and the accumulator. -/
theorem regs_popPsw (hop : executed bus x = some 0xF1) : ∃ lo hi,
    stackValues (stepCalls bus x) = [lo, hi] ∧ (act bus x .step).1.a = hi ∧
      (act bus x .step).1.f = lo &&& F_MASK ||| F_ONE := by
  obtain ⟨es, r, ⟨lo, hi, hvalues, ha, hf⟩, -, hcalls, hregs⟩ := wp_of_executed bus hop
    (Q := fun es r => ∃ lo hi, stackValues es = [lo, hi] ∧ r.2.a = hi ∧
      r.2.f = lo &&& F_MASK ||| F_ONE)
    fun cpu pc _ lo hi => ⟨lo, hi, rfl, hiByte_word hi lo, by
      change loByte (word hi lo) &&& F_MASK ||| F_ONE = _
      rw [loByte_word]⟩
  exact ⟨lo, hi, by rw [hcalls, hvalues], by rw [hregs, ha],
    (by rw [hregs, hf])⟩

/-- What holds of the status word over a run. -/
structure PswKept (s : σ) (is : List Input) : Prop where
  normalised : Normalised (reach bus s is).1.f
  /-- PUSH PSW writes the accumulator, and then exactly the flag byte. -/
  pushed : executed bus (reach bus s is) = some 0xF5 →
    memWrites (stepCalls bus (reach bus s is)) =
      [((reach bus s is).1.sp - 1, (reach bus s is).1.a, CYC_STACKW),
        ((reach bus s is).1.sp - 2, (reach bus s is).1.f, CYC_STACKW)]
  /-- A POP PSW that reads back the bytes which a PUSH PSW wrote restores both. -/
  restored : ∀ pre mid, is = pre ++ .act .step :: mid →
    executed bus (reach bus s pre) = some 0xF5 → executed bus (reach bus s is) = some 0xF1 →
    (stackValues (stepCalls bus (reach bus s is))).reverse =
      (memWrites (stepCalls bus (reach bus s pre))).map (·.2.1) →
    (act bus (reach bus s is) .step).1.a = (reach bus s pre).1.a ∧
      (act bus (reach bus s is) .step).1.f = (reach bus s pre).1.f

/-- **The status word** keeps its fixed bits, and survives the stack, in every run on every bus. -/
theorem pswKept (s : σ) (is : List Input) : PswKept bus s is := by
  refine ⟨normalised_reach bus s is, memWrites_pushPsw bus (normalised_reach bus s is), ?_⟩
  intro pre mid _ hpush hpop hkept
  have hf := normalised_reach bus s pre
  obtain ⟨lo, hi, hvalues, ha, hflags⟩ := regs_popPsw bus hpop
  rw [hvalues, memWrites_pushPsw bus hf hpush] at hkept
  have hhi : hi = (reach bus s pre).1.a := (List.cons.inj hkept).1
  have hlo : lo = (reach bus s pre).1.f := (List.cons.inj (List.cons.inj hkept).2).1
  rw [hhi] at ha
  rw [hlo, mask_of_normalised hf] at hflags
  exact ⟨ha, hflags⟩

end Runs

end I8080

end Umk80
