import Umk80.EiShadow

/-!
# What an instruction costs

Every step takes between 4 and 18 T states and adds them to the cycle counter. The T states come
from the table, except for the conditional CALLs and RETs that are taken.

## Main results

* `I8080.execute_cost` — the T states of every opcode
* `I8080.step_cost` — a step returns its T states and adds them to the counter
-/

namespace Umk80

open Interaction

namespace I8080

variable {α : Type}

/-- Code that returns between 4 and 18 T states. -/
def Costs (p : CpuM ℕ) : Prop := ∀ cpu : I8080, (p.run cpu).wp fun _ r => 4 ≤ r.1 ∧ r.1 ≤ 18

theorem costs_pure {cyc : ℕ} (h : 4 ≤ cyc ∧ cyc ≤ 18) : Costs (pure cyc) := fun _ => h

theorem costs_bind {p : CpuM α} {f : α → CpuM ℕ} (hf : ∀ a, Costs (f a)) : Costs (p >>= f) := by
  intro cpu
  rw [StateT.run_bind, Prog.wp_bind]
  exact Prog.wp_of_forall _ fun _ r => hf r.1 r.2

theorem costs_ite {c : Prop} [Decidable c] {p q : CpuM ℕ} (hp : Costs p) (hq : Costs q) :
    Costs (if c then p else q) := by
  split
  · exact hp
  · exact hq

theorem opcodeCycles_bounds : ∀ op : U8, 4 ≤ opcodeCycles op ∧ opcodeCycles op ≤ 18 := by
  decide +kernel

theorem executeBlock_cost (op : U8) {cyc : ℕ} (h : 4 ≤ cyc ∧ cyc ≤ 18) :
    Costs (executeBlock op cyc) := by
  have hcyc := costs_pure h
  refine costs_ite ?_ <| costs_ite ?_ <| costs_ite ?_ <| costs_ite ?_ <| costs_ite ?_ <|
    costs_ite ?_ <| costs_ite ?_ <| costs_ite ?_ <| costs_ite ?ccc <| costs_ite ?rcc hcyc
  case ccc =>
    refine costs_bind fun _ => costs_bind fun _ => costs_ite ?_ hcyc
    exact costs_bind fun _ => costs_bind fun _ => costs_bind fun _ => costs_pure (by decide)
  case rcc =>
    refine costs_bind fun _ => costs_ite ?_ hcyc
    exact costs_bind fun _ => costs_bind fun _ => costs_pure (by decide)
  all_goals first
    | exact costs_bind fun _ => hcyc
    | exact costs_bind fun _ => costs_bind fun _ => hcyc
    | exact costs_bind fun _ => costs_bind fun _ => costs_bind fun _ => hcyc
    | exact costs_bind fun _ => costs_bind fun _ =>
        costs_ite (costs_bind fun _ => hcyc) hcyc

/-- **Every opcode takes between 4 and 18 T states.** -/
theorem execute_cost (op : U8) : Costs (execute op) := by
  have hcyc := costs_pure (opcodeCycles_bounds op)
  unfold execute
  split
  all_goals first
    | exact executeBlock_cost _ (opcodeCycles_bounds _)
    | exact hcyc
    | exact costs_bind fun _ => hcyc
    | exact costs_bind fun _ => costs_bind fun _ => hcyc
    | exact costs_bind fun _ => costs_bind fun _ => costs_bind fun _ => hcyc
    | exact costs_bind fun _ => costs_bind fun _ => costs_bind fun _ => costs_bind fun _ => hcyc
    | exact costs_bind fun _ => costs_bind fun _ => costs_bind fun _ => costs_bind fun _ =>
        costs_bind fun _ => hcyc

/-- **A step** returns between 4 and 18 T states and adds them to the cycle counter. -/
theorem step_cost (cpu : I8080) : (step.run cpu).wp fun _ r =>
    (4 ≤ r.1 ∧ r.1 ≤ 18) ∧ r.2.cycles = cpu.cycles + BitVec.ofNat 64 r.1 := by
  cases hack : cpu.acknowledges with
  | true =>
    rw [step_run_of_acknowledges hack, Prog.wp_bind]
    refine Prog.wp_mono (fun es r hr => ?_) (Prog.wp_and (execute_cost cpu.intVector _)
      (execute_frame cpu.intVector cpu.acknowledged))
    obtain ⟨hcost, -, hcycles⟩ := hr
    refine ⟨hcost, ?_⟩
    rw [addCycles, hcycles]
    rfl
  | false =>
    cases hh : cpu.halted with
    | true =>
      rw [step_run_of_halted hack hh]
      exact ⟨⟨Nat.le_refl 4, (by decide : 4 ≤ 18)⟩, rfl⟩
    | false =>
      rw [step_run_of_fetch hack hh, Prog.wp_bind, Prog.wp_perform]
      intro op
      rw [Prog.wp_bind]
      refine Prog.wp_mono (fun es r hr => ?_) (Prog.wp_and (execute_cost op _)
        (execute_frame op (cpu.fetched op)))
      obtain ⟨hcost, -, hcycles⟩ := hr
      refine ⟨hcost, ?_⟩
      rw [addCycles, consumeGrace, hcycles]
      rfl

end I8080

end Umk80
