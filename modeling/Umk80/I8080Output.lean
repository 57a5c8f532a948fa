import Umk80.I8080Step

/-!
# Which instruction writes a port

OUT does, and no other one; it makes its write in its last machine cycle, and it takes 10 T
states. So the bus calls of a step contain at most one output, which is the last of them.

## Main definitions

* `I8080.Quiet` — code that writes no port
* `I8080.OutLast` — bus calls without an output, or those of an OUT

## Main results

* `I8080.quiet_execute` — every opcode but OUT is quiet
* `I8080.outLast_step` — the bus calls of a step
-/

namespace Umk80

open Interaction

def BusOp.isOutput : BusOp → Bool
  | .output _ _ => true
  | _ => false

namespace I8080

variable {α β : Type}

/-! ## Quiet code -/

/-- Code that writes no port. -/
def Quiet (p : CpuM α) : Prop :=
  ∀ cpu : I8080, (p.run cpu).wp fun es _ => ∀ e ∈ es, e.1.isOutput = false

theorem quiet_pure (a : α) : Quiet (pure a : CpuM α) := fun _ _ h => absurd h List.not_mem_nil

theorem quiet_regs : Quiet regs := fun _ _ h => absurd h List.not_mem_nil

theorem quiet_modify (g : I8080 → I8080) : Quiet (modify g : CpuM Unit) :=
  fun _ _ h => absurd h List.not_mem_nil

theorem quiet_modifyRegs (g : Regs → Regs) : Quiet (modifyRegs g) := quiet_modify _

theorem quiet_bind {p : CpuM α} {f : α → CpuM β} (hp : Quiet p) (hf : ∀ a, Quiet (f a)) :
    Quiet (p >>= f) := by
  intro cpu
  rw [StateT.run_bind, Prog.wp_bind]
  refine Prog.wp_mono (fun es r hr => ?_) (hp cpu)
  refine Prog.wp_mono (fun es' r' hr' e he => ?_) (hf r.1 r.2)
  rcases List.mem_append.mp he with he | he
  · exact hr e he
  · exact hr' e he

theorem quiet_ite {c : Prop} [Decidable c] {p q : CpuM α} (hp : Quiet p) (hq : Quiet q) :
    Quiet (if c then p else q) := by
  split
  · exact hp
  · exact hq

theorem quiet_perform {o : BusOp} (h : o.isOutput = false) : Quiet (perform o) := by
  intro cpu v e he
  rw [List.mem_singleton.mp he]
  exact h

theorem quiet_busRd (a : U16) (st : U8) : Quiet (busRd a st) :=
  quiet_bind (quiet_perform rfl) fun _ => quiet_bind (quiet_modify _) fun _ => quiet_pure _

theorem quiet_busWr (a : U16) (v st : U8) : Quiet (busWr a v st) :=
  quiet_bind (quiet_perform rfl) fun _ => quiet_modify _

theorem quiet_busIn (port : U8) : Quiet (busIn port) :=
  quiet_bind (quiet_perform rfl) fun _ => quiet_bind (quiet_modify _) fun _ => quiet_pure _

theorem quiet_fetch8 : Quiet fetch8 :=
  quiet_bind quiet_regs fun _ => quiet_bind (quiet_modifyRegs _) fun _ => quiet_busRd _ _

theorem quiet_fetch16 : Quiet fetch16 :=
  quiet_bind quiet_fetch8 fun _ => quiet_bind quiet_fetch8 fun _ => quiet_pure _

theorem quiet_push16 (v : U16) : Quiet (push16 v) :=
  quiet_bind quiet_regs fun _ => quiet_bind (quiet_busWr _ _ _) fun _ =>
    quiet_bind quiet_regs fun _ => quiet_bind (quiet_busWr _ _ _) fun _ => quiet_modifyRegs _

theorem quiet_pop16 : Quiet pop16 :=
  quiet_bind quiet_regs fun _ => quiet_bind (quiet_busRd _ _) fun _ =>
    quiet_bind quiet_regs fun _ => quiet_bind (quiet_busRd _ _) fun _ =>
      quiet_bind (quiet_modifyRegs _) fun _ => quiet_pure _

theorem quiet_regGet (i : U8) : Quiet (regGet i) := by
  refine quiet_bind quiet_regs fun r => ?_
  split
  all_goals first | exact quiet_pure _ | exact quiet_busRd _ _

theorem quiet_regSet (i v : U8) : Quiet (regSet i v) := by
  unfold regSet
  split
  all_goals first
    | exact quiet_modifyRegs _
    | exact quiet_bind quiet_regs fun _ => quiet_busWr _ _ _

theorem quiet_aluInr (i : U8) : Quiet (aluInr i) :=
  quiet_bind (quiet_regGet i) fun _ => quiet_bind (quiet_modifyRegs _) fun _ => quiet_regSet i _

theorem quiet_aluDcr (i : U8) : Quiet (aluDcr i) :=
  quiet_bind (quiet_regGet i) fun _ => quiet_bind (quiet_modifyRegs _) fun _ => quiet_regSet i _

/-! ## Opcodes -/

theorem quiet_executeBlock (op : U8) (cyc : ℕ) : Quiet (executeBlock op cyc) := by
  unfold executeBlock
  with_reducible repeat' first
    | exact quiet_pure _
    | exact quiet_regs
    | exact quiet_modifyRegs _
    | exact quiet_fetch8
    | exact quiet_fetch16
    | exact quiet_push16 _
    | exact quiet_pop16
    | exact quiet_regGet _
    | exact quiet_regSet _ _
    | exact quiet_aluInr _
    | exact quiet_aluDcr _
    | refine quiet_ite ?_ ?_
    | refine quiet_bind ?_ fun _ => ?_

/-- **Every opcode but OUT is quiet.** -/
theorem quiet_execute {op : U8} (h : op ≠ 0xD3) : Quiet (execute op) := by
  unfold execute
  split
  all_goals first
    | exact absurd rfl h
    | exact quiet_executeBlock _ _
    | with_reducible repeat' first
        | exact quiet_pure _
        | exact quiet_regs
        | exact quiet_modifyRegs _
        | exact quiet_modify _
        | exact quiet_busRd _ _
        | exact quiet_busWr _ _ _
        | exact quiet_busIn _
        | exact quiet_fetch8
        | exact quiet_fetch16
        | exact quiet_push16 _
        | exact quiet_pop16
        | refine quiet_bind ?_ fun _ => ?_

/-- No output, or one at the end of 10 T states. -/
def OutLast (es : List BusEvent) (cyc : ℕ) : Prop :=
  (∀ e ∈ es, e.1.isOutput = false) ∨
    cyc = 10 ∧ ∃ before port val, es = before ++ [⟨.output port val, ()⟩] ∧
      ∀ e ∈ before, e.1.isOutput = false

theorem OutLast.cons {es : List BusEvent} {cyc : ℕ} (h : OutLast es cyc) {e : BusEvent}
    (he : e.1.isOutput = false) : OutLast (e :: es) cyc := by
  rcases h with hquiet | ⟨hcyc, before, port, val, rfl, hquiet⟩
  · exact Or.inl (List.forall_mem_cons.mpr ⟨he, hquiet⟩)
  · exact Or.inr ⟨hcyc, e :: before, port, val, rfl, List.forall_mem_cons.mpr ⟨he, hquiet⟩⟩

theorem outLast_execute (op : U8) (cpu : I8080) :
    ((execute op).run cpu).wp fun es r => OutLast es r.1 := by
  by_cases hop : op = 0xD3
  · subst hop
    intro port v
    refine Or.inr ⟨rfl, [⟨.read cpu.pc CYC_MEMR, port⟩], port, cpu.a, rfl, ?_⟩
    intro e he
    rw [List.mem_singleton.mp he]
    rfl
  · exact Prog.wp_mono (fun es r h => Or.inl h) (quiet_execute hop cpu)

/-- **The bus calls of a step** contain at most one output, that of an OUT, at their end. -/
theorem outLast_step {σ : Type} (bus : Handler BusOp BusOp.Ans σ) (x : I8080 × σ) :
    OutLast (stepCalls bus x) (stepResult bus x).1 := by
  cases hack : x.1.acknowledges with
  | true =>
    obtain ⟨es, r, hout, hcalls, hresult⟩ :=
      wp_of_acknowledges bus hack (outLast_execute x.1.intVector x.1.acknowledged)
    rw [hcalls, hresult]
    exact hout
  | false =>
    cases hh : x.1.halted with
    | true =>
      rw [(step_of_halted bus hack hh).1]
      exact Or.inl fun _ h => absurd h List.not_mem_nil
    | false =>
      obtain ⟨es, r, hout, hcalls, hresult⟩ :=
        wp_of_fetches bus ⟨hack, hh⟩ (outLast_execute (opcodeAt bus x) _)
      rw [hcalls, hresult]
      exact hout.cons rfl

end I8080

end Umk80
