import Umk80.EiShadow
import Umk80.MachineCycle

/-!
# What the shape of an instruction depends on

The shape of an instruction is its sequence of machine cycles with their status words and
addresses, the data left out. Keys reach a program through `IN 0FAH` only, and there the answer
arrives in the last cycle, so keys change data but never the shape. A request that does not lead
to an acknowledge changes nothing at all.

## Main definitions

* `Shape`, `Machine.shape` — the shape of the next instruction

## Main results

* `I8080.execute_ops` — the bus operations of an opcode depend on memory, not on ports
* `Machine.shape_congr` — the shape depends on the processor and the memory
* `Machine.shape_interrupt` — and not on a request that is not acknowledged
-/

namespace Umk80

open Interaction

/-- Status words and addresses of a sequence of machine cycles. -/
abbrev Shape := List (U8 × U16)

def Cycle.shape (c : Cycle) : U8 × U16 := (c.1, c.2.1)

/-- The status word and address a bus operation shows. -/
def BusOp.shape : BusOp → U8 × U16
  | .read a st => (st, a)
  | .write a _ st => (st, a)
  | .input port => (CYC_INPR, word port port)
  | .output port _ => (CYC_OUTW, word port port)

theorem BusEvent.shape_entry (e : BusEvent) : Cycle.shape (BusEvent.entry e) = e.1.shape := by
  obtain ⟨o, v⟩ := e
  cases o
  all_goals rfl

def BusOp.isInput : BusOp → Bool
  | .input _ => true
  | _ => false

namespace I8080

variable {α : Type} {n : ℕ}

/-! ## Operations -/

/-- Processor code never reads a port. -/
theorem Code.noInput {p : CpuM α} (hp : Code n p) (cpu : I8080) :
    (p.run cpu).wp fun es _ => ∀ e ∈ es, e.1.isInput = false := by
  induction hp generalizing cpu with
  | pure n a => exact fun _ h => absurd h List.not_mem_nil
  | regs n => exact fun _ h => absurd h List.not_mem_nil
  | modifyRegs n g => exact fun _ h => absurd h List.not_mem_nil
  | busRd n a st =>
    intro v e he
    rw [List.mem_singleton.mp he]
    rfl
  | busWr n a v st =>
    intro _ e he
    rw [List.mem_singleton.mp he]
    rfl
  | busOut n port v =>
    intro _ e he
    rw [List.mem_singleton.mp he]
    rfl
  | bind hp hf ihp ihf =>
    rw [StateT.run_bind, Prog.wp_bind]
    refine Prog.wp_mono (fun es r hr => ?_) (ihp cpu)
    refine Prog.wp_mono (fun es' r' hr' e he => ?_) (ihf r.1 r.2)
    rcases List.mem_append.mp he with he | he
    · exact hr e he
    · exact hr' e he

/-- Without reading ports, the callbacks answer from memory. -/
theorem busHandler_memory (o : BusOp) (b b' : Board) (ho : o.isInput = false)
    (h : b.toMemory = b'.toMemory) : (busHandler o b).1 = (busHandler o b').1 ∧
      (busHandler o b).2.toMemory = (busHandler o b').2.toMemory := by
  cases o with
  | read addr st => exact ⟨congrArg (fun mem : Memory => mem.peek addr) h, h⟩
  | write addr val st =>
    refine ⟨rfl, ?_⟩
    simp only [busHandler, Board.toChips_poke, h]
  | input port => exact absurd ho.symm Bool.false_ne_true
  | output port val =>
    obtain ⟨_, _, _, _, hb⟩ := b.toChips.busOut_eq port val
    obtain ⟨_, _, _, _, hb'⟩ := b'.toChips.busOut_eq port val
    refine ⟨rfl, ?_⟩
    simp only [busHandler, hb, hb']
    exact h

/-- Code that reads no port makes the same calls on boards with the same memory. -/
theorem runLog_memory {p : CpuM α} {cpu : I8080}
    (hp : (p.run cpu).wp fun es _ => ∀ e ∈ es, e.1.isInput = false) {b b' : Board}
    (h : b.toMemory = b'.toMemory) :
    (p.run cpu).runLog busHandler b = (p.run cpu).runLog busHandler b' ∧
      ((p.run cpu).run busHandler b).1 = ((p.run cpu).run busHandler b').1 := by
  have hsim (o : BusOp) (b b' : Board) := busHandler_memory o b b'
  exact ⟨Prog.runLog_sim_of_wp (R := fun b b' : Board => b.toMemory = b'.toMemory) hsim hp h,
    (Prog.run_sim_of_wp (R := fun b b' : Board => b.toMemory = b'.toMemory) hsim hp h).1⟩

/-- What IN does once it has its port number. -/
theorem runLog_in (port : U8) (cpu : I8080) (b : Board) :
    (((do
      let v ← busIn port
      modifyRegs fun r => { r with a := v }
      return 10 : CpuM ℕ).run cpu).runLog busHandler b).map Sigma.fst = [.input port] := rfl

/-- **The operations of an opcode** are decided by the processor and the memory: the one opcode
that reads a port does so last. -/
theorem execute_ops (op : U8) (cpu : I8080) {b b' : Board} (h : b.toMemory = b'.toMemory) :
    (((execute op).run cpu).runLog busHandler b).map Sigma.fst =
      (((execute op).run cpu).runLog busHandler b').map Sigma.fst := by
  by_cases hdi : op = 0xF3
  · rw [hdi]; rfl
  by_cases hei : op = 0xFB
  · rw [hei]; rfl
  by_cases hhlt : op = 0x76
  · rw [hhlt]; rfl
  by_cases hin : op = 0xDB
  · obtain ⟨hlog, hrun⟩ := runLog_memory (Code.fetch8.noInput cpu) h
    rw [hin, execute_in, StateT.run_bind, Prog.runLog_bind, Prog.runLog_bind, hlog, hrun,
      List.map_append, List.map_append]
    rw [runLog_in, runLog_in]
  · rw [(runLog_memory ((execute_code hdi hei hhlt hin).noInput cpu) h).1]

/-- The operations of a step. -/
theorem step_ops (cpu : I8080) {b b' : Board} (h : b.toMemory = b'.toMemory) :
    ((step.run cpu).runLog busHandler b).map Sigma.fst =
      ((step.run cpu).runLog busHandler b').map Sigma.fst := by
  cases hack : cpu.acknowledges with
  | true =>
    rw [step_run_of_acknowledges hack]
    simp only [Prog.runLog_bind, Prog.runLog_pure, List.append_nil]
    exact execute_ops cpu.intVector cpu.acknowledged h
  | false =>
    cases hh : cpu.halted with
    | true =>
      rw [step_run_of_halted hack hh]
      rfl
    | false =>
      have hop : (busHandler (.read cpu.pc CYC_FETCH) b).1 =
          (busHandler (.read cpu.pc CYC_FETCH) b').1 := (busHandler_memory _ b b' rfl h).1
      rw [step_run_of_fetch hack hh]
      simp only [Prog.runLog_bind, Prog.runLog_perform, Prog.run_perform, Prog.runLog_pure,
        List.map_append, List.append_nil, hop]
      exact congrArg _ (execute_ops _ _ h)

/-! ## Requests -/

/-- The processor with another request state. -/
def withInt (cpu : I8080) (pending : Bool) (vector : U8) : I8080 :=
  { cpu with intPending := pending, intVector := vector }

/-- Processor code does not look at the request state. -/
theorem run_withInt_of_code {p : CpuM α} (hp : Code n p) (pending : Bool) (vector : U8)
    (cpu : I8080) : p.run (cpu.withInt pending vector) =
      p.run cpu >>= fun r => pure (r.1, r.2.withInt pending vector) := by
  induction hp generalizing cpu with
  | pure n a => rfl
  | regs n => rfl
  | modifyRegs n g => rfl
  | busRd n a st => rfl
  | busWr n a v st => rfl
  | busOut n port v => rfl
  | bind hp hf ihp ihf =>
    simp only [StateT.run_bind, ihp, ihf, bind_assoc, pure_bind]

theorem execute_run_withInt (op : U8) (pending : Bool) (vector : U8) (cpu : I8080) :
    (execute op).run (cpu.withInt pending vector) =
      (execute op).run cpu >>= fun r => pure (r.1, r.2.withInt pending vector) := by
  by_cases hdi : op = 0xF3
  · rw [hdi]; rfl
  by_cases hei : op = 0xFB
  · rw [hei]; rfl
  by_cases hhlt : op = 0x76
  · rw [hhlt]; rfl
  by_cases hin : op = 0xDB
  · rw [hin]; rfl
  · exact run_withInt_of_code (execute_code hdi hei hhlt hin) pending vector cpu

/-- **A request that is not acknowledged** does not change what a step does on the bus. -/
theorem runLog_step_withInt {σ : Type} (bus : Handler BusOp BusOp.Ans σ) (s : σ) {cpu : I8080}
    {pending : Bool} {vector : U8} (hack : cpu.acknowledges = false)
    (hack' : (cpu.withInt pending vector).acknowledges = false) :
    (step.run (cpu.withInt pending vector)).runLog bus s = (step.run cpu).runLog bus s := by
  cases hh : cpu.halted with
  | true =>
    rw [step_run_of_halted hack hh, step_run_of_halted hack' hh]
    rfl
  | false =>
    have hfetched (op : U8) : (cpu.withInt pending vector).fetched op =
      (cpu.fetched op).withInt pending vector := rfl
    rw [step_run_of_fetch hack hh, step_run_of_fetch hack' hh]
    simp only [hfetched, execute_run_withInt, Prog.runLog_bind, Prog.runLog_pure,
      List.append_nil]
    rfl

end I8080

namespace Machine

/-! ## The shape of the next instruction -/

/-- The shape of the instruction `execOne` will execute. -/
def shape (m : Machine) : Shape := m.execOne.2.cpu.entries.map Cycle.shape

theorem shape_eq (m : Machine) : m.shape = m.cpu.preface.map Cycle.shape ++
    (((I8080.step.run m.cpu).runLog busHandler m.started).map Sigma.fst).map BusOp.shape := by
  rw [shape, m.traceOf_execOne.entries, List.map_append, List.map_map, List.map_map]
  refine congrArg _ (List.map_congr_left fun e _ => ?_)
  exact BusEvent.shape_entry e

theorem length_shape (m : Machine) : m.shape.length = m.execOne.2.cpu.mcCount.toNat := by
  rw [shape, List.length_map]
  exact McTrace.length_entries (m.traceOf_execOne.le_five.trans (by decide))

/-- **The shape depends on the processor and the memory**, not on keys, ports or display. -/
theorem shape_congr {m m' : Machine} (hcpu : m.cpu = m'.cpu)
    (hmem : m.toMemory = m'.toMemory) : m.shape = m'.shape := by
  rw [shape_eq, shape_eq, ← hcpu]
  have h : m.started.toMemory = m'.started.toMemory := hmem
  rw [I8080.step_ops m.cpu h]

theorem shape_congr_arch {m m' : Machine} (h : m.arch = m'.arch) : m.shape = m'.shape :=
  shape_congr (congrArg Arch.cpu h) (congrArg Arch.toMemory h)

/-- **Nor does it depend on a request** that the next step does not acknowledge. -/
theorem shape_interrupt {m : Machine} (hack : m.cpu.acknowledges = false)
    (hack' : m.interrupt.cpu.acknowledges = false) : m.interrupt.shape = m.shape := by
  have hpre : m.interrupt.cpu.preface = m.cpu.preface := by
    rw [I8080.preface, I8080.preface, hack, hack']
    rfl
  rw [shape_eq, shape_eq, hpre]
  have h := I8080.runLog_step_withInt busHandler m.started hack
    (show (m.cpu.withInt true 0xFF).acknowledges = false from hack')
  exact congrArg (fun es : List BusEvent => _ ++ (es.map Sigma.fst).map BusOp.shape) h

end Machine

end Umk80
