import Mathlib.Data.List.OfFn
import Mathlib.Data.List.TakeDrop
import Umk80.I8080Code

/-!
# The machine-cycle trace is the bus activity

The LED panel, machine-cycle stepping and the undo journal all read `mcStatus`, `mcAddr` and
`mcData` as "what happened on the bus". That is a claim about 256 opcodes and a six-entry array
that silently drops what does not fit, so it is proved here once for all of them.

`McTrace.entries` is the trace as a list, `BusEvent.entry` is what one callback should leave in
it, and `Records n p` says that `p` makes at most `n` calls and appends exactly their entries.
Each piece of `Code` records, so every opcode does.

## Main results

* `I8080.execute_records` — every opcode makes at most four bus calls and records them all
* `I8080.step_trace` — on every path, the trace of a step is its list of calls, after the
  acknowledge entry if there is one
* `I8080.trace_eq_calls` — the same for a run of `step` against any bus
-/

namespace Umk80

open Interaction

/-! ## The trace as a list -/

/-- A machine cycle: status word, address and data. -/
abbrev Cycle := U8 × U16 × U8

def McTrace.cycle (t : McTrace) (i : Fin 6) : Cycle := (t.mcStatus i, t.mcAddr i, t.mcData i)

/-- The recorded machine cycles. -/
def McTrace.entries (t : McTrace) : List Cycle := (List.ofFn t.cycle).take t.mcCount.toNat

/-- What a bus call leaves in the trace. -/
def BusEvent.entry : BusEvent → Cycle
  | ⟨.read a st, v⟩ => (st, a, v)
  | ⟨.write a v st, _⟩ => (st, a, v)
  | ⟨.input port, v⟩ => (CYC_INPR, word port port, v)
  | ⟨.output port v, _⟩ => (CYC_OUTW, word port port, v)

namespace McTrace

theorem length_entries {t : McTrace} (h : t.mcCount.toNat ≤ 6) :
    t.entries.length = t.mcCount.toNat := by
  simp [entries, h]

theorem entries_of_mcCount_eq_zero {t : McTrace} (h : t.mcCount = 0) : t.entries = [] := by
  simp [entries, h]

theorem mcCount_log {t : McTrace} (h : t.mcCount.toNat < 6) (st : U8) (a : U16) (d : U8) :
    (t.log st a d).mcCount.toNat = t.mcCount.toNat + 1 := by
  simp only [log, h, dite_true]
  exact toNat_succ (by omega)

theorem cycle_log {t : McTrace} (h : t.mcCount.toNat < 6) (st : U8) (a : U16) (d : U8) :
    (t.log st a d).cycle = Function.update t.cycle ⟨t.mcCount.toNat, h⟩ (st, a, d) := by
  funext i
  by_cases hi : i = ⟨t.mcCount.toNat, h⟩
  · simp [log, h, cycle, hi]
  · simp [log, h, cycle, Function.update_of_ne hi]

/-- **A logged cycle is appended**, as long as there is room. -/
theorem entries_log {t : McTrace} (h : t.mcCount.toNat < 6) (st : U8) (a : U16) (d : U8) :
    (t.log st a d).entries = t.entries ++ [(st, a, d)] := by
  have hlen : (List.ofFn (t.log st a d).cycle).length = 6 := List.length_ofFn
  rw [entries, mcCount_log h, List.take_succ_eq_append_getElem (by omega), List.getElem_ofFn,
    cycle_log h, Function.update_self]
  congr 1
  refine List.ext_getElem (by simp [entries]) fun i h₁ h₂ => ?_
  have hi : i < t.mcCount.toNat := by
    simp only [List.length_take] at h₁
    omega
  simp only [entries, List.getElem_take, List.getElem_ofFn]
  rw [Function.update_of_ne (by simp only [ne_eq, Fin.mk.injEq]; omega)]

end McTrace

namespace I8080

variable {α β : Type} {n : ℕ}

/-! ## Code that records its bus calls -/

/-- On every path `p` makes at most `n` bus calls, and if the trace has room for `n` more cycles
it appends exactly the entries of the calls made. -/
def Records (n : ℕ) (p : CpuM α) : Prop :=
  ∀ cpu : I8080, cpu.mcCount.toNat + n ≤ 6 → (p.run cpu).wp fun es r =>
    es.length ≤ n ∧ r.2.mcCount.toNat = cpu.mcCount.toNat + es.length ∧
      r.2.entries = cpu.entries ++ es.map BusEvent.entry

theorem records_of_state {p : CpuM α} {f : I8080 → α × I8080} (hp : ∀ cpu, p.run cpu = pure (f cpu))
    (hf : ∀ cpu, (f cpu).2.toMcTrace = cpu.toMcTrace) : Records n p := by
  intro cpu _
  rw [hp, Prog.wp_pure, hf]
  simp

/-- A bus call followed by logging its entry. -/
theorem records_call {p : CpuM α} (o : BusOp) (st : U8) (ad : U16) (d : o.Ans → U8) (g : o.Ans → α)
    (hp : ∀ cpu, p.run cpu = Prog.perform o >>= fun v => pure (g v, cpu.mcLog st ad (d v)))
    (he : ∀ v, BusEvent.entry ⟨o, v⟩ = (st, ad, d v)) : Records (n + 1) p := by
  intro cpu hroom
  have hlt : cpu.mcCount.toNat < 6 := by omega
  rw [hp, Prog.wp_bind, Prog.wp_perform]
  intro v
  refine ⟨by simp, McTrace.mcCount_log hlt _ _ _, ?_⟩
  rw [List.append_nil, List.map_singleton, he]
  exact McTrace.entries_log hlt _ _ _

theorem Records.bind {m : ℕ} {p : CpuM α} {f : α → CpuM β} (hp : Records m p)
    (hf : ∀ a, Records n (f a)) : Records (m + n) (p >>= f) := by
  intro cpu hroom
  rw [StateT.run_bind, Prog.wp_bind]
  refine Prog.wp_mono (fun es r hes => ?_) (hp cpu (by omega))
  obtain ⟨hlen, hcount, hentries⟩ := hes
  refine Prog.wp_mono (fun es' r' hes' => ?_) (hf r.1 r.2 (by omega))
  obtain ⟨hlen', hcount', hentries'⟩ := hes'
  refine ⟨by rw [List.length_append]; omega, by rw [List.length_append]; omega, ?_⟩
  rw [hentries', hentries, List.map_append, List.append_assoc]

theorem Records.mono {m : ℕ} {p : CpuM α} (hp : Records m p) (h : m ≤ n) : Records n p :=
  fun cpu hroom => Prog.wp_mono (fun _ _ hes => ⟨hes.1.trans h, hes.2⟩) (hp cpu (by omega))

theorem records_busIn (port : U8) : Records (n + 1) (busIn port) :=
  records_call (.input port) CYC_INPR (word port port) id id (fun _ => rfl) fun _ => rfl

/-- **Processor code records its bus calls.** -/
theorem Code.records {p : CpuM α} (hp : Code n p) : Records n p := by
  induction hp with
  | pure n a => exact records_of_state (fun cpu => rfl) fun _ => rfl
  | regs n => exact records_of_state (fun cpu => rfl) fun _ => rfl
  | modifyRegs n g => exact records_of_state (fun cpu => rfl) fun _ => rfl
  | busRd n a st => exact records_call (.read a st) st a id id (fun _ => rfl) fun _ => rfl
  | busWr n a v st =>
    exact records_call (.write a v st) st a (fun _ => v) id (fun _ => rfl) fun _ => rfl
  | busOut n port v =>
    exact records_call (.output port v) CYC_OUTW (word port port) (fun _ => v) id (fun _ => rfl)
      fun _ => rfl
  | bind hp hf ihp ihf => exact ihp.bind ihf

/-- **Every opcode records its bus calls**, of which there are at most four. -/
theorem execute_records (op : U8) : Records 4 (execute op) := by
  by_cases hdi : op = 0xF3
  · exact hdi ▸ records_of_state (fun _ => rfl) fun _ => rfl
  by_cases hei : op = 0xFB
  · exact hei ▸ records_of_state (fun _ => rfl) fun _ => rfl
  by_cases hhlt : op = 0x76
  · exact hhlt ▸ records_of_state (fun _ => rfl) fun _ => rfl
  by_cases hin : op = 0xDB
  · rw [hin, execute_in]
    exact Code.fetch8.records.bind (n := 3) fun _ => (records_busIn _).bind (n := 2) fun _ =>
      (Code.modifyRegs_bind fun _ => .pure 2 _).records
  · exact (execute_code hdi hei hhlt hin).records

/-! ## One step -/

/-- The machine cycle a step records before it makes any bus call. -/
def preface (cpu : I8080) : List Cycle :=
  if cpu.acknowledges then
    [(if cpu.halted then CYC_INTA_HALT else CYC_INTA, cpu.pc, cpu.intVector)]
  else if cpu.halted then [(CYC_HALTA, cpu.pc, 0x00)]
  else []

@[simp] theorem entries_addCycles (cpu : I8080) (cyc : ℕ) :
    (cpu.addCycles cyc).entries = cpu.entries := rfl

@[simp] theorem mcCount_addCycles (cpu : I8080) (cyc : ℕ) :
    (cpu.addCycles cyc).mcCount = cpu.mcCount := rfl

@[simp] theorem toMcTrace_consumeGrace (cpu : I8080) (d : U8) :
    (cpu.consumeGrace d).toMcTrace = cpu.toMcTrace := rfl

/-- The trace of a single logged cycle, from an empty trace. -/
theorem entries_log_clear (t : McTrace) (st : U8) (a : U16) (d : U8) :
    (McTrace.log { t with mcCount := 0 } st a d).entries = [(st, a, d)] := by
  rw [McTrace.entries_log (show (0 : U8).toNat < 6 by decide),
    McTrace.entries_of_mcCount_eq_zero rfl, List.nil_append]

theorem mcCount_log_clear (t : McTrace) (st : U8) (a : U16) (d : U8) :
    (McTrace.log { t with mcCount := 0 } st a d).mcCount.toNat = 1 :=
  McTrace.mcCount_log (show (0 : U8).toNat < 6 by decide) _ _ _

theorem preface_of_acknowledges {cpu : I8080} (h : cpu.acknowledges = true) :
    cpu.preface = [(if cpu.halted then CYC_INTA_HALT else CYC_INTA, cpu.pc, cpu.intVector)] := by
  simp [preface, h]

theorem preface_of_halted {cpu : I8080} (h : cpu.acknowledges = false) (hh : cpu.halted = true) :
    cpu.preface = [(CYC_HALTA, cpu.pc, 0x00)] := by
  simp [preface, h, hh]

theorem preface_of_fetch {cpu : I8080} (h : cpu.acknowledges = false) (hh : cpu.halted = false) :
    cpu.preface = [] := by
  simp [preface, h, hh]

/-- What the trace of a step says: it holds the preface and then the calls, one to five cycles
in all; an idle cycle makes no call, and an instruction starts with the fetch at the old `pc`. -/
structure TraceOf (cpu : I8080) (calls : List BusEvent) (cpu' : I8080) : Prop where
  entries : cpu'.entries = cpu.preface ++ calls.map BusEvent.entry
  mcCount : cpu'.mcCount.toNat = cpu.preface.length + calls.length
  pos : 1 ≤ cpu'.mcCount.toNat
  le_five : cpu'.mcCount.toNat ≤ 5
  idle : cpu.acknowledges = false → cpu.halted = true → calls = []
  fetch : cpu.acknowledges = false → cpu.halted = false →
    ∃ op rest, calls = ⟨.read cpu.pc CYC_FETCH, op⟩ :: rest

/-- **The trace of a step**, on every path. -/
theorem step_trace (cpu : I8080) : (step.run cpu).wp fun calls r => TraceOf cpu calls r.2 := by
  cases hack : cpu.acknowledges with
  | true =>
    rw [step_run_of_acknowledges hack, Prog.wp_bind]
    have hcount : cpu.acknowledged.mcCount.toNat = 1 := mcCount_log_clear _ _ _ _
    have hentries : cpu.acknowledged.entries = cpu.preface := by
      rw [preface_of_acknowledges hack]
      exact entries_log_clear _ _ _ _
    refine Prog.wp_mono (fun es r hes => ?_)
      (execute_records cpu.intVector cpu.acknowledged (by omega))
    obtain ⟨hlen, hmc, hes⟩ := hes
    rw [Prog.wp_pure, List.append_nil]
    refine ⟨?_, ?_, ?_, ?_, by simp [hack], by simp [hack]⟩
    · rw [entries_addCycles, hes, hentries]
    · rw [mcCount_addCycles, hmc, hcount, preface_of_acknowledges hack, List.length_singleton]
    · rw [mcCount_addCycles]; omega
    · rw [mcCount_addCycles]; omega
  | false =>
    cases hh : cpu.halted with
    | true =>
      rw [step_run_of_halted hack hh, Prog.wp_pure]
      have hcount : cpu.idled.mcCount.toNat = 1 := mcCount_log_clear _ _ _ _
      have hentries : cpu.idled.entries = [(CYC_HALTA, cpu.pc, 0x00)] := entries_log_clear _ _ _ _
      have hpre := preface_of_halted hack hh
      exact ⟨by simp [hentries, hpre], by simp [hcount, hpre], hcount.ge,
        hcount.trans_le (by decide), fun _ _ => rfl, by simp [hh]⟩
    | false =>
      rw [step_run_of_fetch hack hh, Prog.wp_bind, Prog.wp_perform]
      intro op
      rw [Prog.wp_bind]
      have hcount : (cpu.fetched op).mcCount.toNat = 1 := mcCount_log_clear _ _ _ _
      have hentries : (cpu.fetched op).entries = [(CYC_FETCH, cpu.pc, op)] :=
        entries_log_clear _ _ _ _
      refine Prog.wp_mono (fun es r hes => ?_) (execute_records op (cpu.fetched op) (by omega))
      obtain ⟨hlen, hmc, hes⟩ := hes
      rw [Prog.wp_pure, List.append_nil, List.singleton_append]
      have hpre := preface_of_fetch hack hh
      refine ⟨?_, ?_, ?_, ?_, by simp [hh], fun _ _ => ⟨op, es, rfl⟩⟩
      · rw [entries_addCycles, toMcTrace_consumeGrace, hes, hentries, hpre]
        rfl
      · rw [mcCount_addCycles, toMcTrace_consumeGrace, hmc, hcount, hpre, List.length_cons]
        simp [Nat.add_comm]
      · rw [mcCount_addCycles, toMcTrace_consumeGrace]; omega
      · rw [mcCount_addCycles, toMcTrace_consumeGrace]; omega

/-- **Trace fidelity.** Whatever is on the bus, the trace a step leaves is the list of the bus
calls it made, in order, after the acknowledge or halt entry if there is one; it has one to five
entries, so the six-entry limit drops nothing. -/
theorem trace_eq_calls {σ : Type} (bus : Handler BusOp BusOp.Ans σ) (s : σ) (cpu : I8080) :
    TraceOf cpu ((step.run cpu).runLog bus s) ((step.run cpu).run bus s).1.2 :=
  Prog.wp_run bus (step_trace cpu) s

end I8080

end Umk80
