import Umk80.I8080Step
import Umk80.Lib.Runs

/-!
# Interrupt bookkeeping and the halted processor

A run is any sequence of steps, interrupt requests and resets, on any bus. `act_step_intState` says
what a step does to the interrupt state, and both promises follow from it.

Requests are a resource: a request stores a unit, an acknowledge consumes it. Between two
acknowledges something must have set INTE again, and only EI does.

A halted processor waits with the grace counter at 0, so nothing can keep a request from waking it.
The counter is why: HLT could be reached with the grace of an EI still armed, but the step that
executes HLT is the grace instruction and consumes it.

## Main definitions

* `I8080.Input`, `I8080.reach` — runs with resets
* `I8080.InterruptBookkeeping`, `I8080.HaltWakes` — the two promises, over a run

## Main results

* `I8080.interruptBookkeeping`, `I8080.haltWakes` — every run keeps them
-/

namespace Umk80

open Interaction Runs

namespace I8080

/-! ## Runs -/

/-- What can happen to the processor: a step, a request, or a reset. -/
inductive Input
  | act (a : Action)
  | reset
deriving DecidableEq

def Input.isRequest : Input → Bool
  | .act (.request _) => true
  | _ => false

section Runs

variable {σ : Type} (bus : Handler BusOp BusOp.Ans σ) {x : I8080 × σ}

def feed (x : I8080 × σ) : Input → I8080 × σ
  | .act a => act bus x a
  | .reset => (I8080.reset, x.2)

/-- The state after a run from reset. -/
def reach (s : σ) (is : List Input) : I8080 × σ := run (feed bus) (I8080.reset, s) is

theorem reach_append (s : σ) (is is' : List Input) :
    reach bus s (is ++ is') = run (feed bus) (reach bus s is) is' := run_append _ _ _ _

/-- The input is a step, and the step acknowledges a request. -/
def isAcknowledge (x : I8080 × σ) (i : Input) : Bool := i = .act .step && x.1.acknowledges

/-! ## What a step does to the interrupt state -/

theorem acknowledges_iff {cpu : I8080} : cpu.acknowledges = true ↔
    cpu.intPending = true ∧ cpu.inte = true ∧ cpu.intDelay = 0 := by
  simp [acknowledges, and_assoc]

theorem executed_of_acknowledges (h : x.1.acknowledges = true) :
    executed bus x = some x.1.intVector := if_pos h

theorem executed_of_halted (h : x.1.acknowledges = false) (hh : x.1.halted = true) :
    executed bus x = none := by
  rw [executed, if_neg (ne_true_of_eq_false h), if_pos hh]

theorem executed_of_fetches (h : Fetches x) : executed bus x = some (opcodeAt bus x) := by
  rw [executed, if_neg (ne_true_of_eq_false h.1), if_neg (ne_true_of_eq_false h.2)]

theorem executesEi_of_executed (h : executed bus x = some 0xFB) : ExecutesEi bus x := by
  cases hack : x.1.acknowledges with
  | true =>
    rw [executed_of_acknowledges bus hack] at h
    exact Or.inr ⟨hack, Option.some.inj h⟩
  | false =>
    cases hh : x.1.halted with
    | true =>
      rw [executed_of_halted bus hack hh] at h
      cases h
    | false =>
      rw [executed_of_fetches bus ⟨hack, hh⟩] at h
      exact Or.inl ⟨⟨hack, hh⟩, Option.some.inj h⟩

/-- The interrupt state in which the opcode of a step runs. -/
def entryState (cpu : I8080) : IntState :=
  if cpu.acknowledges then cpu.acknowledged.toIntState else cpu.toIntState

/-- The grace consumed after it; an acknowledge consumes none. -/
def graceBefore (cpu : I8080) : U8 := if cpu.acknowledges then 0 else cpu.intDelay

/-- **What a step does to the interrupt state.** -/
theorem act_step_intState (x : I8080 × σ) : (act bus x .step).1.toIntState =
    (executed bus x).elim x.1.toIntState fun op =>
      (intStateAfter op (entryState x.1)).consumeGrace (graceBefore x.1) := by
  cases hack : x.1.acknowledges with
  | true =>
    rw [executed_of_acknowledges bus hack, intState_step_of_acknowledges bus hack, entryState,
      graceBefore, if_pos hack, if_pos hack]
    rfl
  | false =>
    have hack' := ne_true_of_eq_false hack
    cases hh : x.1.halted with
    | true =>
      rw [executed_of_halted bus hack hh]
      exact intState_step_of_halted bus hack hh
    | false =>
      rw [executed_of_fetches bus ⟨hack, hh⟩, intState_step_of_fetches bus ⟨hack, hh⟩, entryState,
        graceBefore, if_neg hack', if_neg hack']
      rfl

/-- What an opcode and the grace after it do to a field that only EI, DI and HLT may change. -/
theorem inte_after (op : U8) (i : IntState) (d : U8) :
    ((intStateAfter op i).consumeGrace d).inte =
      if op = 0xF3 then false else if op = 0xFB then true else i.inte := by
  unfold intStateAfter IntState.consumeGrace
  split_ifs
  all_goals rfl

theorem intPending_after (op : U8) (i : IntState) (d : U8) :
    ((intStateAfter op i).consumeGrace d).intPending = i.intPending ∧
      ((intStateAfter op i).consumeGrace d).intVector = i.intVector := by
  unfold intStateAfter IntState.consumeGrace
  split_ifs
  all_goals exact ⟨rfl, rfl⟩

theorem halted_after (op : U8) (i : IntState) (d : U8) :
    ((intStateAfter op i).consumeGrace d).halted = (i.halted || op == 0x76) := by
  unfold intStateAfter IntState.consumeGrace
  split_ifs
  all_goals simp_all

/-- Every opcode of a step runs with the processor awake. -/
theorem halted_entryState (h : (executed bus x).isSome) : (entryState x.1).halted = false := by
  cases hack : x.1.acknowledges with
  | true =>
    rw [entryState, if_pos hack]
    rfl
  | false =>
    rw [entryState, if_neg (ne_true_of_eq_false hack)]
    cases hh : x.1.halted with
    | true =>
      rw [executed_of_halted bus hack hh] at h
      cases h
    | false => rfl

/-- A step leaves a request pending unless it acknowledges it. -/
theorem intPending_step (x : I8080 × σ) : (act bus x .step).1.intPending =
    (x.1.intPending && !x.1.acknowledges) ∧
      (act bus x .step).1.intVector = x.1.intVector := by
  have hstate := act_step_intState bus x
  cases hop : executed bus x with
  | none =>
    have hack : x.1.acknowledges = false := by
      by_contra h
      rw [executed_of_acknowledges bus (Bool.of_not_eq_false h)] at hop
      cases hop
    rw [hop] at hstate
    rw [hack, Bool.not_false, Bool.and_true]
    exact ⟨congrArg IntState.intPending hstate, congrArg IntState.intVector hstate⟩
  | some op =>
    rw [hop, Option.elim_some] at hstate
    obtain ⟨hpending, hvector⟩ := intPending_after op (entryState x.1) (graceBefore x.1)
    rw [← hstate, entryState] at hpending hvector
    change (act bus x .step).1.intPending = _ at hpending
    change (act bus x .step).1.intVector = _ at hvector
    rw [hpending, hvector]
    split
    · next h =>
      rw [h, Bool.not_true, Bool.and_false]
      exact ⟨rfl, rfl⟩
    · next h =>
      rw [Bool.of_not_eq_true h, Bool.not_false, Bool.and_true]
      exact ⟨rfl, rfl⟩

/-- INTE is set after a step only if the step executed EI, or kept a set INTE. -/
theorem inte_step (h : (act bus x .step).1.inte = true) :
    ExecutesEi bus x ∨ x.1.inte = true ∧ x.1.acknowledges = false := by
  have hstate := act_step_intState bus x
  cases hop : executed bus x with
  | none =>
    refine Or.inr ⟨?_, ?_⟩
    · rw [hop] at hstate
      rw [← h]
      exact (congrArg IntState.inte hstate).symm
    · by_contra hack
      rw [executed_of_acknowledges bus (Bool.of_not_eq_false hack)] at hop
      cases hop
  | some op =>
    by_cases hei : op = 0xFB
    · exact Or.inl (executesEi_of_executed bus (by rw [hop, hei]))
    · rw [hop, Option.elim_some] at hstate
      have hinte := inte_after op (entryState x.1) (graceBefore x.1)
      rw [← hstate, if_neg hei] at hinte
      change (act bus x .step).1.inte = _ at hinte
      rw [h] at hinte
      have hentry : (entryState x.1).inte = true := by
        split at hinte
        · cases hinte
        · exact hinte.symm
      rw [entryState] at hentry
      split at hentry
      · cases hentry
      · next hack => exact Or.inr ⟨hentry, Bool.of_not_eq_true hack⟩

/-! ## Bookkeeping -/

/-- What holds of requests and acknowledges over a run. -/
structure InterruptBookkeeping (s : σ) (is : List Input) : Prop where
  /-- There are no more acknowledges than requests. -/
  acknowledges_le : countAlong (feed bus) isAcknowledge (I8080.reset, s) is ≤
    is.countP Input.isRequest
  /-- A request is pending until it is acknowledged or the processor is reset, and it is the last
  one raised. -/
  stays : ∀ pre v mid post, is = pre ++ .act (.request v) :: (mid ++ post) → .reset ∉ mid →
    (∀ p q, mid = p ++ .act .step :: q →
      (reach bus s (pre ++ .act (.request v) :: p)).1.acknowledges = false) →
    (reach bus s (pre ++ .act (.request v) :: mid)).1.intPending = true ∧
      ((∀ i ∈ mid, i.isRequest = false) →
        (reach bus s (pre ++ .act (.request v) :: mid)).1.intVector = v)
  /-- An acknowledge needs INTE, and clears it and the request before the opcode runs. -/
  clears : ∀ pre post, is = pre ++ .act .step :: post →
    (reach bus s pre).1.acknowledges = true →
    (reach bus s pre).1.inte = true ∧ (reach bus s pre).1.intPending = true ∧
      (reach bus s pre).1.acknowledged.inte = false ∧
      (reach bus s pre).1.acknowledged.intPending = false ∧
      step.run (reach bus s pre).1 =
        (execute (reach bus s pre).1.intVector).run (reach bus s pre).1.acknowledged >>=
          fun r => pure (r.1, r.2.addCycles r.1)
  /-- From an acknowledge to the next, an EI is executed and a request is raised. -/
  between : ∀ pre mid post, is = pre ++ .act .step :: (mid ++ .act .step :: post) →
    (reach bus s pre).1.acknowledges = true →
    (reach bus s (pre ++ .act .step :: mid)).1.acknowledges = true →
    (∃ p q, .act .step :: mid = p ++ .act .step :: q ∧ ExecutesEi bus (reach bus s (pre ++ p))) ∧
      ∃ v, .act (.request v) ∈ mid

/-- A request stores a unit, an acknowledge consumes it. -/
theorem acknowledge_potential (x : I8080 × σ) (i : Input) :
    (isAcknowledge x i).toNat + (feed bus x i).1.intPending.toNat ≤
      i.isRequest.toNat + x.1.intPending.toNat := by
  cases i with
  | reset => exact Nat.zero_le _
  | act a =>
    cases a with
    | request v => exact Nat.le_add_right 1 _
    | step =>
      change (isAcknowledge x (.act .step)).toNat + (act bus x .step).1.intPending.toNat ≤ 0 + _
      rw [(intPending_step bus x).1, isAcknowledge, decide_eq_true rfl, Bool.true_and]
      cases hack : x.1.acknowledges with
      | true =>
        rw [(acknowledges_iff.mp hack).1]
        exact Nat.le_refl _
      | false =>
        rw [Bool.not_false, Bool.and_true]
        exact Nat.le_refl _

theorem countAlong_isRequest (x : I8080 × σ) (is : List Input) :
    countAlong (feed bus) (fun _ i => i.isRequest) x is = is.countP Input.isRequest := by
  induction is generalizing x with
  | nil => rfl
  | cons i is ih =>
    rw [countAlong, ih, List.countP_cons, Nat.add_comm]
    cases i.isRequest
    all_goals rfl

theorem acknowledges_le (s : σ) (is : List Input) :
    countAlong (feed bus) isAcknowledge (I8080.reset, s) is ≤ is.countP Input.isRequest := by
  have h := countAlong_add_le (feed bus) (fun _ i => i.isRequest) (·.1.intPending.toNat)
    (acknowledge_potential bus) (I8080.reset, s) is
  rw [countAlong_isRequest] at h
  exact (Nat.le_add_right _ _).trans h

/-- A pending request stays pending through a run without resets and acknowledges. -/
theorem pending_run {mid : List Input} (hx : x.1.intPending = true) (hreset : .reset ∉ mid)
    (hack : ∀ p q, mid = p ++ .act .step :: q → (run (feed bus) x p).1.acknowledges = false) :
    (run (feed bus) x mid).1.intPending = true ∧
      ((∀ i ∈ mid, i.isRequest = false) →
        (run (feed bus) x mid).1.intVector = x.1.intVector) := by
  induction mid generalizing x with
  | nil => exact ⟨hx, fun _ => rfl⟩
  | cons i mid ih =>
    have hreset' : .reset ∉ mid := fun h => hreset (List.mem_cons_of_mem _ h)
    have hack' : ∀ p q, mid = p ++ .act .step :: q →
        (run (feed bus) (feed bus x i) p).1.acknowledges = false :=
      fun p q h => hack (i :: p) q (congrArg _ h)
    cases i with
    | reset => exact absurd List.mem_cons_self hreset
    | act a =>
      cases a with
      | request v =>
        have ih := ih (x := feed bus x (.act (.request v))) rfl hreset' hack'
        exact ⟨ih.1, fun h => absurd (h _ List.mem_cons_self) (Bool.false_ne_true ∘ Eq.symm)⟩
      | step =>
        obtain ⟨hpending, hvector⟩ := intPending_step bus x
        have hnone : x.1.acknowledges = false := hack [] mid rfl
        rw [hx, hnone] at hpending
        have ih := ih (x := feed bus x (.act .step)) hpending hreset' hack'
        refine ⟨ih.1, fun h => ?_⟩
        rw [← hvector]
        exact ih.2 fun i hi => h i (List.mem_cons_of_mem _ hi)

/-- Only EI sets INTE. -/
theorem executesEi_of_turn {i : Input} (h : ¬ x.1.inte = true)
    (h' : (feed bus x i).1.inte = true) : i = .act .step ∧ ExecutesEi bus x := by
  cases i with
  | reset => cases h'
  | act a =>
    cases a with
    | request v => exact absurd h' h
    | step =>
      rcases inte_step bus h' with hei | hinte
      · exact ⟨rfl, hei⟩
      · exact absurd hinte.1 h

/-- Only a request makes a request pending. -/
theorem request_of_turn {i : Input} (h : ¬ x.1.intPending = true)
    (h' : (feed bus x i).1.intPending = true) : ∃ v, i = .act (.request v) := by
  cases i with
  | reset => cases h'
  | act a =>
    cases a with
    | request v => exact ⟨v, rfl⟩
    | step =>
      have hpending := (intPending_step bus x).1
      rw [show (act bus x .step).1.intPending = true from h'] at hpending
      exact absurd (Bool.and_eq_true_iff.mp hpending.symm).1 h

/-- From an acknowledge to the next. -/
theorem between_acknowledges {mid : List Input} (hack : x.1.acknowledges = true)
    (hack' : (run (feed bus) x (.act .step :: mid)).1.acknowledges = true) :
    (∃ p q, .act .step :: mid = p ++ .act .step :: q ∧ ExecutesEi bus (run (feed bus) x p)) ∧
      ∃ v, .act (.request v) ∈ mid := by
  obtain ⟨hpending', hinte', -⟩ := acknowledges_iff.mp hack'
  constructor
  · by_cases hinte : (act bus x .step).1.inte = true
    · rcases inte_step bus hinte with hei | ⟨-, hack''⟩
      · exact ⟨[], mid, rfl, hei⟩
      · exact absurd hack (ne_true_of_eq_false hack'')
    · obtain ⟨p, i, q, rfl, hp, hi⟩ := exists_turn (feed bus)
        (P := fun y => y.1.inte = true) hinte hinte'
      obtain ⟨rfl, hei⟩ := executesEi_of_turn bus hp hi
      exact ⟨.act .step :: p, q, rfl, hei⟩
  · have hpending : ¬ (act bus x .step).1.intPending = true := by
      rw [(intPending_step bus x).1, hack, Bool.not_true, Bool.and_false]
      exact Bool.false_ne_true
    obtain ⟨p, i, q, rfl, hp, hi⟩ := exists_turn (feed bus)
      (P := fun y => y.1.intPending = true) hpending hpending'
    obtain ⟨v, rfl⟩ := request_of_turn bus hp hi
    exact ⟨v, List.mem_append_right _ List.mem_cons_self⟩

/-- **Interrupt bookkeeping**, for every run of steps, requests and resets on every bus. -/
theorem interruptBookkeeping (s : σ) (is : List Input) : InterruptBookkeeping bus s is := by
  refine ⟨acknowledges_le bus s is, ?_, ?_, ?_⟩
  · intro pre v mid post _ hreset hack
    have h := pending_run bus (x := run (feed bus) (reach bus s pre) [.act (.request v)]) rfl hreset
      fun p q hmid => by
        have := hack p q hmid
        rwa [reach_append] at this
    rw [reach_append]
    exact h
  · intro pre post _ hack
    obtain ⟨hpending, hinte, -⟩ := acknowledges_iff.mp hack
    exact ⟨hinte, hpending, rfl, rfl, step_run_of_acknowledges hack⟩
  · intro pre mid post _ hack hack'
    rw [reach_append] at hack'
    obtain ⟨⟨p, q, hsplit, hei⟩, hrequest⟩ := between_acknowledges bus hack hack'
    refine ⟨⟨p, q, hsplit, ?_⟩, hrequest⟩
    rw [reach_append]
    exact hei

/-! ## HLT -/

/-- The grace counter is 0 or 1, it is 1 only with interrupts enabled, and 0 while halted. -/
def GraceInv (i : IntState) : Prop :=
  i.intDelay ≤ 1 ∧ (i.intDelay = 1 → i.inte = true) ∧ (i.halted = true → i.intDelay = 0)

theorem graceInv_reset : GraceInv I8080.reset.toIntState := by
  unfold GraceInv
  decide

theorem eq_zero_or_one {d : U8} (h : d ≤ 1) : d = 0 ∨ d = 1 := by
  bv_omega

/-- An opcode that runs awake keeps the invariant, once its grace is consumed. -/
theorem graceInv_after {op : U8} {i : IntState} (h : GraceInv i) (hh : i.halted = false) {d : U8}
    (hd : d = i.intDelay ∨ d = 0 ∧ i.intDelay = 0) :
    GraceInv ((intStateAfter op i).consumeGrace d) := by
  obtain ⟨hle, hinte, -⟩ := h
  have hdelay : i.intDelay = 0 ∨ i.intDelay = 1 := eq_zero_or_one hle
  obtain rfl : d = i.intDelay := by
    rcases hd with hd | ⟨hd, hd'⟩
    · exact hd
    · rw [hd, hd']
  rcases hdelay with hzero | hone
  · rw [hzero]
    unfold intStateAfter IntState.consumeGrace GraceInv
    split_ifs
    all_goals simp_all
  · have hinte := hinte hone
    rw [hone]
    unfold intStateAfter IntState.consumeGrace GraceInv
    split_ifs
    all_goals simp_all

theorem graceInv_feed (x : I8080 × σ) (i : Input) (h : GraceInv x.1.toIntState) :
    GraceInv (feed bus x i).1.toIntState := by
  cases i with
  | reset => exact graceInv_reset
  | act a =>
    cases a with
    | request v => exact h
    | step =>
      change GraceInv (act bus x .step).1.toIntState
      rw [act_step_intState bus x]
      cases hop : executed bus x with
      | none => exact h
      | some op =>
        have hawake := halted_entryState bus (Option.isSome_iff_exists.mpr ⟨op, hop⟩)
        rw [Option.elim_some]
        refine graceInv_after ?_ hawake ?_
        · rw [entryState]
          split
          · next hack =>
            have hzero := (acknowledges_iff.mp hack).2.2
            refine ⟨h.1, fun hone => ?_, nofun⟩
            change x.1.intDelay = 1 at hone
            rw [hzero] at hone
            cases hone
          · exact h
        · rw [graceBefore, entryState]
          split
          · next hack => exact Or.inr ⟨rfl, (acknowledges_iff.mp hack).2.2⟩
          · exact Or.inl rfl

theorem graceInv_reach (s : σ) (is : List Input) : GraceInv (reach bus s is).1.toIntState :=
  run_inv (feed bus) (P := fun x => GraceInv x.1.toIntState) (graceInv_feed bus)
    graceInv_reset is

/-- Where the program continues after an opcode of one byte that does not transfer control. -/
def addressAfter (x : I8080 × σ) : U16 := if x.1.acknowledges then x.1.pc else x.1.pc + 1

/-- An RST that is acknowledged pushes the program counter. -/
theorem rst_pushes (hack : x.1.acknowledges = true) (hrst : x.1.intVector &&& 0xC7 = 0xC7) :
    memWrites (stepCalls bus x) = pushWrites x.1.sp x.1.pc := by
  have htable : ∀ op : U8, op &&& 0xC7 = 0xC7 → flow op = .call ∧ opcodeLength op = 1 := by
    decide
  obtain ⟨hflow, hlen⟩ := htable _ hrst
  obtain ⟨es, r, hexec, hcalls, -⟩ := step_of_acknowledges bus hack
  have hpushed := hexec.effect.pushed
  rw [hflow, hlen] at hpushed
  rw [hcalls]
  exact hpushed rfl

/-- HLT goes on to the next address. -/
theorem pc_of_hlt (h : executed bus x = some 0x76) :
    (act bus x .step).1.pc = addressAfter x := by
  cases hack : x.1.acknowledges with
  | true =>
    have hop : x.1.intVector = 0x76 :=
      Option.some.inj (by rw [← executed_of_acknowledges bus hack, h])
    obtain ⟨es, r, hexec, -, hresult⟩ := step_of_acknowledges bus hack
    rw [hop] at hexec
    rw [addressAfter, if_pos hack]
    change (stepResult bus x).2.pc = _
    rw [hresult]
    exact hexec.effect.pc rfl
  | false =>
    cases hh : x.1.halted with
    | true =>
      rw [executed_of_halted bus hack hh] at h
      cases h
    | false =>
      have hop : opcodeAt bus x = 0x76 :=
        Option.some.inj (by rw [← executed_of_fetches bus ⟨hack, hh⟩, h])
      obtain ⟨es, r, hexec, -, hresult⟩ := step_of_fetches bus ⟨hack, hh⟩
      rw [hop] at hexec
      rw [addressAfter, if_neg (ne_true_of_eq_false hack)]
      change (stepResult bus x).2.pc = _
      rw [hresult]
      exact hexec.effect.pc rfl

/-- An idle cycle changes the trace and the cycle counter. -/
theorem act_step_of_halted (hack : x.1.acknowledges = false) (hh : x.1.halted = true) :
    act bus x .step = (x.1.idled, x.2) := by
  rw [act, step_run_of_halted hack hh]
  rfl

/-- Not a reset, and not a step that runs an opcode. -/
def Idle (x : I8080 × σ) (i : Input) : Prop :=
  i ≠ .reset ∧ (i = .act .step → executed bus x = none)

theorem pc_of_idle {is : List Input} (h : AllAlong (feed bus) (Idle bus) x is) :
    (run (feed bus) x is).1.pc = x.1.pc := by
  induction is generalizing x with
  | nil => rfl
  | cons i is ih =>
    rw [run_cons, ih h.2]
    cases i with
    | reset => exact absurd rfl h.1.1
    | act a =>
      cases a with
      | request v => rfl
      | step =>
        have hnone := h.1.2 rfl
        cases hack : x.1.acknowledges with
        | true =>
          rw [executed_of_acknowledges bus hack] at hnone
          cases hnone
        | false =>
          cases hh : x.1.halted with
          | true => exact congrArg (fun y => y.1.pc) (act_step_of_halted bus hack hh)
          | false =>
            rw [executed_of_fetches bus ⟨hack, hh⟩] at hnone
            cases hnone

/-- Only HLT halts. -/
theorem hlt_of_halted (x : I8080 × σ) (i : Input) (h : (feed bus x i).1.halted = true) :
    (i = .act .step ∧ executed bus x = some 0x76) ∨ Idle bus x i ∧ x.1.halted = true := by
  cases i with
  | reset => cases h
  | act a =>
    cases a with
    | request v => exact Or.inr ⟨⟨nofun, nofun⟩, h⟩
    | step =>
      have hstate := act_step_intState bus x
      cases hop : executed bus x with
      | none =>
        rw [hop] at hstate
        refine Or.inr ⟨⟨nofun, fun _ => hop⟩, ?_⟩
        rw [← h]
        exact (congrArg IntState.halted hstate).symm
      | some op =>
        have hawake := halted_entryState bus (Option.isSome_iff_exists.mpr ⟨op, hop⟩)
        rw [hop, Option.elim_some] at hstate
        have hhalted := halted_after op (entryState x.1) (graceBefore x.1)
        rw [← hstate, hawake, Bool.false_or] at hhalted
        change (act bus x .step).1.halted = _ at hhalted
        rw [show (act bus x .step).1.halted = true from h] at hhalted
        exact Or.inl ⟨rfl, congrArg some (beq_iff_eq.mp hhalted.symm)⟩

/-- A halted processor has executed HLT, no opcode since, and waits at the address after it. -/
theorem exists_hlt (s : σ) (is : List Input) (h : (reach bus s is).1.halted = true) :
    ∃ pre post, is = pre ++ .act .step :: post ∧ executed bus (reach bus s pre) = some 0x76 ∧
      AllAlong (feed bus) (Idle bus) (act bus (reach bus s pre) .step) post ∧
      (reach bus s is).1.pc = addressAfter (reach bus s pre) := by
  obtain ⟨pre, i, post, rfl, ⟨rfl, hhlt⟩, hidle⟩ := exists_source (feed bus)
    (P := fun x => x.1.halted = true) (hlt_of_halted bus) (x := (I8080.reset, s)) nofun h
  refine ⟨pre, post, rfl, hhlt, hidle, ?_⟩
  calc (reach bus s (pre ++ .act .step :: post)).1.pc
      = (act bus (reach bus s pre) .step).1.pc := by
        rw [reach_append]
        exact pc_of_idle bus hidle
    _ = addressAfter (reach bus s pre) := pc_of_hlt bus hhlt

/-- What holds of the halted state after a run. -/
structure HaltWakes (s : σ) (is : List Input) : Prop where
  delay : (reach bus s is).1.intDelay = 0 ∨ (reach bus s is).1.intDelay = 1
  armed : (reach bus s is).1.intDelay = 1 → (reach bus s is).1.inte = true
  halted : (reach bus s is).1.halted = true → (reach bus s is).1.intDelay = 0
  /-- A halted processor waits at the address after the HLT. -/
  waits : (reach bus s is).1.halted = true →
    ∃ pre post, is = pre ++ .act .step :: post ∧ executed bus (reach bus s pre) = some 0x76 ∧
      AllAlong (feed bus) (Idle bus) (act bus (reach bus s pre) .step) post ∧
      (reach bus s is).1.pc = addressAfter (reach bus s pre)
  /-- A request wakes it: the vector runs with the halted state left, and an RST pushes the
  address at which it waits. -/
  wakes : (reach bus s is).1.halted = true → (reach bus s is).1.inte = true →
    (reach bus s is).1.intPending = true →
    (reach bus s is).1.acknowledges = true ∧ (reach bus s is).1.acknowledged.halted = false ∧
      step.run (reach bus s is).1 =
        (execute (reach bus s is).1.intVector).run (reach bus s is).1.acknowledged >>=
          (fun r => pure (r.1, r.2.addCycles r.1)) ∧
      ((reach bus s is).1.intVector &&& 0xC7 = 0xC7 →
        memWrites (stepCalls bus (reach bus s is)) =
          pushWrites (reach bus s is).1.sp (reach bus s is).1.pc)
  /-- Without one, a step makes no bus call; it counts four T states and records HALTA. -/
  idles : (reach bus s is).1.halted = true →
    ¬ ((reach bus s is).1.inte = true ∧ (reach bus s is).1.intPending = true) →
    stepCalls bus (reach bus s is) = [] ∧
      act bus (reach bus s is) .step = ((reach bus s is).1.idled, (reach bus s is).2) ∧
      (reach bus s is).1.idled.toRegs = (reach bus s is).1.toRegs ∧
      (reach bus s is).1.idled.toIntState = (reach bus s is).1.toIntState ∧
      (reach bus s is).1.idled.cycles = (reach bus s is).1.cycles + 4 ∧
      (reach bus s is).1.idled.entries = [(CYC_HALTA, (reach bus s is).1.pc, 0x00)]

/-- **HLT can always be woken**, in every state of every run on every bus. -/
theorem haltWakes (s : σ) (is : List Input) : HaltWakes bus s is := by
  obtain ⟨hle, harmed, hhalted⟩ := graceInv_reach bus s is
  refine ⟨eq_zero_or_one hle, harmed, hhalted, exists_hlt bus s is, ?_, ?_⟩
  · intro hh hinte hpending
    have hack := acknowledges_iff.mpr ⟨hpending, hinte, hhalted hh⟩
    exact ⟨hack, rfl, step_run_of_acknowledges hack, rst_pushes bus hack⟩
  · intro hh hno
    have hack : (reach bus s is).1.acknowledges = false := by
      by_contra h
      obtain ⟨hpending, hinte, -⟩ := acknowledges_iff.mp (Bool.of_not_eq_false h)
      exact hno ⟨hinte, hpending⟩
    exact ⟨(step_of_halted bus hack hh).1, act_step_of_halted bus hack hh, rfl, rfl, rfl,
      entries_log_clear _ _ _ _⟩

end Runs

end I8080

end Umk80
