import Mathlib.Data.Fin.Rev
import Umk80.DisplayRuns

/-!
# The display does not influence the machine

A program cannot read what it shows. Two machines that differ in display and panel alone answer
every call alike and stay equal in everything else: the processor sees the board through callbacks
that never look at the display, and the dry run of single-step mode puts it back.

What the displays of the two machines have to do with each other is a parameter. For displays with
nothing in common this is noninterference. For displays that mirror each other it says that the
orientation of the digits is a matter of presentation.

## Main definitions

* `Machine.core` — the machine with display and panel blanked
* `Respects` — a relation of displays that integrating, clearing and setting the persistence keep
* `Display.mirror` — the display seen from behind
* `Machine.session` — a sequence of calls, with what they return

## Main results

* `Machine.alike_call` — one call, for every relation of displays
* `Machine.display_independence` — noninterference, and the mirror
-/

namespace Umk80

open Interaction WhileLoop

/-! ## Relations of displays -/

/-- A relation of displays that the machine keeps. -/
structure Respects (D : Display → Display → Prop) : Prop where
  advance : ∀ {d d'} outA outB t, D d d' → D (d.advance outA outB t) (d'.advance outA outB t)
  clear : ∀ {d d'} now, D d d' → D (d.clearAccumulator now) (d'.clearAccumulator now)
  persistence : ∀ {d d'} tau, D d d' → D (d.setPersistence tau) (d'.setPersistence tau)

variable {D : Display → Display → Prop}

/-- The board with another display. -/
def Board.withDisplay (b : Board) (d : Display) : Board := { b with display := d }

/-- Boards that differ in the display alone. -/
def Board.Alike (D : Display → Display → Prop) (b b' : Board) : Prop :=
  ∃ d, b' = b.withDisplay d ∧ D b.display d

theorem Board.poke_withDisplay (b : Board) (d : Display) (addr : U16) (val : U8) :
    (b.withDisplay d).poke addr val = (b.poke addr val).withDisplay d ∧
      (b.poke addr val).display = b.display := by
  have hdecode : (b.withDisplay d).decode addr = b.decode addr := rfl
  unfold poke
  rw [hdecode]
  cases b.decode addr with
  | none => exact ⟨rfl, rfl⟩
  | some c =>
    cases c with
    | rom i => exact ⟨rfl, rfl⟩
    | ram i => exact ⟨rfl, rfl⟩

/-- An OUT integrates the display up to the write, on some ports, and does not look at it. -/
theorem Board.busOut_withDisplay (hD : Respects D) {b : Board} {d : Display} (hd : D b.display d)
    (port val : U8) : ∃ d', (b.withDisplay d).toChips.busOut port val =
      { b.toChips.busOut port val with display := d' } ∧
        D (b.toChips.busOut port val).display d' := by
  have hadvance := hD.advance b.ppi.outA b.ppi.outB (b.stepStartCycles + OUT_WRITE_OFFSET) hd
  unfold Chips.busOut
  by_cases hA : port = PORT_A
  · rw [if_pos hA, if_pos hA]
    change ∃ d', (if b.ppi.aIsOut then _ else _) = _ ∧ _
    dsimp only [Chips.advanceToWrite, Chips.displayAdvance]
    split
    · exact ⟨_, rfl, hadvance⟩
    · exact ⟨_, rfl, hadvance⟩
  rw [if_neg hA, if_neg hA]
  by_cases hB : port = PORT_B
  · rw [if_pos hB, if_pos hB]
    change ∃ d', (if b.ppi.bIsOut then _ else _) = _ ∧ _
    dsimp only [Chips.advanceToWrite, Chips.displayAdvance]
    split
    · exact ⟨_, rfl, hadvance⟩
    · exact ⟨_, rfl, hadvance⟩
  rw [if_neg hB, if_neg hB]
  by_cases hC : port = PORT_C
  · rw [if_pos hC, if_pos hC]
    exact ⟨d, rfl, hd⟩
  rw [if_neg hC, if_neg hC]
  by_cases hctrl : port = PORT_CTRL
  · rw [if_pos hctrl, if_pos hctrl]
    exact ⟨_, rfl, hadvance⟩
  rw [if_neg hctrl, if_neg hctrl]
  by_cases hdbg : port = PORT_DBG
  · rw [if_pos hdbg, if_pos hdbg]
    exact ⟨d, rfl, hd⟩
  · rw [if_neg hdbg, if_neg hdbg]
    exact ⟨d, rfl, hd⟩

/-- **The callbacks do not look at the display.** -/
theorem busHandler_alike (hD : Respects D) (o : BusOp) (b b' : Board) (h : b.Alike D b') :
    (busHandler o b).1 = (busHandler o b').1 ∧
      (busHandler o b).2.Alike D (busHandler o b').2 := by
  obtain ⟨d, rfl, hd⟩ := h
  cases o with
  | read addr st => exact ⟨rfl, d, rfl, hd⟩
  | write addr val st =>
    obtain ⟨hpoke, hdisplay⟩ := b.poke_withDisplay d addr val
    exact ⟨rfl, d, hpoke, hdisplay ▸ hd⟩
  | input port => exact ⟨rfl, d, rfl, hd⟩
  | output port val =>
    obtain ⟨d', hout, hd'⟩ := Board.busOut_withDisplay hD hd port val
    refine ⟨rfl, d', ?_, hd'⟩
    change { b.withDisplay d with toChips := (b.withDisplay d).toChips.busOut port val } = _
    rw [hout]
    rfl

namespace Machine

/-! ## One call -/

/-- The machine with another display and another panel. -/
def withShown (m : Machine) (d : Display) (p : Panel) : Machine :=
  { m with display := d, panel := p }

/-- Machines that differ in display and panel alone. -/
def Alike (D : Display → Display → Prop) (m m' : Machine) : Prop :=
  ∃ d p, m' = m.withShown d p ∧ D m.display d

variable {m m' : Machine}

/-- The same change to both machines, away from display and panel. -/
theorem Alike.map (h : m.Alike D m') (f : Machine → Machine)
    (hf : ∀ d p, f (m.withShown d p) = (f m).withShown d p)
    (hdisplay : (f m).display = m.display) : (f m).Alike D (f m') := by
  obtain ⟨d, p, rfl, hd⟩ := h
  exact ⟨d, p, hf d p, hdisplay ▸ hd⟩

/-- The machine after a run of the processor. -/
def ended (m : Machine) (r : (ℕ × I8080) × Board) : Machine :=
  { m with toBoard := { r.2 with toChips := r.2.displayAdvance r.1.2.cycles }, cpu := r.1.2 }

theorem alike_execOne (hD : Respects D) (h : m.Alike D m') :
    m.execOne.1 = m'.execOne.1 ∧ m.execOne.2.Alike D m'.execOne.2 := by
  obtain ⟨d, p, rfl, hd⟩ := h
  obtain ⟨hr, d', hb, hd'⟩ := Prog.run_sim (R := Board.Alike D) (busHandler_alike hD)
    (I8080.step.run m.cpu) (s := m.started) (t := (m.withShown d p).started) ⟨d, rfl, hd⟩
  have hrun : (m.withShown d p).cpuRun = (m.cpuRun.1, m.cpuRun.2.withDisplay d') :=
    Prod.ext hr.symm hb
  refine ⟨?_, _, p, ?_, hD.advance m.cpuRun.2.ppi.outA m.cpuRun.2.ppi.outB m.cpuRun.1.2.cycles hd'⟩
  · change m.cpuRun.1.1 = (m.withShown d p).cpuRun.1.1
    rw [hrun]
  · change (m.withShown d p).ended (m.withShown d p).cpuRun = _
    rw [hrun]
    rfl

/-- The panel shows whatever it shows. -/
theorem Alike.of_panel {x x' : Machine} {p p' : Panel} (h : m.Alike D m')
    (hx : x = { m with panel := p }) (hx' : x' = { m' with panel := p' }) : x.Alike D x' := by
  obtain ⟨d, _, rfl, hd⟩ := h
  subst hx hx'
  exact ⟨d, p', rfl, hd⟩

theorem Alike.panelUpdate (h : m.Alike D m') : m.panelUpdate.Alike D m'.panelUpdate := by
  obtain ⟨p, hp⟩ := m.panelUpdate_eq
  obtain ⟨p', hp'⟩ := m'.panelUpdate_eq
  exact h.of_panel hp hp'

/-- Equal changes to the single-step state. -/
theorem Alike.mapStep (h : m.Alike D m') (f : StepState → StepState) :
    Alike D { m with step := f m.step } { m' with step := f m'.step } :=
  h.map (fun m => { m with step := f m.step }) (fun _ _ => rfl) rfl

theorem Alike.step_eq (h : m.Alike D m') : m'.step = m.step := by
  obtain ⟨d, p, rfl, -⟩ := h
  rfl

theorem Alike.cpu_eq (h : m.Alike D m') : m'.cpu = m.cpu := by
  obtain ⟨d, p, rfl, -⟩ := h
  rfl

theorem alike_stepInstruction (hD : Respects D) (h : m.Alike D m') :
    m.stepInstruction.1 = m'.stepInstruction.1 ∧
      m.stepInstruction.2.Alike D m'.stepInstruction.2 := by
  obtain ⟨hr, hexec⟩ := alike_execOne hD h
  exact ⟨hr, (hexec.mapStep fun s => { s with mcIndex := 0 }).panelUpdate⟩

/-- The dry run puts the display back. -/
theorem alike_stepProbe (hD : Respects D) (h : m.Alike D m') :
    m.stepProbe.Alike D m'.stepProbe := by
  have htrial : Alike D { m with trial := true, trialN := 0 }
      { m' with trial := true, trialN := 0 } :=
    h.map (fun m => { m with trial := true, trialN := 0 }) (fun _ _ => rfl) rfl
  obtain ⟨d₁, p₁, hexec, -⟩ := (alike_execOne hD htrial).2
  obtain ⟨d, p, rfl, hd⟩ := h
  refine ⟨d, p, ?_, hd⟩
  rw [stepProbe, hexec]
  rfl

theorem alike_stepMachineCycle (hD : Respects D) (h : m.Alike D m') :
    m.stepMachineCycle.1 = m'.stepMachineCycle.1 ∧
      m.stepMachineCycle.2.Alike D m'.stepMachineCycle.2 := by
  have hprobed : Alike D (if m.step.mcIndex = 0 then m.stepProbe else m)
      (if m'.step.mcIndex = 0 then m'.stepProbe else m') := by
    rw [h.step_eq]
    split
    · exact alike_stepProbe hD h
    · exact h
  unfold stepMachineCycle
  dsimp only
  revert hprobed
  generalize (if m.step.mcIndex = 0 then m.stepProbe else m) = x
  generalize (if m'.step.mcIndex = 0 then m'.stepProbe else m') = x'
  intro hx
  rw [hx.step_eq]
  split
  · exact ⟨rfl, (alike_execOne hD hx).2.panelUpdate.mapStep fun s => { s with mcIndex := 0 }⟩
  · refine ⟨rfl, ?_⟩
    obtain ⟨d, p, rfl, hd⟩ := hx
    exact ⟨d, _, rfl, hd⟩

theorem alike_whileLoop (hD : Respects D) (start cycles : U64) (fuel : ℕ) (h : m.Alike D m') :
    Option.Rel (Alike D)
      (whileLoop (fun x : Machine => x.cpu.cycles - start < cycles) (·.execOne.2) fuel m)
      (whileLoop (fun x : Machine => x.cpu.cycles - start < cycles) (·.execOne.2) fuel m') := by
  induction fuel generalizing m m' with
  | zero =>
    rw [whileLoop, whileLoop, h.cpu_eq]
    split
    · exact .none
    · exact .some h
  | succ n ih =>
    rw [whileLoop, whileLoop, h.cpu_eq]
    split
    · exact ih (alike_execOne hD h).2
    · exact .some h

theorem alike_runCycles (hD : Respects D) (fuel : ℕ) (cycles : U64) (h : m.Alike D m') :
    Option.Rel (fun r r' => r.1 = r'.1 ∧ r.2.Alike D r'.2) (m.runCycles fuel cycles)
      (m'.runCycles fuel cycles) := by
  unfold runCycles
  rw [h.step_eq, h.cpu_eq]
  split
  · exact .some ⟨rfl, h⟩
  · have hloop := alike_whileLoop hD m.cpu.cycles cycles fuel h
    generalize hx : whileLoop _ _ fuel m = x at hloop ⊢
    generalize hx' : whileLoop _ _ fuel m' = x' at hloop ⊢
    cases hloop with
    | none => exact .none
    | some hy =>
      have hpanel := hy.panelUpdate
      refine .some ⟨?_, hpanel⟩
      change (panelUpdate _).cpu.cycles - _ = (panelUpdate _).cpu.cycles - _
      rw [hpanel.cpu_eq]

theorem alike_poke (h : m.Alike D m') (addr : U16) (val : U8) :
    (m.poke addr val).Alike D (m'.poke addr val) := by
  obtain ⟨d, p, rfl, hd⟩ := h
  obtain ⟨hpoke, hdisplay⟩ := m.toBoard.poke_withDisplay d addr val
  refine ⟨d, p, ?_, ?_⟩
  · change { m.withShown d p with toBoard := (m.toBoard.withDisplay d).poke addr val } = _
    rw [hpoke]
    rfl
  · change D (m.toBoard.poke addr val).display d
    rw [hdisplay]
    exact hd

theorem alike_loadRam (h : m.Alike D m') (addr : U16) (data : List U8) :
    (m.loadRam addr data).Alike D (m'.loadRam addr data) := by
  induction data generalizing m m' addr with
  | nil => exact h
  | cons v data ih => exact ih (alike_poke h addr v) _

theorem alike_loadRom (h : m.Alike D m') (offset : U16) (data : List U8) :
    (m.loadRom offset data).1 = (m'.loadRom offset data).1 ∧
      (m.loadRom offset data).2.Alike D (m'.loadRom offset data).2 := by
  obtain ⟨d, p, rfl, hd⟩ := h
  have hsize : (m.withShown d p).romSize = m.romSize := rfl
  unfold loadRom
  rw [hsize]
  split
  · exact ⟨rfl, d, p, rfl, hd⟩
  · exact ⟨rfl, d, p, rfl, hd⟩

theorem alike_setKey (h : m.Alike D m') (col row : ℕ) (down : Bool) :
    (m.setKey col row down).Alike D (m'.setKey col row down) := by
  obtain ⟨d, p, rfl, hd⟩ := h
  unfold setKey
  split
  · exact ⟨d, p, rfl, hd⟩
  · exact ⟨d, p, rfl, hd⟩

theorem alike_clear (hD : Respects D) (h : m.Alike D m') :
    m.displayClearAccumulator.Alike D m'.displayClearAccumulator := by
  obtain ⟨d, p, rfl, hd⟩ := h
  exact ⟨_, p, rfl, hD.clear _ hd⟩

end Machine

/-! ## Sequences of calls -/

/-- What a call returns. -/
inductive Reply
  | nothing
  | success (b : Bool)
  | cycles (n : U64)
  | tStates (n : ℕ)
deriving DecidableEq

namespace Machine

variable {m m' : Machine}

/-- What a call returns, or `none` if it runs out of `fuel`. -/
def reply (fuel : ℕ) (m : Machine) : Call → Option Reply
  | .loadRom offset data => some (.success (m.loadRom offset data).1)
  | .runCycles cycles => (m.runCycles fuel cycles).map fun r => .cycles r.1
  | .stepInstruction => some (.tStates m.stepInstruction.1)
  | .stepMachineCycle => some (.success m.stepMachineCycle.1)
  | _ => some .nothing

/-- A sequence of calls, with what they return. -/
def session (fuel : ℕ) : Machine → List Call → Option (List Reply × Machine)
  | m, [] => some ([], m)
  | m, c :: cs => do
    let r ← m.reply fuel c
    let m' ← m.call fuel c
    let (rs, m'') ← m'.session fuel cs
    return (r :: rs, m'')

/-- The relation of displays survives a choice of the digit order, if the call makes one. -/
def Orients (D : Display → Display → Prop) (c : Call) : Prop :=
  ∀ order, c = .displaySetDigitOrder order → ∀ d d', D d d' →
    D { d with bit0IsLeft := order == .bit0Left } { d' with bit0IsLeft := order == .bit0Left }

/-- **One call** on machines that differ in display and panel alone: it returns the same, and they
still differ in these alone. -/
theorem alike_call (hD : Respects D) (fuel : ℕ) {c : Call} (hc : Orients D c) (h : m.Alike D m') :
    m.reply fuel c = m'.reply fuel c ∧
      Option.Rel (Alike D) (m.call fuel c) (m'.call fuel c) := by
  cases c with
  | loadRom offset data =>
    obtain ⟨hreply, hload⟩ := alike_loadRom h offset data
    exact ⟨congrArg (fun b => some (Reply.success b)) hreply, .some hload⟩
  | loadRam addr data => exact ⟨rfl, .some (alike_loadRam h addr data)⟩
  | poke addr val => exact ⟨rfl, .some (alike_poke h addr val)⟩
  | runCycles cycles =>
    have hrun := alike_runCycles hD fuel cycles h
    change (m.runCycles fuel cycles).map _ = (m'.runCycles fuel cycles).map _ ∧
      Option.Rel _ ((m.runCycles fuel cycles).map _) ((m'.runCycles fuel cycles).map _)
    generalize m.runCycles fuel cycles = x at hrun ⊢
    generalize m'.runCycles fuel cycles = x' at hrun ⊢
    cases hrun with
    | none => exact ⟨rfl, .none⟩
    | some hr => exact ⟨congrArg (fun n => some (Reply.cycles n)) hr.1, .some hr.2⟩
  | stepInstruction =>
    obtain ⟨hreply, hstep⟩ := alike_stepInstruction hD h
    exact ⟨congrArg (fun n => some (Reply.tStates n)) hreply, .some hstep⟩
  | stepMachineCycle =>
    obtain ⟨hreply, hstep⟩ := alike_stepMachineCycle hD h
    exact ⟨congrArg (fun b => some (Reply.success b)) hreply, .some hstep⟩
  | pressStep =>
    refine ⟨rfl, .some ?_⟩
    unfold pressStep
    rw [h.step_eq]
    split
    · exact h
    · split
      · exact (alike_stepMachineCycle hD h).2
      · exact (alike_stepInstruction hD h).2
  | reset =>
    refine ⟨rfl, .some ?_⟩
    obtain ⟨d, p, rfl, hd⟩ := h
    exact ⟨_, _, rfl, hD.clear _ hd⟩
  | interrupt => exact ⟨rfl, .some (h.map interrupt (fun _ _ => rfl) rfl)⟩
  | setSwitch sw latched =>
    refine ⟨rfl, .some ?_⟩
    obtain ⟨d, p, rfl, hd⟩ := h
    cases sw with
    | step => exact ⟨d, p, rfl, hd⟩
    | cycle => exact ⟨d, p, rfl, hd⟩
  | setKey col row down => exact ⟨rfl, .some (alike_setKey h col row down)⟩
  | releaseAllKeys => exact ⟨rfl, .some (h.map releaseAllKeys (fun _ _ => rfl) rfl)⟩
  | setPowerFault p5 m5 p12 =>
    refine ⟨rfl, .some ?_⟩
    obtain ⟨d, p, rfl, hd⟩ := h
    exact ⟨d, _, rfl, hd⟩
  | displayClearAccumulator => exact ⟨rfl, .some (alike_clear hD h)⟩
  | displaySetDigitOrder order =>
    refine ⟨rfl, .some (alike_clear hD ?_)⟩
    obtain ⟨d, p, rfl, hd⟩ := h
    exact ⟨_, p, rfl, hc order rfl _ _ hd⟩
  | displaySetPersistence tau =>
    refine ⟨rfl, .some ?_⟩
    obtain ⟨d, p, rfl, hd⟩ := h
    exact ⟨_, p, rfl, hD.persistence tau hd⟩

/-- **A sequence of calls**: the same returns, and still alike. -/
theorem alike_session (hD : Respects D) {fuel : ℕ} {cs : List Call}
    (hcs : ∀ c ∈ cs, Orients D c) (h : m.Alike D m') :
    Option.Rel (fun r r' => r.1 = r'.1 ∧ r.2.Alike D r'.2) (m.session fuel cs)
      (m'.session fuel cs) := by
  induction cs generalizing m m' with
  | nil => exact .some ⟨rfl, h⟩
  | cons c cs ih =>
    obtain ⟨hreply, hcall⟩ := alike_call hD fuel (hcs c List.mem_cons_self) h
    rw [session, session, ← hreply]
    cases m.reply fuel c with
    | none => exact .none
    | some r =>
      generalize m.call fuel c = x at hcall ⊢
      generalize m'.call fuel c = x' at hcall ⊢
      cases hcall with
      | none => exact .none
      | some hx =>
        have hrest := ih (fun d hd => hcs d (List.mem_cons_of_mem _ hd)) hx
        rename_i y y'
        change Option.Rel _ ((y.session fuel cs).bind fun z => some (r :: z.1, z.2))
          ((y'.session fuel cs).bind fun z => some (r :: z.1, z.2))
        generalize y.session fuel cs = z at hrest ⊢
        generalize y'.session fuel cs = z' at hrest ⊢
        cases hrest with
        | none => exact .none
        | some hz => exact .some ⟨congrArg (r :: ·) hz.1, hz.2⟩

end Machine

/-! ## The mirror -/

namespace Display

/-- The display with its digits in the opposite order. -/
def mirror (d : Display) : Display :=
  { d with
    energy := fun i => d.energy i.rev
    energyDigit := fun i => d.energyDigit i.rev
    bit0IsLeft := !d.bit0IsLeft }

theorem update_rev {α : Type} (f : Fin 6 → α) (pos : Fin 6) (v : α) :
    (fun i => Function.update f pos v i.rev) = Function.update (fun i => f i.rev) pos.rev v := by
  funext i
  by_cases h : i = pos.rev
  · subst h
    rw [Function.update_self, Fin.rev_rev, Function.update_self]
  · have h' : i.rev ≠ pos := fun heq => h (by rw [← heq, Fin.rev_rev])
    rw [Function.update_of_ne h, Function.update_of_ne h']

theorem depositDigit_mirror (d : Display) (dt : U32) (seg : U8) (pos : Fin 6) :
    d.mirror.depositDigit dt seg pos.rev = (d.depositDigit dt seg pos).mirror := by
  unfold depositDigit mirror
  simp only [update_rev, Fin.rev_rev]

theorem position_mirror (d : Display) (bit : Fin 6) :
    d.mirror.position bit = (d.position bit).rev := by
  unfold position mirror
  cases d.bit0IsLeft with
  | true => rfl
  | false => exact (Fin.rev_rev bit).symm

theorem deposit_mirror (d : Display) (dt : U32) (sel seg : U8) :
    d.mirror.deposit dt sel seg = (d.deposit dt sel seg).mirror := by
  have hfold (bits : List (Fin 6)) (d : Display) :
      bits.foldl (fun d (bit : Fin 6) =>
          if sel.getLsbD bit then d.depositDigit dt seg (d.position bit) else d) d.mirror =
        (bits.foldl (fun d (bit : Fin 6) =>
          if sel.getLsbD bit then d.depositDigit dt seg (d.position bit) else d) d).mirror := by
    induction bits generalizing d with
    | nil => rfl
    | cons bit bits ih =>
      rw [List.foldl_cons, List.foldl_cons, ← ih]
      congr 1
      split
      · rw [position_mirror, depositDigit_mirror]
      · rfl
  unfold deposit
  rw [hfold]
  rfl

theorem decayLoop_mirror (size : U32) (n steps : ℕ) (d : Display) :
    decayLoop size n steps d.mirror =
      ((decayLoop size n steps d).1, (decayLoop size n steps d).2.mirror) := by
  induction n generalizing steps d with
  | zero => rfl
  | succ n ih =>
    have hacc : d.mirror.decayAcc = d.decayAcc := rfl
    rw [decayLoop, decayLoop, hacc]
    split
    · exact ih (steps + 1) ({ d with decayAcc := d.decayAcc - size } : Display).step
    · rfl

theorem afterLoop_mirror (r : ℕ × Display) :
    afterLoop (r.1, r.2.mirror) = (afterLoop r).mirror := by
  unfold afterLoop
  split
  · rfl
  · rfl

theorem decay_mirror (d : Display) (dt : U32) : d.mirror.decay dt = (d.decay dt).mirror := by
  have h := decayLoop_mirror d.stepSize DECAY_MAX_STEPS 0 { d with decayAcc := d.decayAcc + dt }
  calc d.mirror.decay dt = afterLoop _ := congrArg afterLoop h
    _ = (d.decay dt).mirror := afterLoop_mirror _

theorem advance_mirror (d : Display) (outA outB : U8) (t : U64) :
    d.mirror.advance outA outB t = (d.advance outA outB t).mirror := by
  have hto : d.mirror.integratedTo = d.integratedTo := rfl
  unfold advance
  rw [hto]
  split
  · rfl
  · unfold integrate
    rw [← decay_mirror, ← deposit_mirror]
    rfl

/-- The mirror image is a relation that the machine keeps. -/
theorem respects_mirror : Respects fun d d' => d' = d.mirror where
  advance outA outB t h := h ▸ advance_mirror _ outA outB t
  clear _ h := h ▸ rfl
  persistence _ h := h ▸ rfl

theorem respects_true : Respects fun _ _ => True where
  advance _ _ _ _ := trivial
  clear _ _ := trivial
  persistence _ _ := trivial

end Display

/-- A call that chooses the order of the digits. -/
def Call.setsOrder : Call → Bool
  | .displaySetDigitOrder _ => true
  | _ => false

/-! ## Independence -/

namespace Machine

/-- The machine with display and panel blanked. -/
def core (m : Machine) : Machine :=
  m.withShown ⟨fun _ _ => 0, fun _ => 0, 0, 0, 0, 0, false⟩ ⟨0, 0, 0, false, false, false⟩

/-- The machine with the digits in the other order. -/
def turned (m : Machine) : Machine :=
  { m with display := { m.display with bit0IsLeft := !m.display.bit0IsLeft } }

/-- No accumulator holds any energy. -/
def Cleared (m : Machine) : Prop :=
  (∀ i j, m.display.energy i j = 0) ∧ (∀ i, m.display.energyDigit i = 0) ∧ m.display.total = 0

theorem alike_of_core {m m' : Machine} (h : m.core = m'.core) : m.Alike (fun _ _ => True) m' := by
  refine ⟨m'.display, m'.panel, ?_, trivial⟩
  have hshown := congrArg (fun x => withShown x m'.display m'.panel) h
  exact hshown.symm

theorem core_of_alike {D : Display → Display → Prop} {m m' : Machine} (h : m.Alike D m') :
    m.core = m'.core := by
  obtain ⟨d, p, rfl, -⟩ := h
  rfl

/-- What two sessions have to do with each other: the same calls return the same values, and
machines in the relation `R` are reached. -/
def Matches (R : Machine → Machine → Prop) : Option (List Reply × Machine) →
    Option (List Reply × Machine) → Prop :=
  Option.Rel fun r r' => r.1 = r'.1 ∧ R r.2 r'.2

/-- **Display, orientation and LEDs never influence the machine.** Two machines that are equal but
for display and panel stay so through any calls, which return the same. If one has cleared
accumulators and the other only the other orientation, their displays stay mirror images. -/
theorem display_independence :
    (∀ (fuel : ℕ) (cs : List Call) (m m' : Machine), m.core = m'.core →
      Matches (fun x x' => x.core = x'.core) (m.session fuel cs) (m'.session fuel cs)) ∧
    ∀ (fuel : ℕ) (cs : List Call) (m : Machine), m.Cleared →
      (∀ c ∈ cs, c.setsOrder = false) →
      Matches (fun x x' => x.core = x'.core ∧ x'.display.total = x.display.total ∧
          ∀ i : Fin 6, x'.display.energyDigit i = x.display.energyDigit i.rev ∧
            ∀ j, x'.display.energy i j = x.display.energy i.rev j)
        (m.session fuel cs) (m.turned.session fuel cs) := by
  have himp {R R' : Machine → Machine → Prop} (hR : ∀ x x', R x x' → R' x x')
      {r r' : Option (List Reply × Machine)} (h : Matches R r r') : Matches R' r r' := by
    cases h with
    | none => exact .none
    | some h => exact .some ⟨h.1, hR _ _ h.2⟩
  constructor
  · intro fuel cs m m' h
    refine himp (fun x x' => core_of_alike) (alike_session Display.respects_true (fun c _ => ?_)
      (alike_of_core h))
    exact fun _ _ _ _ _ => trivial
  · intro fuel cs m hclear hcs
    have hmirror : m.turned.display = m.display.mirror := by
      obtain ⟨henergy, hdigit, -⟩ := hclear
      have h₁ : (fun i : Fin 6 => m.display.energy i.rev) = m.display.energy := by
        funext i j
        rw [henergy, henergy]
      have h₂ : (fun i : Fin 6 => m.display.energyDigit i.rev) = m.display.energyDigit := by
        funext i
        rw [hdigit, hdigit]
      rw [Display.mirror, h₁, h₂]
      rfl
    refine himp (fun x x' hx => ?_) (alike_session Display.respects_mirror (fun c hc => ?_)
      ⟨m.turned.display, m.panel, rfl, hmirror⟩)
    · refine ⟨core_of_alike hx, ?_⟩
      obtain ⟨d, p, rfl, rfl⟩ := hx
      exact ⟨rfl, fun i => ⟨rfl, fun j => rfl⟩⟩
    · rintro order rfl
      exact absurd (hcs _ hc) Bool.false_ne_true.symm

/-- From power-on, with a key and digits that light up: another persistence, and the other order. -/
theorem display_independence_litRun :
    Matches (fun x x' => x.core = x'.core)
        ((init .rev2).session 0 (.setKey 1 2 true :: litRun))
        (((init .rev2).displaySetPersistence 1).session 0 (.setKey 1 2 true :: litRun)) ∧
      Matches (fun x x' => x.core = x'.core ∧ x'.display.total = x.display.total ∧
          ∀ i : Fin 6, x'.display.energyDigit i = x.display.energyDigit i.rev ∧
            ∀ j, x'.display.energy i j = x.display.energy i.rev j)
        ((init .rev2).session 0 (.setKey 1 2 true :: litRun))
        ((init .rev2).turned.session 0 (.setKey 1 2 true :: litRun)) ∧
      ((init .rev2).session 0 (.setKey 1 2 true :: litRun)).map
        (fun r => (r.2.display.energyDigit 0, r.2.display.energyDigit 5)) = some (4352, 0) :=
  ⟨display_independence.1 0 _ _ _ rfl,
    display_independence.2 0 _ _ ⟨fun _ _ => rfl, fun _ => rfl, rfl⟩ (by decide),
    by decide +kernel⟩

end Machine

end Umk80
