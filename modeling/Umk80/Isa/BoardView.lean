import Umk80.Isa.Refinement
import Umk80.Lib.TimedRuns
import Umk80.MemoryLaw
import Umk80.Ports

/-!
# What a program sees of the board

A program on the УМК-80 sees bytes at addresses, the ports of the ВВ55, the keys behind them and the
single-step port. It sees neither the display integrator nor the journal of a dry run nor where in
the RAM chips a byte lies. `View` is the board as the program sees it, and a machine that executes
an instruction does to its view what the instruction set says.

Nothing is assumed about the program. The view is as good for the monitor as for what the monitor
lets the user run.

## Main definitions

* `View`, `View.env` — the board as seen by a program, as an environment of the instruction set
* `Machine.view` — the view of a machine

## Main results

* `View.busHandler_view` — the callbacks of the board are those of the view
* `Machine.view_execOne` — an instruction of the machine is a step of its view
* `Machine.reaches_view` — and so with whole runs
-/

namespace Umk80

open Interaction Isa TimedRuns

/-- The board as a program sees it. -/
structure View where
  rev : Rev
  mem : U16 → U8
  ppi : Ppi
  kbd : Keyboard
  dbgPort : U8

/-- Addresses that lead to one RAM cell. -/
def Shares (rev : Rev) (a b : U16) : Prop :=
  RAM_BASE ≤ a ∧ a < RAM_BASE + RAM_MAX ∧ SameCell rev a b

instance (rev : Rev) (a b : U16) : Decidable (Shares rev a b) := by
  unfold Shares
  infer_instance

namespace View

/-- Every address of a cell shows what is written to one of them. -/
def write (v : View) (a : U16) (x : U8) : View :=
  { v with mem := fun b => if Shares v.rev b a then x else v.mem b }

/-- The rows of the keyboard, with the columns that `outA` selects. -/
def scan (outA : U8) (kbd : Keyboard) : U8 :=
  let cols := outA &&& 0x3F
  (List.finRange 6).foldl (fun value (c : Fin 6) =>
    if cols.getLsbD c then
      (List.finRange 4).foldl (fun value (r : Fin 4) =>
        if kbd.pressed c r then value &&& ~~~((1 : U8) <<< ROW_BIT r) else value) value
    else value) 0xFF

def input (v : View) (port : U8) : U8 :=
  if port = PORT_A then if v.ppi.aIsOut then v.ppi.outA else 0xFF
  else if port = PORT_B then if v.ppi.bIsOut then v.ppi.outB else 0xFF
  else if port = PORT_C then scan v.ppi.outA v.kbd
  else if port = PORT_CTRL then 0xFF
  else if port = PORT_DBG then v.dbgPort
  else 0xFF

def output (v : View) (port x : U8) : View :=
  { v with
    ppi := v.ppi.write port x
    dbgPort := if port = PORT_DBG then x else v.dbgPort }

/-- The board as an environment of the instruction set. -/
def env : Bus View where
  read v a := v.mem a
  write := write
  input := input
  output := output

end View

/-! ## The board behind the view -/

/-- What a program sees of a board. -/
def Board.view (rev : Rev) (b : Board) : View :=
  ⟨rev, b.peek, b.ppi, b.kbd, b.dbgPort⟩

namespace View

theorem dbgPort_busOut (b : Chips) (port val : U8) :
    (b.busOut port val).dbgPort = if port = PORT_DBG then val else b.dbgPort := by
  by_cases hdbg : port = PORT_DBG
  · subst hdbg
    rfl
  rw [if_neg hdbg, Chips.busOut]
  by_cases ha : port = PORT_A
  · rw [if_pos ha]
    dsimp only
    split
    all_goals rfl
  by_cases hb : port = PORT_B
  · rw [if_neg ha, if_pos hb]
    dsimp only
    split
    all_goals rfl
  rw [if_neg ha, if_neg hb]
  by_cases hc : port = PORT_C
  · rw [if_pos hc]
  rw [if_neg hc]
  by_cases hctrl : port = PORT_CTRL
  · rw [if_pos hctrl]
    rfl
  · rw [if_neg hctrl, if_neg hdbg]

/-- A byte of memory after a write. -/
theorem peek_poke {rev : Rev} {b : Board} (hsize : b.ramSize = ramSizeOf rev) (a c : U16) (x : U8) :
    (b.poke a x).peek c = if Shares rev c a then x else b.peek c := by
  have hchips := b.toChips_poke a x
  obtain ⟨-, hrom, hromSize, hramSize⟩ := busHandler_frame (.write a x 0) b
  by_cases hlow : c < RAM_BASE
  · rw [if_neg fun h => absurd h.1 (BitVec.not_le.mpr hlow)]
    exact Machine.peek_of_rom hrom hromSize hlow
  by_cases hhigh : RAM_BASE + RAM_MAX ≤ c
  · rw [if_neg fun h => absurd h.2.1 (BitVec.not_lt.mpr hhigh), Machine.peek_of_high _ hhigh,
      Machine.peek_of_high _ hhigh]
  have hc : RAM_BASE ≤ c := BitVec.not_lt.mp hlow
  have hc' : c < RAM_BASE + RAM_MAX := BitVec.not_le.mp hhigh
  obtain ⟨hlt, hindex⟩ := ramIndex_of_ram (ramSizeOf rev) hc hc'
  have hindexb : ramIndex b.ramSize c = some _ :=
    calc ramIndex b.ramSize c = ramIndex (ramSizeOf rev) c := by rw [hsize]
      _ = _ := hindex
  have hindexp : ramIndex (b.poke a x).ramSize c = some _ :=
    calc ramIndex (b.poke a x).ramSize c = ramIndex b.ramSize c := congrArg (ramIndex · c) hramSize
      _ = _ := hindexb
  have hram : (b.poke a x).ram = Overlay.overlay b.ram (writeOverlay b.ramSize (a, x)) := by
    rw [hchips, Memory.written_eq]
  have hshares : ramIndex (ramSizeOf rev) a = ramIndex (ramSizeOf rev) c ↔ Shares rev c a :=
    (ramIndex_eq_iff rev hc hc').trans ⟨fun h => ⟨hc, hc', h⟩, fun h => h.2.2⟩
  rw [(b.poke a x).toMemory.peek_of_ram hindexp, b.toMemory.peek_of_ram hindexb, hram,
    Overlay.overlay, writeOverlay, hsize, ← hindex]
  by_cases h : Shares rev c a
  · rw [if_pos (hshares.mpr h), if_pos h]
    rfl
  · rw [if_neg (mt hshares.mp h), if_neg h]
    rfl

/-- **The callbacks of the board are those of its view.** -/
theorem busHandler_view {rev : Rev} (o : BusOp) (b : Board) (hsize : b.ramSize = ramSizeOf rev) :
    (busHandler o b).1 = (env.handler o (b.view rev)).1 ∧
      (busHandler o b).2.view rev = (env.handler o (b.view rev)).2 ∧
      (busHandler o b).2.ramSize = ramSizeOf rev := by
  refine ⟨?_, ?_, by rw [(busHandler_frame o b).2.2.2, hsize]⟩
  · cases o with
    | read a st => rfl
    | write a x st => rfl
    | input port => rfl
    | output port x => rfl
  · cases o with
    | read a st => rfl
    | write a x st =>
      have hchips := b.toChips_poke a x
      have hmem : (b.poke a x).peek = fun c => if Shares rev c a then x else b.peek c :=
        funext fun c => peek_poke hsize a c x
      have hppi : (b.poke a x).ppi = b.ppi := by rw [hchips]
      have hkbd : (b.poke a x).kbd = b.kbd := by rw [hchips]
      have hdbg : (b.poke a x).dbgPort = b.dbgPort := by rw [hchips]
      change (⟨rev, (b.poke a x).peek, (b.poke a x).ppi, (b.poke a x).kbd,
        (b.poke a x).dbgPort⟩ : View) = _
      rw [hmem, hppi, hkbd, hdbg]
      rfl
    | input port => rfl
    | output port x =>
      obtain ⟨ppi, display, dbgPort, unmapped, hout⟩ := b.toChips.busOut_eq port x
      have hppi : ppi = b.ppi.write port x := by
        rw [← b.toChips.ppi_busOut port x, hout]
      have hdbg : dbgPort = if port = PORT_DBG then x else b.dbgPort := by
        rw [← dbgPort_busOut b.toChips port x, hout]
      change Board.view rev { b with toChips := b.toChips.busOut port x } = _
      rw [hout, hppi, hdbg]
      rfl

end View

namespace Machine

/-- What a program sees of the machine it runs on. -/
def view (m : Machine) : Latched View := Isa.view (m.cpu, m.toBoard.view m.rev)

/-- The RAM of the machine is that of its revision, and its processor is regular. -/
structure Proper (m : Machine) : Prop where
  ramSize : m.ramSize = ramSizeOf m.rev
  regular : Regular (m.cpu, m.toBoard)

/-- The processor runs on the board as on its view. -/
theorem run_view {m : Machine} (h : m.ramSize = ramSizeOf m.rev) :
    ((I8080.step.run m.cpu).run busHandler m.started).1 =
        ((I8080.step.run m.cpu).run View.env.handler (m.toBoard.view m.rev)).1 ∧
      ((I8080.step.run m.cpu).run busHandler m.started).2.view m.rev =
        ((I8080.step.run m.cpu).run View.env.handler (m.toBoard.view m.rev)).2 ∧
      m.execOne.2.ramSize = ramSizeOf m.rev := by
  have hstep : ∀ o (b : Board) v, b.view m.rev = v ∧ b.ramSize = ramSizeOf m.rev →
      (busHandler o b).1 = (View.env.handler o v).1 ∧
        (busHandler o b).2.view m.rev = (View.env.handler o v).2 ∧
          (busHandler o b).2.ramSize = ramSizeOf m.rev := by
    rintro o b v ⟨rfl, hsize⟩
    exact View.busHandler_view o b hsize
  exact Prog.run_sim hstep (I8080.step.run m.cpu) (s := m.started) (t := m.toBoard.view m.rev)
    ⟨rfl, h⟩

/-- **An instruction of the machine is a step of its view**, with the same T states. -/
theorem view_execOne {m : Machine} (h : m.Proper) :
    m.execOne.2.view = m.view.step View.env ∧ m.execOne.1 = m.view.cost View.env ∧
      m.execOne.2.Proper := by
  obtain ⟨hresult, hboard, hsize⟩ := run_view h.ramSize
  have hreg : Regular (m.cpu, m.toBoard.view m.rev) := ⟨h.regular.normalised, h.regular.grace⟩
  have hstep := refined_step (E := View.env) hreg
  have hcpu : m.execOne.2.cpu =
      (I8080.act View.env.handler (m.cpu, m.toBoard.view m.rev) .step).1 :=
    congrArg Prod.snd hresult
  have hview : m.execOne.2.toBoard.view m.execOne.2.rev =
      (I8080.act View.env.handler (m.cpu, m.toBoard.view m.rev) .step).2 := hboard
  have hcost : m.execOne.1 = (I8080.stepResult View.env.handler (m.cpu, m.toBoard.view m.rev)).1 :=
    congrArg Prod.fst hresult
  refine ⟨?_, by rw [hcost, hstep.cost]; rfl, hsize, ?_⟩
  · rw [view, hcpu, hview]
    exact hstep.view_eq
  · exact ⟨hcpu ▸ hstep.regular.normalised, hcpu ▸ hstep.regular.grace⟩

/-- Machines, one instruction after the other. -/
def clocked : Clocked Machine := ⟨fun m => m.execOne.2, fun m => m.execOne.1⟩

/-- **A run of the machine** that begins in a proper state is a run of its view. -/
theorem reaches_view {m m' : Machine} {t : ℕ} (hm : m.Proper) (h : Arrives clocked m t m') :
    Arrives (Latched.clocked View.env) m.view t m'.view ∧ m'.Proper := by
  have hsim := h.simulate (N := Latched.clocked View.env)
    (R := fun m s => m.Proper ∧ m.view = s) (fun m s hR => ?_) ⟨hm, rfl⟩
  · obtain ⟨s', hrun, hproper, rfl⟩ := hsim
    exact ⟨hrun, hproper⟩
  · obtain ⟨hproper, rfl⟩ := hR
    obtain ⟨hview, hcost, hproper'⟩ := view_execOne hproper
    exact ⟨hcost.symm, hproper', hview⟩

end Machine

end Umk80
