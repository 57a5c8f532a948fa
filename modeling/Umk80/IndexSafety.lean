import Umk80.MachineCycle

/-!
# Array indices, and restored states

The C code indexes five arrays with counters and addresses it keeps in the machine. While the API
alone moves the machine these are in range by invariants that nobody has to check: at most five
machine cycles are logged, at most eight writes are noted, addresses are masked.

`umk_state_load` replaces the machine by a buffer of which it checks the length, the magic number
and the version. Every access to an array is recorded here next to the function that makes it, and
`Sound` is exactly what a restored state must satisfy for all later accesses to be in range. The
dry run bounds its copy of the trace twice (`i < mc_count && i < 6u`); the panel and the later
presses of single-step mode trust the stored counters.

## Main definitions

* `Access` — an access to one of the arrays
* `Api`, `Machine.apiAccesses` — the calls of the API with loading a state, and their accesses
* `Machine.IndexSafe` — every access of a run is in range
* `Machine.Sound` — the counters of a state are within the arrays they index

## Main results

* `Machine.indexSafe_iff_sound` — from a state, everything is in range exactly if it is sound
* `Machine.index_safety` — runs that load sound states only are in range throughout
-/

namespace Umk80

open Interaction WhileLoop

/-! ## Accesses -/

/-- The arrays with a variable index. -/
inductive Arr
  | cpuTrace
  | stepTrace
  | journal
  | rom
  | ram
deriving DecidableEq

/-- The length of an array. -/
def Arr.size : Arr → ℕ
  | .cpuTrace => 6
  | .stepTrace => 6
  | .journal => 8
  | .rom => 2048
  | .ram => 2048

/-- An array, and an index into it. -/
structure Access where
  arr : Arr
  index : ℕ
deriving DecidableEq

def Access.InRange (a : Access) : Prop := a.index < a.arr.size

instance (a : Access) : Decidable a.InRange := by
  unfold Access.InRange
  infer_instance

/-- All of some accesses are in range. -/
def AllInRange (as : List Access) : Prop := ∀ a ∈ as, a.InRange

theorem allInRange_nil : AllInRange [] := nofun

theorem AllInRange.append {as as' : List Access} (h : AllInRange as) (h' : AllInRange as') :
    AllInRange (as ++ as') := by
  intro a ha
  rcases List.mem_append.mp ha with ha | ha
  · exact h a ha
  · exact h' a ha

theorem allInRange_singleton {a : Access} (h : a.InRange) : AllInRange [a] := by
  intro b hb
  rwa [List.mem_singleton.mp hb]

/-- `decode`, and the access to the cell. -/
def Memory.accesses (mem : Memory) (addr : U16) : List Access :=
  match mem.decode addr with
  | none => []
  | some (.rom i) => [⟨.rom, i⟩]
  | some (.ram i) => [⟨.ram, i⟩]

/-- `umk_poke`: the journal entry if this is a dry run and there is room, and the cell. -/
def Board.pokeAccesses (b : Board) (addr : U16) : List Access :=
  match b.decode addr with
  | none => []
  | some (.rom _) => []
  | some (.ram i) =>
    (if b.trial ∧ b.trialN < 8 then [⟨.journal, b.trialN.toNat⟩] else []) ++ [⟨.ram, i⟩]

/-- Rolling back `n` entries of the journal. -/
def Journal.undoAccesses (j : Journal) : ℕ → List Access
  | 0 => []
  | n + 1 => ⟨.journal, n⟩ :: ⟨.ram, (readAt j.trialIdx n).toNat⟩ :: j.undoAccesses n

/-- The callbacks. -/
def busAccesses : BusOp → Board → List Access
  | .read addr _, b => b.toMemory.accesses addr
  | .write addr _ _, b => b.pokeAccesses addr
  | .input _, _ => []
  | .output _ _, _ => []

/-- The callbacks, with a record of their accesses. -/
def watchedHandler : Handler BusOp BusOp.Ans (Board × List Access) := fun o x =>
  ((busHandler o x.1).1, (busHandler o x.1).2, x.2 ++ busAccesses o x.1)

namespace Machine

variable {fuel : ℕ} {m m' : Machine}

/-- `exec_one`: the accesses of the callbacks, and those of `mc_log`, which appends one machine
cycle after the other. -/
def execAccesses (m : Machine) : List Access :=
  ((I8080.step.run m.cpu).run watchedHandler (m.started, [])).2.2 ++
    (List.range m.execOne.2.cpu.mcCount.toNat).map (⟨.cpuTrace, ·⟩)

/-- `panel_show_mc`. -/
def panelShowMcAccesses (m : Machine) (i : ℕ) : List Access :=
  if i < m.cpu.mcCount.toNat then [⟨.cpuTrace, i⟩] else []

/-- `panel_update`. -/
def panelUpdateAccesses (m : Machine) : List Access :=
  if 0 < m.cpu.mcCount then m.panelShowMcAccesses (m.cpu.mcCount.toNat - 1) else []

/-- `umk_step_instruction`. -/
def stepInstructionAccesses (m : Machine) : List Access :=
  m.execAccesses ++ m.execOne.2.panelUpdateAccesses

/-- `step_probe`: the dry run, the copy of its trace, and the roll-back. -/
def stepProbeAccesses (m : Machine) : List Access :=
  let p := m.onTrial.execOne.2
  m.onTrial.execAccesses ++
    ((List.range p.cpu.mcCount.toNat).filter (· < 6)).flatMap
      (fun i => [⟨.cpuTrace, i⟩, ⟨.stepTrace, i⟩]) ++
    p.toJournal.undoAccesses p.trialN.toNat

/-- `umk_step_machine_cycle`. -/
def stepMachineCycleAccesses (m : Machine) : List Access :=
  (if m.step.mcIndex = 0 then m.stepProbeAccesses else []) ++
    if m.probed.step.mcTotal.toNat ≤ m.probed.step.mcIndex.toNat + 1 then
      m.probed.execAccesses ++ m.probed.execOne.2.panelUpdateAccesses
    else [⟨.stepTrace, m.probed.step.mcIndex.toNat⟩]

/-- The loop of `umk_run_cycles`, and `panel_update` after it. -/
def loopAccesses (start cycles : U64) : ℕ → Machine → List Access
  | 0, m => if m.cpu.cycles - start < cycles then [] else m.panelUpdateAccesses
  | n + 1, m =>
    if m.cpu.cycles - start < cycles then
      m.execAccesses ++ loopAccesses start cycles n m.execOne.2
    else m.panelUpdateAccesses

/-- `umk_load_ram`. -/
def loadRamAccesses (m : Machine) (addr : U16) : List U8 → List Access
  | [] => []
  | v :: data => m.toBoard.pokeAccesses addr ++ (m.poke addr v).loadRamAccesses (addr + 1) data

/-- `umk_load_rom`. -/
def loadRomAccesses (m : Machine) (offset : U16) (data : List U8) : List Access :=
  if m.romSize.toNat < offset.toNat + data.length then []
  else (List.range data.length).map fun i => ⟨.rom, offset.toNat + i⟩

/-- The accesses of a call. -/
def accesses (fuel : ℕ) (m : Machine) : Call → List Access
  | .loadRom offset data => m.loadRomAccesses offset data
  | .loadRam addr data => m.loadRamAccesses addr data
  | .poke addr _ => m.toBoard.pokeAccesses addr
  | .runCycles cycles =>
    if m.step.latchStep then [] else m.loopAccesses m.cpu.cycles cycles fuel
  | .stepInstruction => m.stepInstructionAccesses
  | .stepMachineCycle => m.stepMachineCycleAccesses
  | .pressStep =>
    if !m.step.latchStep then []
    else if m.step.latchCycle then m.stepMachineCycleAccesses
    else m.stepInstructionAccesses
  | _ => []

end Machine

/-! ## Restored states -/

def UMK_MAGIC : U32 := 0x554D4B38
def UMK_VERSION : U32 := 1

/-- A buffer for `umk_state_load`: its length and, read as a `umk_machine_t`, the magic number, the
version and the machine. -/
structure StateBuffer where
  len : ℕ
  magic : U32
  version : U32
  machine : Machine

/-- `umk_state_load`, with the size of a `umk_machine_t`. -/
def Machine.stateLoad (size : ℕ) (m : Machine) (buf : StateBuffer) : Bool × Machine :=
  if buf.len < size then (false, m)
  else if buf.magic ≠ UMK_MAGIC ∨ buf.version ≠ UMK_VERSION then (false, m)
  else (true, buf.machine)

/-- The buffer passes the checks of `umk_state_load`. -/
def StateBuffer.Accepted (size : ℕ) (buf : StateBuffer) : Prop :=
  size ≤ buf.len ∧ buf.magic = UMK_MAGIC ∧ buf.version = UMK_VERSION

theorem Machine.stateLoad_of_accepted {size : ℕ} (m : Machine) {buf : StateBuffer}
    (h : buf.Accepted size) : m.stateLoad size buf = (true, buf.machine) := by
  obtain ⟨hlen, hmagic, hversion⟩ := h
  rw [stateLoad, if_neg (Nat.not_lt_of_le hlen),
    if_neg (not_or.mpr ⟨not_not.mpr hmagic, not_not.mpr hversion⟩)]

theorem Machine.stateLoad_of_not_accepted {size : ℕ} (m : Machine) {buf : StateBuffer}
    (h : ¬ buf.Accepted size) : m.stateLoad size buf = (false, m) := by
  unfold stateLoad
  split
  · rfl
  · next hlen =>
    rw [if_pos]
    by_contra hno
    obtain ⟨hmagic, hversion⟩ := not_or.mp hno
    exact h ⟨Nat.le_of_not_lt hlen, not_not.mp hmagic, not_not.mp hversion⟩

/-- The API with loading a state, and reading memory. -/
inductive Api
  | call (c : Call)
  | stateLoad (buf : StateBuffer)
  | peek (addr : U16)

namespace Machine

variable {size fuel : ℕ} {m m' : Machine}

def apiCall (size fuel : ℕ) (m : Machine) : Api → Option Machine
  | .call c => m.call fuel c
  | .stateLoad buf => some (m.stateLoad size buf).2
  | .peek _ => some m

def apiAccesses (fuel : ℕ) (m : Machine) : Api → List Access
  | .call c => m.accesses fuel c
  | .stateLoad _ => []
  | .peek addr => m.toMemory.accesses addr

/-- Every access of a run is in range. -/
def IndexSafe (size fuel : ℕ) : Machine → List Api → Prop
  | _, [] => True
  | m, a :: as => AllInRange (m.apiAccesses fuel a) ∧
      ∀ m', m.apiCall size fuel a = some m' → m'.IndexSafe size fuel as

/-- The counters of a state are within the arrays they index. -/
structure Sound (m : Machine) : Prop where
  mcCount : m.cpu.mcCount.toNat ≤ 6
  /-- An instruction that is partly stepped ends within the stored trace. -/
  mcTotal : m.step.mcIndex = 0 ∨ m.step.mcTotal.toNat ≤ max m.step.mcIndex.toNat 6 + 1
  romSize : m.romSize.toNat ≤ 2048

end Machine

/-! ## Accesses that are always in range -/

theorem Memory.allInRange_accesses (mem : Memory) (addr : U16) :
    AllInRange (mem.accesses addr) := by
  unfold accesses
  split
  · exact allInRange_nil
  · next i _ => exact allInRange_singleton i.isLt
  · next i _ => exact allInRange_singleton i.isLt

theorem Board.allInRange_pokeAccesses (b : Board) (addr : U16) :
    AllInRange (b.pokeAccesses addr) := by
  unfold pokeAccesses
  split
  · exact allInRange_nil
  · exact allInRange_nil
  · next i _ =>
    refine AllInRange.append ?_ (allInRange_singleton i.isLt)
    split
    · next h => exact allInRange_singleton (show b.trialN.toNat < 8 from h.2)
    · exact allInRange_nil

theorem allInRange_busAccesses (o : BusOp) (b : Board) : AllInRange (busAccesses o b) := by
  cases o with
  | read addr st => exact b.toMemory.allInRange_accesses addr
  | write addr val st => exact b.allInRange_pokeAccesses addr
  | input port => exact allInRange_nil
  | output port val => exact allInRange_nil

/-- The noted entries lead into the RAM. -/
def Noted (b : Board) : Prop :=
  b.trialN.toNat ≤ 8 ∧ ∀ k < b.trialN.toNat, (readAt b.trialIdx k).toNat < 2048

theorem noted_busHandler (o : BusOp) (b : Board) (h : Noted b) : Noted (busHandler o b).2 := by
  cases o with
  | read addr st => exact h
  | input port => exact h
  | output port val => exact h
  | write addr val st =>
    change Noted (b.poke addr val)
    unfold Board.poke
    split
    · exact h
    · exact h
    · next i _ =>
      change Noted { b with toJournal := b.toJournal.note i (b.ram i), ram := _ }
      unfold Journal.note
      split
      · next hroom =>
        have hlt : b.trialN.toNat < 8 := hroom.2
        have hcount : (b.trialN + 1).toNat = b.trialN.toNat + 1 := toNat_succ (by omega)
        refine ⟨hcount ▸ hlt, fun k hk => ?_⟩
        have hk' : k < b.trialN.toNat + 1 := hcount ▸ hk
        dsimp only
        by_cases hlast : k = b.trialN.toNat
        · rw [hlast, readAt_writeAt_self _ hlt, BitVec.toNat_ofNat]
          exact (Nat.mod_le _ _).trans_lt i.isLt
        · rw [readAt_writeAt_of_ne _ hlast]
          exact h.2 k (by omega)
      · exact h

theorem allInRange_undoAccesses {j : Journal} {n : ℕ} (hn : n ≤ 8)
    (hidx : ∀ k < n, (readAt j.trialIdx k).toNat < 2048) : AllInRange (j.undoAccesses n) := by
  induction n with
  | zero => exact allInRange_nil
  | succ n ih =>
    have hrest := ih (by omega) fun k hk => hidx k (by omega)
    intro a ha
    rcases List.mem_cons.mp ha with rfl | ha
    · exact Nat.lt_of_succ_le hn
    rcases List.mem_cons.mp ha with rfl | ha
    · exact hidx n n.lt_succ_self
    · exact hrest a ha

namespace Machine

variable {size fuel : ℕ} {m m' : Machine}

theorem allInRange_logged {n : ℕ} (h : n ≤ 6) :
    AllInRange ((List.range n).map (⟨.cpuTrace, ·⟩)) := by
  intro a ha
  obtain ⟨i, hi, rfl⟩ := List.mem_map.mp ha
  exact (List.mem_range.mp hi).trans_le h

theorem mcCount_execOne (m : Machine) : m.execOne.2.cpu.mcCount.toNat ≤ 5 :=
  m.traceOf_execOne.le_five

/-- So the trace has room for one more. -/
theorem mcCount_execOne_le (m : Machine) : m.execOne.2.cpu.mcCount.toNat ≤ 6 :=
  Nat.le_succ_of_le m.mcCount_execOne

/-- **An instruction accesses nothing out of range**, whatever the state. -/
theorem allInRange_execAccesses (m : Machine) : AllInRange m.execAccesses := by
  refine AllInRange.append ?_ (allInRange_logged m.mcCount_execOne_le)
  exact Prog.run_inv watchedHandler (P := fun x => AllInRange x.2)
    (fun o x h => h.append (allInRange_busAccesses o x.1)) _ allInRange_nil

/-- **Nor does a dry run.** -/
theorem allInRange_stepProbeAccesses (m : Machine) : AllInRange m.stepProbeAccesses := by
  have hnoted : Noted m.onTrial.execOne.2.toBoard :=
    Prog.run_inv busHandler (P := Noted) noted_busHandler (I8080.step.run m.onTrial.cpu)
      (s := m.onTrial.started) ⟨Nat.zero_le 8, nofun⟩
  refine (m.onTrial.allInRange_execAccesses.append fun a ha => ?_).append
    (allInRange_undoAccesses hnoted.1 hnoted.2)
  obtain ⟨i, hi, ha⟩ := List.mem_flatMap.mp ha
  have hlt : i < 6 := by simpa using (List.mem_filter.mp hi).2
  rcases List.mem_cons.mp ha with rfl | ha
  · exact hlt
  · obtain rfl := List.mem_singleton.mp ha
    exact hlt

theorem allInRange_panelUpdateAccesses (h : m.cpu.mcCount.toNat ≤ 6) :
    AllInRange m.panelUpdateAccesses := by
  unfold panelUpdateAccesses panelShowMcAccesses
  split
  · split
    · next hlt => exact allInRange_singleton (hlt.trans_le h)
    · exact allInRange_nil
  · exact allInRange_nil

theorem allInRange_stepInstructionAccesses (m : Machine) :
    AllInRange m.stepInstructionAccesses :=
  m.allInRange_execAccesses.append
    (allInRange_panelUpdateAccesses m.mcCount_execOne_le)

theorem allInRange_loopAccesses {start cycles : U64} (h : m.cpu.mcCount.toNat ≤ 6) :
    AllInRange (m.loopAccesses start cycles fuel) := by
  induction fuel generalizing m with
  | zero =>
    unfold loopAccesses
    split
    · exact allInRange_nil
    · exact allInRange_panelUpdateAccesses h
  | succ n ih =>
    unfold loopAccesses
    split
    · exact m.allInRange_execAccesses.append (ih m.mcCount_execOne_le)
    · exact allInRange_panelUpdateAccesses h

theorem allInRange_loadRamAccesses (m : Machine) (addr : U16) (data : List U8) :
    AllInRange (m.loadRamAccesses addr data) := by
  induction data generalizing m addr with
  | nil => exact allInRange_nil
  | cons v data ih => exact (m.toBoard.allInRange_pokeAccesses addr).append (ih _ _)

/-! ## Sound states -/

/-- After the dry run of a first press, or in the middle of an instruction. -/
theorem Sound.probed (h : m.Sound) : m.probed.step.mcIndex = m.step.mcIndex ∧
    m.probed.step.mcTotal.toNat ≤ max m.step.mcIndex.toNat 6 + 1 := by
  unfold Machine.probed
  split
  · have hcount := m.mcCount_execOne
    rw [step_stepProbe]
    refine ⟨rfl, ?_⟩
    change m.execOne.2.cpu.mcCount.toNat ≤ _
    omega
  · next hzero => exact ⟨rfl, h.mcTotal.resolve_left hzero⟩

theorem Sound.allInRange_stepMachineCycleAccesses (h : m.Sound) :
    AllInRange m.stepMachineCycleAccesses := by
  obtain ⟨hindex, htotal⟩ := h.probed
  refine AllInRange.append ?_ ?_
  · split
    · exact m.allInRange_stepProbeAccesses
    · exact allInRange_nil
  · split
    · exact m.probed.allInRange_execAccesses.append
        (allInRange_panelUpdateAccesses m.probed.mcCount_execOne_le)
    · next hmore =>
      refine allInRange_singleton (show m.probed.step.mcIndex.toNat < 6 from ?_)
      rw [hindex] at hmore ⊢
      omega

theorem Sound.allInRange_loadRomAccesses (h : m.Sound) (offset : U16) (data : List U8) :
    AllInRange (m.loadRomAccesses offset data) := by
  have hsize := h.romSize
  unfold loadRomAccesses
  split
  · exact allInRange_nil
  · intro a ha
    obtain ⟨i, hi, rfl⟩ := List.mem_map.mp ha
    have hlt := List.mem_range.mp hi
    exact show offset.toNat + i < 2048 by omega

/-- **A call on a sound state** accesses nothing out of range. -/
theorem Sound.allInRange_accesses (h : m.Sound) (c : Call) : AllInRange (m.accesses fuel c) := by
  cases c with
  | loadRom offset data => exact h.allInRange_loadRomAccesses offset data
  | loadRam addr data => exact m.allInRange_loadRamAccesses addr data
  | poke addr val => exact m.toBoard.allInRange_pokeAccesses addr
  | runCycles cycles =>
    change AllInRange (if m.step.latchStep then [] else m.loopAccesses m.cpu.cycles cycles fuel)
    split
    · exact allInRange_nil
    · exact allInRange_loopAccesses h.mcCount
  | stepInstruction => exact m.allInRange_stepInstructionAccesses
  | stepMachineCycle => exact h.allInRange_stepMachineCycleAccesses
  | pressStep =>
    change AllInRange (if !m.step.latchStep then [] else
      if m.step.latchCycle then m.stepMachineCycleAccesses else m.stepInstructionAccesses)
    split
    · exact allInRange_nil
    · split
      · exact h.allInRange_stepMachineCycleAccesses
      · exact m.allInRange_stepInstructionAccesses
  | _ => exact allInRange_nil

/-- A state with the same counters, or with `mc_index` cleared. -/
theorem Sound.of_counters (h : m.Sound) (hcount : m'.cpu.mcCount.toNat ≤ 6)
    (hstep : m'.step.mcIndex = 0 ∨ m'.step.mcIndex = m.step.mcIndex ∧
      m'.step.mcTotal = m.step.mcTotal)
    (hsize : m'.romSize = m.romSize) : m'.Sound := by
  refine ⟨hcount, ?_, hsize ▸ h.romSize⟩
  rcases hstep with hzero | ⟨hindex, htotal⟩
  · exact Or.inl hzero
  · rw [hindex, htotal]
    exact h.mcTotal

theorem Sound.stepInstruction (h : m.Sound) : m.stepInstruction.2.Sound := by
  refine h.of_counters ?_ ?_ ?_
  · change (panelUpdate _).cpu.mcCount.toNat ≤ 6
    rw [cpu_panelUpdate]
    exact m.mcCount_execOne_le
  · refine Or.inl ?_
    change (panelUpdate _).step.mcIndex = 0
    rw [step_panelUpdate]
  · have hsize := congrArg (fun a : Arch => a.romSize) m.arch_stepInstruction
    have hsize' : m.stepInstruction.2.romSize = m.execOne.2.romSize := hsize
    rw [hsize', m.execOne_frame.2.2.1]

theorem Sound.stepMachineCycle (h : m.Sound) : m.stepMachineCycle.2.Sound := by
  obtain ⟨hindex, htotal⟩ := h.probed
  have hsize : m.probed.romSize = m.romSize := congrArg (fun a : Arch => a.romSize) m.arch_probed
  by_cases hlast : m.probed.step.mcTotal.toNat ≤ m.probed.step.mcIndex.toNat + 1
  · rw [stepMachineCycle_of_last hlast]
    refine h.of_counters ?_ (Or.inl rfl) ?_
    · change (panelUpdate _).cpu.mcCount.toNat ≤ 6
      rw [cpu_panelUpdate]
      exact m.probed.mcCount_execOne_le
    · rw [← hsize, ← m.probed.execOne_frame.2.2.1]
      exact congrArg (fun a : Arch => a.romSize) (arch_panelUpdate _)
  · rw [stepMachineCycle_of_more hlast]
    have hcpu : m.probed.cpu = m.cpu := congrArg Arch.cpu m.arch_probed
    refine ⟨?_, Or.inr ?_, ?_⟩
    · change m.probed.cpu.mcCount.toNat ≤ 6
      rw [hcpu]
      exact h.mcCount
    · have hbound := m.probed.step.mcTotal.isLt
      change m.probed.step.mcTotal.toNat ≤ max (m.probed.step.mcIndex + 1).toNat 6 + 1
      rw [toNat_succ (by omega), hindex]
      omega
    · change m.probed.romSize.toNat ≤ 2048
      rw [hsize]
      exact h.romSize

theorem Sound.loadRam (h : m.Sound) (addr : U16) (data : List U8) :
    (m.loadRam addr data).Sound := by
  induction data generalizing m addr with
  | nil => exact h
  | cons v data ih =>
    refine ih (m := m.poke addr v) (h.of_counters h.mcCount (Or.inr ⟨rfl, rfl⟩) ?_) (addr + 1)
    exact (busHandler_frame (.write addr v 0) m.toBoard).2.2.1

theorem Sound.loadRom (h : m.Sound) (offset : U16) (data : List U8) :
    (m.loadRom offset data).2.Sound := by
  unfold Machine.loadRom
  split
  · exact h
  · exact h.of_counters h.mcCount (Or.inr ⟨rfl, rfl⟩) rfl

theorem Sound.runCycles {cycles : U64} (h : m.Sound)
    (hcall : m.call fuel (.runCycles cycles) = some m') : m'.Sound := by
  obtain ⟨r, hrun⟩ := runCycles_of_call hcall
  rcases runCycles_cases hrun with ⟨-, -, rfl⟩ | ⟨-, m₁, hloop, -, rfl⟩
  · exact h
  · have hsound : m₁.Sound := by
      refine whileLoop_inv (P := Machine.Sound) (fun x _ hx => ?_) hloop h
      exact hx.of_counters x.mcCount_execOne_le (Or.inr ⟨rfl, rfl⟩)
        x.execOne_frame.2.2.1
    refine hsound.of_counters ?_ ?_ ?_
    · rw [cpu_panelUpdate]
      exact hsound.mcCount
    · rw [step_panelUpdate]
      exact Or.inr ⟨rfl, rfl⟩
    · exact congrArg (fun a : Arch => a.romSize) (arch_panelUpdate _)

/-- **Calls keep states sound.** -/
theorem Sound.call (h : m.Sound) {c : Call} (hcall : m.call fuel c = some m') : m'.Sound := by
  have hsame {x : Machine} (hcpu : x.cpu.mcCount = m.cpu.mcCount)
      (hstep : x.step.mcIndex = 0 ∨ x.step.mcIndex = m.step.mcIndex ∧
        x.step.mcTotal = m.step.mcTotal) (hsize : x.romSize = m.romSize) : x.Sound :=
    h.of_counters (hcpu ▸ h.mcCount) hstep hsize
  cases c with
  | loadRom offset data => cases hcall; exact h.loadRom offset data
  | loadRam addr data => cases hcall; exact h.loadRam addr data
  | poke addr val => cases hcall; exact h.loadRam addr [val]
  | runCycles cycles => exact h.runCycles hcall
  | stepInstruction => cases hcall; exact h.stepInstruction
  | stepMachineCycle => cases hcall; exact h.stepMachineCycle
  | pressStep =>
    cases hcall
    unfold Machine.pressStep
    split
    · exact h
    · split
      · exact h.stepMachineCycle
      · exact h.stepInstruction
  | reset => cases hcall; exact h.of_counters (Nat.zero_le 6) (Or.inl rfl) rfl
  | setSwitch sw latched =>
    cases hcall
    cases sw with
    | step =>
      cases latched with
      | true => exact hsame rfl (Or.inr ⟨rfl, rfl⟩) rfl
      | false => exact hsame rfl (Or.inl rfl) rfl
    | cycle => exact hsame rfl (Or.inl rfl) rfl
  | setKey col row down =>
    cases hcall
    unfold Machine.setKey
    split
    · exact hsame rfl (Or.inr ⟨rfl, rfl⟩) rfl
    · exact h
  | interrupt => cases hcall; exact hsame rfl (Or.inr ⟨rfl, rfl⟩) rfl
  | releaseAllKeys => cases hcall; exact hsame rfl (Or.inr ⟨rfl, rfl⟩) rfl
  | setPowerFault p5 m5 p12 => cases hcall; exact hsame rfl (Or.inr ⟨rfl, rfl⟩) rfl
  | displayClearAccumulator => cases hcall; exact hsame rfl (Or.inr ⟨rfl, rfl⟩) rfl
  | displaySetDigitOrder order => cases hcall; exact hsame rfl (Or.inr ⟨rfl, rfl⟩) rfl
  | displaySetPersistence tau => cases hcall; exact hsame rfl (Or.inr ⟨rfl, rfl⟩) rfl

theorem sound_init (rev : Rev) : (init rev).Sound :=
  ⟨Nat.zero_le 6, Or.inl rfl, Nat.le_refl 2048⟩

/-- A run from a sound state that loads only sound states. -/
theorem Sound.indexSafe (h : m.Sound) {as : List Api}
    (hloads : ∀ buf, .stateLoad buf ∈ as → buf.Accepted size → buf.machine.Sound) :
    m.IndexSafe size fuel as := by
  induction as generalizing m with
  | nil => trivial
  | cons a as ih =>
    have hrest {x : Machine} (hx : x.Sound) : x.IndexSafe size fuel as :=
      ih hx fun buf hbuf => hloads buf (List.mem_cons_of_mem _ hbuf)
    cases a with
    | call c => exact ⟨h.allInRange_accesses c, fun m' hm' => hrest (h.call hm')⟩
    | peek addr =>
      exact ⟨m.toMemory.allInRange_accesses addr, fun m' hm' => hrest (Option.some.inj hm' ▸ h)⟩
    | stateLoad buf =>
      refine ⟨allInRange_nil, fun m' hm' => hrest ?_⟩
      obtain rfl := Option.some.inj hm'
      by_cases hbuf : buf.Accepted size
      · rw [m.stateLoad_of_accepted hbuf]
        exact hloads buf List.mem_cons_self hbuf
      · rw [m.stateLoad_of_not_accepted hbuf]
        exact h

/-! ## Unsound states -/

/-- The panel shows a machine cycle that the trace cannot hold. -/
theorem not_indexSafe_of_mcCount (h : 6 < m.cpu.mcCount.toNat) :
    ¬ m.IndexSafe size fuel [.call (.setSwitch .step false), .call (.runCycles 0)] := by
  rintro ⟨-, hrest⟩
  obtain ⟨hrange, -⟩ := hrest _ rfl
  have hpos : (0 : U8) < m.cpu.mcCount := show 0 < m.cpu.mcCount.toNat by omega
  have hlast : m.cpu.mcCount.toNat - 1 < m.cpu.mcCount.toNat := by omega
  have hmem : (⟨.cpuTrace, m.cpu.mcCount.toNat - 1⟩ : Access) ∈
      (m.setSwitch .step false).accesses fuel (.runCycles 0) := by
    have hzero : ¬ (m.setSwitch .step false).cpu.cycles - (m.setSwitch .step false).cpu.cycles <
        (0 : U64) := BitVec.not_lt_zero
    change _ ∈ (m.setSwitch .step false).loopAccesses _ 0 fuel
    have hpanel : (m.setSwitch .step false).panelUpdateAccesses =
        [⟨.cpuTrace, m.cpu.mcCount.toNat - 1⟩] := by
      unfold panelUpdateAccesses panelShowMcAccesses
      have hpos' : 0 < (m.setSwitch .step false).cpu.mcCount := hpos
      rw [if_pos hpos']
      exact if_pos hlast
    cases fuel with
    | zero => rw [loopAccesses, if_neg hzero, hpanel]; exact List.mem_singleton_self _
    | succ n => rw [loopAccesses, if_neg hzero, hpanel]; exact List.mem_singleton_self _
  have := hrange _ hmem
  exact absurd (show m.cpu.mcCount.toNat - 1 < 6 from this) (by omega)

/-- A load writes past the end of the ROM. -/
theorem not_indexSafe_of_romSize (h : 2048 < m.romSize.toNat) :
    ¬ m.IndexSafe size fuel [.call (.loadRom 2048 [0])] := by
  rintro ⟨hrange, -⟩
  have hfits : ¬ m.romSize.toNat < (2048 : U16).toNat + [(0 : U8)].length :=
    show ¬ m.romSize.toNat < 2049 by omega
  have hmem : (⟨.rom, 2048⟩ : Access) ∈ m.accesses fuel (.loadRom 2048 [0]) := by
    change _ ∈ m.loadRomAccesses 2048 [0]
    rw [loadRomAccesses, if_neg hfits]
    exact List.mem_singleton_self _
  exact absurd (hrange _ hmem) (by decide)

theorem probed_of_ne (h : m.step.mcIndex ≠ 0) : m.probed = m := if_neg h

/-- In the middle of an instruction a press reads the cycle it shows. -/
theorem stepMachineCycleAccesses_of_more (hindex : m.step.mcIndex ≠ 0)
    (hmore : ¬ m.step.mcTotal.toNat ≤ m.step.mcIndex.toNat + 1) :
    m.stepMachineCycleAccesses = [⟨.stepTrace, m.step.mcIndex.toNat⟩] := by
  rw [stepMachineCycleAccesses, if_neg hindex, probed_of_ne hindex, if_neg hmore, List.nil_append]

/-- The presses of single-step mode run past the end of the stored trace. -/
theorem not_indexSafe_of_mcTotal {m : Machine} (hindex : m.step.mcIndex ≠ 0)
    (htotal : max m.step.mcIndex.toNat 6 + 1 < m.step.mcTotal.toNat) (k : ℕ)
    (hk : 6 ≤ m.step.mcIndex.toNat + k) :
    ¬ m.IndexSafe size fuel (List.replicate (k + 1) (.call .stepMachineCycle)) := by
  have hmore : ¬ m.step.mcTotal.toNat ≤ m.step.mcIndex.toNat + 1 := by omega
  have haccesses := stepMachineCycleAccesses_of_more hindex hmore
  rintro ⟨hrange, hrest⟩
  by_cases hpast : 6 ≤ m.step.mcIndex.toNat
  · have hmem : (⟨.stepTrace, m.step.mcIndex.toNat⟩ : Access) ∈ m.stepMachineCycleAccesses :=
      haccesses ▸ List.mem_singleton_self _
    exact absurd hpast (Nat.not_le_of_lt (hrange _ hmem))
  · cases k with
    | zero => exact hpast hk
    | succ k =>
      have hpress : m.stepMachineCycle.2 = { m.panelShowStored m.step.mcIndex.toNat with
          step := { m.step with mcIndex := m.step.mcIndex + 1 } } := by
        have hprobed := probed_of_ne hindex
        rw [stepMachineCycle_of_more (hprobed.symm ▸ hmore), hprobed]
      have hsucc : (m.step.mcIndex + 1).toNat = m.step.mcIndex.toNat + 1 := toNat_succ (by omega)
      refine not_indexSafe_of_mcTotal (m := m.stepMachineCycle.2) ?_ ?_ k ?_ (hrest _ rfl)
      · rw [hpress]
        intro hzero
        have := congrArg BitVec.toNat hzero
        change (m.step.mcIndex + 1).toNat = 0 at this
        omega
      · rw [hpress]
        change max (m.step.mcIndex + 1).toNat 6 + 1 < m.step.mcTotal.toNat
        omega
      · rw [hpress]
        change 6 ≤ (m.step.mcIndex + 1).toNat + k
        omega

/-- No state is loaded. -/
def LoadFree (as : List Api) : Prop := ∀ buf, Api.stateLoad buf ∉ as

theorem loadFree_calls (cs : List Call) : LoadFree (cs.map .call) := by
  intro buf hmem
  obtain ⟨c, -, hc⟩ := List.mem_map.mp hmem
  cases hc

/-- **The sound states** are those from which everything is in range. -/
theorem indexSafe_iff_sound :
    (∀ as, LoadFree as → m.IndexSafe size fuel as) ↔ m.Sound := by
  refine ⟨fun hsafe => ⟨?_, ?_, ?_⟩, fun h as hfree => h.indexSafe fun buf hbuf => ?_⟩
  · by_contra hcount
    exact not_indexSafe_of_mcCount (Nat.lt_of_not_le hcount)
      (hsafe _ (loadFree_calls [.setSwitch .step false, .runCycles 0]))
  · by_contra hstep
    obtain ⟨hindex, htotal⟩ := not_or.mp hstep
    refine not_indexSafe_of_mcTotal hindex (Nat.lt_of_not_le htotal) 6 (by omega) (hsafe _ ?_)
    exact loadFree_calls (List.replicate 7 .stepMachineCycle)
  · by_contra hsize
    exact not_indexSafe_of_romSize (Nat.lt_of_not_le hsize)
      (hsafe _ (loadFree_calls [.loadRom 2048 [0]]))
  · exact absurd hbuf (hfree buf)

/-- **Index safety.** From power-on, through any calls and any restored states whose counters are
within the arrays, every access is in range. -/
theorem index_safety (rev : Rev) (as : List Api)
    (hloads : ∀ buf, .stateLoad buf ∈ as → buf.Accepted size → buf.machine.Sound) :
    (init rev).IndexSafe size fuel as :=
  (sound_init rev).indexSafe hloads

/-- A machine just switched on, saved. -/
def savedInit : StateBuffer := ⟨4096, UMK_MAGIC, UMK_VERSION, init .rev1⟩

theorem index_safety_saved :
    (init .rev2).IndexSafe 4096 100 [.stateLoad savedInit, .call (.runCycles 10)] :=
  index_safety .rev2 _ fun buf hbuf _ => by
    rcases List.mem_cons.mp hbuf with heq | hbuf
    · cases heq
      exact sound_init .rev1
    · exact absurd hbuf (by simp)

/-- The same with a trace of 255 machine cycles. The loader accepts it. -/
def savedMcCount : StateBuffer :=
  { savedInit with
    machine := { init .rev1 with cpu := { (init .rev1).cpu with mcCount := 255 } } }

/-- The panel then reads the last of the 255. -/
theorem not_indexSafe_savedMcCount : savedMcCount.Accepted 4096 ∧
    ¬ (init .rev1).IndexSafe 4096 100 [.stateLoad savedMcCount, .call (.runCycles 0)] := by
  have haccepted : savedMcCount.Accepted 4096 := ⟨le_rfl, rfl, rfl⟩
  refine ⟨haccepted, fun hsafe => ?_⟩
  obtain ⟨hrange, -⟩ := hsafe.2 _ rfl
  rw [stateLoad_of_accepted _ haccepted] at hrange
  exact absurd (hrange ⟨.cpuTrace, 254⟩ (by decide)) (by decide)

end Machine

end Umk80
