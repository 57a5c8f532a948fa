import Mathlib.Tactic.Common
import Umk80.I8080Effect
import Umk80.Lib.Overlay
import Umk80.MachineCycle

/-!
# What memory holds

RAM is written by the debugger, by loads and by programs, and a dry run writes it behind the
decoder's back when it is undone. To a reader none of this matters: a RAM address holds what was
last written to its cell. The writes of a run are collected call by call, those of a dry run left
out, and each is an overlay of one cell, so the law is the one about overlays.

On a board of the first revision two addresses share a cell if they are congruent modulo 400h.

## Main definitions

* `Machine.writes`, `Machine.writesAll` — the writes that a call and a run make
* `SameCell` — addresses that decode to the same RAM cell
* `Machine.MemoryLaw` — what holds of memory after a run

## Main results

* `Machine.callStores` — a call writes its writes into RAM, and only `umk_load_rom` changes ROM
* `Machine.memoryLaw` — the law, for both revisions and every run
-/

namespace Umk80

open Interaction Overlay WhileLoop

/-! ## Writes as overlays -/

/-- The RAM index of an address. -/
def ramIndex (ramSize : U16) (addr : U16) : Option (Fin 2048) :=
  if h : RAM_BASE + RAM_MAX ≤ addr then none
  else if h' : addr < RAM_BASE then none
  else some ⟨(addr - RAM_BASE &&& (ramSize - 1)).toNat, and_lt_2048 (sub_base_lt h h') _⟩

/-- A write, as an overlay of the RAM. -/
def writeOverlay (ramSize : U16) (w : U16 × U8) (i : Fin 2048) : Option U8 :=
  if ramIndex ramSize w.1 = some i then some w.2 else none

/-- The RAM after some writes. -/
def storeAll (ramSize : U16) (ws : List (U16 × U8)) (ram : Fin 2048 → U8) : Fin 2048 → U8 :=
  (ws.map (writeOverlay ramSize)).foldl overlay ram

theorem storeAll_append (ramSize : U16) (ws ws' : List (U16 × U8)) (ram : Fin 2048 → U8) :
    storeAll ramSize (ws ++ ws') ram = storeAll ramSize ws' (storeAll ramSize ws ram) := by
  rw [storeAll, List.map_append, List.foldl_append]
  rfl

theorem overlay_writeOverlay_of_none {ramSize : U16} {w : U16 × U8}
    (h : ramIndex ramSize w.1 = none) (ram : Fin 2048 → U8) :
    overlay ram (writeOverlay ramSize w) = ram := by
  funext i
  simp [overlay, writeOverlay, h]

theorem overlay_writeOverlay_of_some {ramSize : U16} {w : U16 × U8} {i : Fin 2048}
    (h : ramIndex ramSize w.1 = some i) (ram : Fin 2048 → U8) :
    overlay ram (writeOverlay ramSize w) = Function.update ram i w.2 := by
  rw [← overlay_single]
  congr 1
  funext j
  simp [writeOverlay, h, eq_comm]

/-- A write through the address decoder is an overlay. -/
theorem Memory.written_eq (mem : Memory) (addr : U16) (val : U8) :
    mem.written addr val = overlay mem.ram (writeOverlay mem.ramSize (addr, val)) := by
  unfold written decode
  by_cases h : RAM_BASE + RAM_MAX ≤ addr
  · rw [overlay_writeOverlay_of_none (by simp [ramIndex, h])]
    simp [h]
  · by_cases h' : addr < RAM_BASE
    · rw [overlay_writeOverlay_of_none (by simp [ramIndex, h, h'])]
      simp [h, h']
    · rw [overlay_writeOverlay_of_some (by simp only [ramIndex, dif_neg h, dif_neg h']; rfl)]
      simp [h, h']

/-- The writes among some bus calls. -/
def writesOf (es : List BusEvent) : List (U16 × U8) := (memWrites es).map fun w => (w.1, w.2.1)

/-- **RAM after a run of processor code** is RAM with the writes of the run. -/
theorem ram_run {α : Type} (p : Prog BusOp BusOp.Ans α) (b : Board) :
    (p.run busHandler b).2.ram = storeAll b.ramSize (writesOf (p.runLog busHandler b)) b.ram := by
  have hfold := Prog.run_foldl busHandler (fun b : Board => (b.ramSize, b.ram))
    (fun x e => (x.1, storeAll x.1 (writesOf [e]) x.2)) ?_ p b
  · have hwrites : ∀ (es : List BusEvent) (x : U16 × (Fin 2048 → U8)),
        es.foldl (fun x e => (x.1, storeAll x.1 (writesOf [e]) x.2)) x =
          (x.1, storeAll x.1 (writesOf es) x.2) := by
      intro es
      induction es with
      | nil => exact fun x => rfl
      | cons e es ih =>
        intro x
        have hcons : writesOf (e :: es) = writesOf [e] ++ writesOf es := by
          rw [writesOf, ← List.singleton_append, memWrites, List.filterMap_append, List.map_append]
          rfl
        rw [List.foldl_cons, ih, hcons, storeAll_append]
    rw [hwrites] at hfold
    exact congrArg Prod.snd hfold
  · intro o b
    obtain ⟨-, -, -, hsize⟩ := busHandler_frame o b
    rw [hsize]
    cases o with
    | read addr st => rfl
    | write addr val st =>
      change (_, ((b.poke addr val).toChips).ram) = _
      rw [Board.toChips_poke]
      exact congrArg _ (Memory.written_eq _ _ _)
    | input port => rfl
    | output port val =>
      obtain ⟨ppi, display, dbgPort, unmapped, h⟩ := b.toChips.busOut_eq port val
      simp only [busHandler, h]
      rfl

/-! ## The writes of a call -/

/-- The writes of a load, one byte after the other. -/
def loadWrites : U16 → List U8 → List (U16 × U8)
  | _, [] => []
  | addr, v :: data => (addr, v) :: loadWrites (addr + 1) data

/-- A call that loads ROM. -/
def Call.isLoadRom : Call → Bool
  | .loadRom _ _ => true
  | _ => false

namespace Machine

variable {fuel : ℕ} {m m' : Machine}

/-- The writes of the next instruction. -/
def instructionWrites (m : Machine) : List (U16 × U8) :=
  writesOf ((I8080.step.run m.cpu).runLog busHandler m.started)

/-- The writes of the instructions of `runCycles`. -/
def runWrites (start cycles : U64) : ℕ → Machine → List (U16 × U8)
  | 0, _ => []
  | n + 1, m =>
    if m.cpu.cycles - start < cycles then
      m.instructionWrites ++ runWrites start cycles n m.execOne.2
    else []

/-- The writes of a press with КМ/ЦК latched: those of the instruction, if it completes it. -/
def cycleWrites (m : Machine) : List (U16 × U8) :=
  if m.stepMachineCycle.1 then m.probed.instructionWrites else []

/-- The writes that a call makes. What a dry run writes is undone, and is no write. -/
def writes (fuel : ℕ) (m : Machine) : Call → List (U16 × U8)
  | .poke addr val => [(addr, val)]
  | .loadRam addr data => loadWrites addr data
  | .stepInstruction => m.instructionWrites
  | .stepMachineCycle => m.cycleWrites
  | .pressStep =>
    if !m.step.latchStep then []
    else if m.step.latchCycle then m.cycleWrites
    else m.instructionWrites
  | .runCycles cycles =>
    if m.step.latchStep then [] else m.runWrites m.cpu.cycles cycles fuel
  | _ => []

/-- The writes of a run. -/
def writesAll (fuel : ℕ) : Machine → List Call → List (U16 × U8)
  | _, [] => []
  | m, c :: cs => m.writes fuel c ++ (m.call fuel c).elim [] fun m' => m'.writesAll fuel cs

/-- What some code does to memory: RAM holds its writes, and ROM is as it was. -/
structure Stores (m m' : Machine) (ws : List (U16 × U8)) : Prop where
  rev : m'.rev = m.rev
  ramSize : m'.ramSize = m.ramSize
  romSize : m'.romSize = m.romSize
  rom : m'.rom = m.rom
  ram : m'.ram = storeAll m.ramSize ws m.ram

/-- Code that leaves memory alone. -/
theorem Stores.of_memory (hrev : m'.rev = m.rev) (hmem : m'.toMemory = m.toMemory) :
    Stores m m' [] :=
  ⟨hrev, congrArg Memory.ramSize hmem, congrArg Memory.romSize hmem, congrArg Memory.rom hmem,
    congrArg Memory.ram hmem⟩

theorem Stores.trans {m'' : Machine} {ws ws' : List (U16 × U8)} (h : Stores m m' ws)
    (h' : Stores m' m'' ws') : Stores m m'' (ws ++ ws') := by
  refine ⟨by rw [h'.rev, h.rev], by rw [h'.ramSize, h.ramSize], by rw [h'.romSize, h.romSize],
    by rw [h'.rom, h.rom], ?_⟩
  rw [h'.ram, h.ramSize, h.ram, storeAll_append]

/-- Memory left alone afterwards. -/
theorem Stores.then {m'' : Machine} {ws : List (U16 × U8)} (h : Stores m m' ws)
    (hrev : m''.rev = m'.rev) (hmem : m''.toMemory = m'.toMemory) : Stores m m'' ws := by
  have := h.trans (Stores.of_memory hrev hmem)
  rwa [List.append_nil] at this

theorem stores_poke (m : Machine) (addr : U16) (val : U8) :
    Stores m (m.poke addr val) [(addr, val)] := by
  have hmem : (m.poke addr val).toMemory =
      ⟨m.romSize, m.ramSize, m.rom, m.toMemory.written addr val⟩ :=
    congrArg Chips.toMemory (m.toBoard.toChips_poke addr val)
  constructor
  · rfl
  all_goals rw [hmem]
  exact Memory.written_eq _ _ _

theorem stores_loadRam (m : Machine) (addr : U16) (data : List U8) :
    Stores m (m.loadRam addr data) (loadWrites addr data) := by
  induction data generalizing m addr with
  | nil => exact Stores.of_memory rfl rfl
  | cons v data ih => exact (m.stores_poke addr v).trans (ih _ _)

theorem stores_execOne (m : Machine) : Stores m m.execOne.2 m.instructionWrites := by
  obtain ⟨-, hrom, hromSize, hramSize⟩ := m.execOne_frame
  exact ⟨rfl, hramSize, hromSize, hrom, ram_run (I8080.step.run m.cpu) m.started⟩

theorem rev_panelUpdate (m : Machine) : m.panelUpdate.rev = m.rev := by
  obtain ⟨panel, h⟩ := m.panelUpdate_eq
  rw [h]

theorem stores_stepInstruction (m : Machine) :
    Stores m m.stepInstruction.2 m.instructionWrites :=
  m.stores_execOne.then (rev_panelUpdate _) (congrArg Arch.toMemory m.arch_stepInstruction)

theorem stores_probed (m : Machine) : Stores m m.probed [] := by
  refine Stores.of_memory ?_ (congrArg Arch.toMemory m.arch_probed)
  unfold probed
  split
  · rfl
  · rfl

theorem stores_stepMachineCycle (m : Machine) :
    Stores m m.stepMachineCycle.2 m.cycleWrites := by
  by_cases h : m.probed.step.mcTotal.toNat ≤ m.probed.step.mcIndex.toNat + 1
  · rw [cycleWrites, stepMachineCycle_of_last h, if_pos rfl]
    exact (m.stores_probed.trans m.probed.stores_execOne).then (rev_panelUpdate _)
      (congrArg Arch.toMemory (arch_panelUpdate _))
  · rw [cycleWrites, stepMachineCycle_of_more h, if_neg Bool.false_ne_true]
    exact m.stores_probed.then rfl rfl

theorem stores_pressStep (m : Machine) : Stores m m.pressStep (m.writes fuel .pressStep) := by
  change Stores m m.pressStep (if !m.step.latchStep then [] else
    if m.step.latchCycle then m.cycleWrites else m.instructionWrites)
  cases hl : m.step.latchStep with
  | false =>
    rw [pressStep, hl]
    exact Stores.of_memory rfl rfl
  | true =>
    cases hc : m.step.latchCycle with
    | false =>
      rw [pressStep_of_instruction hl hc]
      exact m.stores_stepInstruction
    | true =>
      rw [pressStep_of_cycle hl hc]
      exact m.stores_stepMachineCycle

theorem stores_whileLoop {start cycles : U64}
    (h : whileLoop (fun m' => m'.cpu.cycles - start < cycles) (·.execOne.2) fuel m = some m') :
    Stores m m' (m.runWrites start cycles fuel) := by
  induction fuel generalizing m with
  | zero =>
    rw [whileLoop] at h
    split at h
    · cases h
    · cases h
      exact Stores.of_memory rfl rfl
  | succ n ih =>
    rw [whileLoop] at h
    by_cases hcond : m.cpu.cycles - start < cycles
    · rw [if_pos (by simpa using hcond)] at h
      rw [runWrites, if_pos hcond]
      exact m.stores_execOne.trans (ih h)
    · rw [if_neg (by simpa using hcond)] at h
      cases h
      rw [runWrites, if_neg hcond]
      exact Stores.of_memory rfl rfl

theorem stores_runCycles {cycles : U64} (h : m.call fuel (.runCycles cycles) = some m') :
    Stores m m' (m.writes fuel (.runCycles cycles)) := by
  change Stores m m' (if m.step.latchStep then [] else m.runWrites m.cpu.cycles cycles fuel)
  obtain ⟨r, hrun⟩ := runCycles_of_call h
  rcases runCycles_cases hrun with ⟨hl, -, rfl⟩ | ⟨hl, m₁, hloop, -, rfl⟩
  · rw [hl, if_pos rfl]
    exact Stores.of_memory rfl rfl
  · rw [hl, if_neg Bool.false_ne_true]
    exact (stores_whileLoop hloop).then (rev_panelUpdate _)
      (congrArg Arch.toMemory (arch_panelUpdate _))

/-- **A call** that does not load ROM leaves it alone, and writes its writes into RAM. -/
theorem stores_call {c : Call} (hc : c.isLoadRom = false) (h : m.call fuel c = some m') :
    Stores m m' (m.writes fuel c) := by
  cases c with
  | loadRom offset data => cases hc
  | loadRam addr data => cases h; exact m.stores_loadRam addr data
  | poke addr val => cases h; exact m.stores_poke addr val
  | runCycles cycles => exact stores_runCycles h
  | stepInstruction => cases h; exact m.stores_stepInstruction
  | stepMachineCycle => cases h; exact m.stores_stepMachineCycle
  | pressStep => cases h; exact m.stores_pressStep
  | setSwitch sw latched =>
    cases h
    cases sw with
    | step => exact Stores.of_memory rfl rfl
    | cycle => exact Stores.of_memory rfl rfl
  | setKey col row down =>
    cases h
    refine Stores.of_memory ?_ ?_
    · unfold setKey
      split
      · rfl
      · rfl
    · unfold setKey
      split
      · rfl
      · rfl
  | reset => cases h; exact Stores.of_memory rfl rfl
  | interrupt => cases h; exact Stores.of_memory rfl rfl
  | releaseAllKeys => cases h; exact Stores.of_memory rfl rfl
  | setPowerFault p5 m5 p12 => cases h; exact Stores.of_memory rfl rfl
  | displayClearAccumulator => cases h; exact Stores.of_memory rfl rfl
  | displaySetDigitOrder order => cases h; exact Stores.of_memory rfl rfl
  | displaySetPersistence tau => cases h; exact Stores.of_memory rfl rfl

/-- Loading ROM leaves RAM and the sizes alone. -/
theorem ram_loadRom (m : Machine) (offset : U16) (data : List U8) :
    (m.loadRom offset data).2.rev = m.rev ∧ (m.loadRom offset data).2.ramSize = m.ramSize ∧
      (m.loadRom offset data).2.ram = m.ram := by
  unfold loadRom
  split
  · exact ⟨rfl, rfl, rfl⟩
  · exact ⟨rfl, rfl, rfl⟩

/-- RAM after a call, whatever the call is. -/
theorem ram_call {c : Call} (h : m.call fuel c = some m') : m'.rev = m.rev ∧
    m'.ramSize = m.ramSize ∧ m'.ram = storeAll m.ramSize (m.writes fuel c) m.ram := by
  by_cases hc : c.isLoadRom = false
  · have hs := stores_call hc h
    exact ⟨hs.rev, hs.ramSize, hs.ram⟩
  · cases c with
    | loadRom offset data => cases h; exact m.ram_loadRom offset data
    | _ => exact absurd rfl hc

/-- **RAM after a run** holds the writes of the run. -/
theorem ram_calls {cs : List Call} (h : m.calls fuel cs = some m') : m'.rev = m.rev ∧
    m'.ramSize = m.ramSize ∧ m'.ram = storeAll m.ramSize (m.writesAll fuel cs) m.ram := by
  induction cs generalizing m with
  | nil =>
    cases h
    exact ⟨rfl, rfl, rfl⟩
  | cons c cs ih =>
    obtain ⟨m₁, hcall, hrest⟩ := Option.bind_eq_some_iff.mp h
    obtain ⟨hrev, hsize, hram⟩ := ram_call hcall
    obtain ⟨hrev', hsize', hram'⟩ := ih hrest
    refine ⟨by rw [hrev', hrev], by rw [hsize', hsize], ?_⟩
    rw [hram', hsize, hram, writesAll, hcall, storeAll_append]
    rfl

/-- Only `umk_load_rom` changes ROM. -/
theorem rom_calls {cs : List Call} (hcs : ∀ c ∈ cs, c.isLoadRom = false)
    (h : m.calls fuel cs = some m') : m'.rom = m.rom ∧ m'.romSize = m.romSize := by
  induction cs generalizing m with
  | nil =>
    cases h
    exact ⟨rfl, rfl⟩
  | cons c cs ih =>
    obtain ⟨m₁, hcall, hrest⟩ := Option.bind_eq_some_iff.mp h
    have hs := stores_call (hcs c List.mem_cons_self) hcall
    obtain ⟨hrom, hsize⟩ := ih (fun d hd => hcs d (List.mem_cons_of_mem _ hd)) hrest
    exact ⟨by rw [hrom, hs.rom], by rw [hsize, hs.romSize]⟩

/-! ## The law -/

end Machine

/-- The addresses that decode to the same RAM cell: on revision 1 those that are congruent modulo
400h within the RAM region, on revision 2 no two. -/
def SameCell (rev : Rev) (a b : U16) : Prop :=
  RAM_BASE ≤ b ∧ b < RAM_BASE + RAM_MAX ∧
    if rev = .rev1 then a.toNat % 0x400 = b.toNat % 0x400 else a = b

instance (rev : Rev) (a b : U16) : Decidable (SameCell rev a b) := by
  unfold SameCell
  infer_instance

/-- The value last written to the cell of `a`. -/
def lastWritten (rev : Rev) (a : U16) (ws : List (U16 × U8)) : Option U8 :=
  (ws.filterMap fun w => if SameCell rev a w.1 then some w.2 else none).getLast?

/-- The RAM of a board. -/
def ramSizeOf (rev : Rev) : U16 := if rev = .rev1 then 1024 else RAM_MAX

theorem ramIndex_of_ram (ramSize : U16) {a : U16} (h : RAM_BASE ≤ a)
    (h' : a < RAM_BASE + RAM_MAX) : ∃ hlt, ramIndex ramSize a =
      some ⟨(a - RAM_BASE &&& (ramSize - 1)).toNat, hlt⟩ := by
  have hno : ¬ RAM_BASE + RAM_MAX ≤ a := BitVec.not_le.mpr h'
  have hno' : ¬ a < RAM_BASE := BitVec.not_lt.mpr h
  exact ⟨_, by rw [ramIndex, dif_neg hno, dif_neg hno']⟩

/-- The RAM index of an address is its offset, modulo the size of the RAM. -/
theorem toNat_index (rev : Rev) {a : U16} (h : RAM_BASE ≤ a) :
    (a - RAM_BASE &&& (ramSizeOf rev - 1)).toNat =
      (a.toNat - 0x800) % (if rev = .rev1 then 0x400 else 0x800) := by
  have hsub : (a - RAM_BASE).toNat = a.toNat - 0x800 := BitVec.toNat_sub_of_le h
  rw [BitVec.toNat_and, hsub]
  cases rev with
  | rev1 => exact Nat.and_two_pow_sub_one_eq_mod _ 10
  | rev2 => exact Nat.and_two_pow_sub_one_eq_mod _ 11

/-- Two addresses have the same RAM index exactly if they share a cell. -/
theorem ramIndex_eq_iff (rev : Rev) {a b : U16} (h : RAM_BASE ≤ a) (h' : a < RAM_BASE + RAM_MAX) :
    ramIndex (ramSizeOf rev) b = ramIndex (ramSizeOf rev) a ↔ SameCell rev a b := by
  obtain ⟨hlt, ha⟩ := ramIndex_of_ram (ramSizeOf rev) h h'
  rw [ha]
  by_cases hb : RAM_BASE ≤ b ∧ b < RAM_BASE + RAM_MAX
  · obtain ⟨hlt', hb'⟩ := ramIndex_of_ram (ramSizeOf rev) hb.1 hb.2
    have hanat : 0x800 ≤ a.toNat := h
    have hanat' : a.toNat < 0x1000 := h'
    have hbnat : 0x800 ≤ b.toNat := hb.1
    have hbnat' : b.toNat < 0x1000 := hb.2
    rw [hb', Option.some.injEq, Fin.mk.injEq, toNat_index rev h, toNat_index rev hb.1]
    cases rev with
    | rev1 =>
      simp only [SameCell, hb, if_true, true_and]
      omega
    | rev2 =>
      simp only [SameCell, hb, true_and, reduceCtorEq, if_false]
      rw [← BitVec.toNat_inj]
      omega
  · have hnone : ramIndex (ramSizeOf rev) b = none := by
      unfold ramIndex
      split
      · rfl
      · next hno =>
        rw [dif_pos]
        by_contra hno'
        exact hb ⟨BitVec.not_lt.mp hno', BitVec.not_le.mp hno⟩
    rw [hnone]
    exact iff_of_false nofun fun hsame => hb ⟨hsame.1, hsame.2.1⟩

theorem Memory.peek_of_ram (mem : Memory) {a : U16} {i : Fin 2048}
    (h : ramIndex mem.ramSize a = some i) : mem.peek a = mem.ram i := by
  unfold ramIndex at h
  split at h
  · cases h
  · next hno =>
    split at h
    · cases h
    · next hno' =>
      rw [← Option.some.inj h, peek, decode, dif_neg hno, dif_neg hno']

namespace Machine

variable {fuel : ℕ} {m m' : Machine}

/-- What holds of memory after a run from `m` to `m'`. -/
structure MemoryLaw (rev : Rev) (fuel : ℕ) (m : Machine) (cs : List Call) (m' : Machine) :
    Prop where
  /-- A RAM address holds the value last written to its cell, or else the initial one. -/
  ram : ∀ a, RAM_BASE ≤ a → a < RAM_BASE + RAM_MAX →
    m'.peek a = (lastWritten rev a (m.writesAll fuel cs)).getD (m.peek a)
  /-- Writes outside the RAM region, of the debugger and of programs, change nothing. -/
  ignored : ∀ addr val, addr < RAM_BASE ∨ RAM_BASE + RAM_MAX ≤ addr →
    m'.poke addr val = m' ∧ ∀ st, (busHandler (.write addr val st) m'.toBoard).2 = m'.toBoard
  unmapped : ∀ a, RAM_BASE + RAM_MAX ≤ a → m'.peek a = 0xFF
  /-- Only `umk_load_rom` changes a ROM byte. -/
  rom : (∀ c ∈ cs, c.isLoadRom = false) → m'.rom = m.rom ∧ ∀ a < RAM_BASE, m'.peek a = m.peek a

theorem poke_eq_self (b : Board) {addr : U16} (h : addr < RAM_BASE ∨ RAM_BASE + RAM_MAX ≤ addr)
    (val : U8) : b.poke addr val = b := by
  unfold Board.poke Memory.decode
  by_cases hhigh : RAM_BASE + RAM_MAX ≤ addr
  · simp [hhigh]
  · have hlow : addr < RAM_BASE := h.resolve_right hhigh
    simp [hhigh, hlow]

theorem peek_of_high (mem : Memory) {a : U16} (h : RAM_BASE + RAM_MAX ≤ a) : mem.peek a = 0xFF := by
  simp [Memory.peek, Memory.decode, h]

theorem peek_of_rom {mem mem' : Memory} (hrom : mem'.rom = mem.rom)
    (hsize : mem'.romSize = mem.romSize) {a : U16} (h : a < RAM_BASE) :
    mem'.peek a = mem.peek a := by
  have hlow : ¬ RAM_BASE + RAM_MAX ≤ a := by
    have : a.toNat < 0x800 := h
    exact fun hle => absurd (show 0x1000 ≤ a.toNat from hle) (by omega)
  simp only [Memory.peek, Memory.decode, dif_neg hlow, dif_pos h, hrom, hsize]

theorem ramSize_calls {rev : Rev} {cs : List Call} (h : (init rev).calls fuel cs = some m) :
    m.ramSize = ramSizeOf rev := (ram_calls h).2.1

/-- **Memory semantics**, for both revisions: any run from power-on to `m`, and any run from there
to `m'`. -/
theorem memoryLaw (rev : Rev) (fuel : ℕ) (pre cs : List Call) (m m' : Machine)
    (hpre : (init rev).calls fuel pre = some m) (hcs : m.calls fuel cs = some m') :
    MemoryLaw rev fuel m cs m' := by
  have hsize := ramSize_calls hpre
  obtain ⟨-, hsize', hram⟩ := ram_calls hcs
  refine ⟨fun a h h' => ?_, fun addr val h => ?_, fun a h => peek_of_high _ h, fun hno => ?_⟩
  · obtain ⟨hlt, hindex⟩ := ramIndex_of_ram (ramSizeOf rev) h h'
    have hindexm : ramIndex m.ramSize a = some _ :=
      calc ramIndex m.ramSize a = ramIndex (ramSizeOf rev) a := by rw [hsize]
        _ = _ := hindex
    have hindexm' : ramIndex m'.ramSize a = some _ :=
      calc ramIndex m'.ramSize a = ramIndex m.ramSize a := by rw [hsize']
        _ = _ := hindexm
    rw [m.toMemory.peek_of_ram hindexm, m'.toMemory.peek_of_ram hindexm', hram, storeAll,
      foldl_overlay, lastOver, lastWritten, List.filterMap_map]
    congr 3
    funext w
    rw [Function.comp_apply, writeOverlay, hsize, ← hindex]
    simp only [ramIndex_eq_iff rev h h']
  · have hpoke := poke_eq_self m'.toBoard h val
    refine ⟨?_, fun st => hpoke⟩
    rw [poke, hpoke]
  · obtain ⟨hrom, hromSize⟩ := rom_calls hno hcs
    exact ⟨hrom, fun a h => peek_of_rom hrom hromSize h⟩

/-- On revision 1 a byte written at 0C05h is read at 0805h. -/
theorem memoryLaw_mirror : ∃ m', (init .rev1).calls 0 [.poke 0x0C05 0x5A] = some m' ∧
    m'.peek 0x0805 = 0x5A :=
  ⟨_, rfl,
    (memoryLaw .rev1 0 [] [.poke 0x0C05 0x5A] _ _ rfl rfl).ram 0x0805 (by decide) (by decide)⟩

end Machine

end Umk80
