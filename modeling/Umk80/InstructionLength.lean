import Mathlib.Logic.Function.Iterate
import Umk80.Disasm
import Umk80.I8080Step

/-!
# Length table, execution and disassembler agree

How long an instruction is, is written down three times: in the length table, in the operand
fetches of the interpreter, and in the disassembler. `LengthAgrees` says what the table's number
means for a step, and `lengths_agree` proves it of every opcode on every bus, for every position of
the program counter, the wrap at 0FFFFh included.

A listing made by `do_dis` of `cli/umkcli.c` therefore stays in step with the processor for as long
as no instruction transfers control.

## Main definitions

* `I8080.LengthAgrees` — what an instruction of a given length reads, and where it continues
* `disAddresses` — the addresses of a linear disassembly
* `I8080.StraightLine` — a step through the bytes that are disassembled, without a transfer

## Main results

* `umkDisasm_length` — the disassembler uses the table for every opcode
* `I8080.lengths_agree` — all three agree
-/

namespace Umk80

open Interaction

/-! ## The disassembler -/

theorem disasmFormat_isSome : ∀ op : U8, (disasmFormat op).isSome = true := by
  decide +kernel

/-- **The disassembler uses the length table** for every opcode. -/
theorem umkDisasm_length (mem : ℕ → U8) (addr size : ℕ) :
    (umkDisasm mem addr size).2 = I8080.opcodeLength (mem addr) := by
  obtain ⟨f, hf⟩ := Option.isSome_iff_exists.mp (disasmFormat_isSome (mem addr))
  simp only [umkDisasm, hf]

/-- The addresses that `do_dis` lists: `count` of them, from `addr`, in a copy of the memory. -/
def disAddresses (mem : U16 → U8) : ℕ → U16 → List U16
  | 0, _ => []
  | count + 1, addr =>
    let len := (umkDisasm (fun i => mem (BitVec.ofNat 16 i)) addr.toNat 65536).2
    addr :: disAddresses mem count (addr + BitVec.ofNat 16 len)

theorem disAddresses_succ (mem : U16 → U8) (count : ℕ) (addr : U16) :
    disAddresses mem (count + 1) addr =
      addr :: disAddresses mem count (addr + BitVec.ofNat 16 (I8080.opcodeLength (mem addr))) := by
  rw [disAddresses, umkDisasm_length, BitVec.ofNat_toNat, BitVec.setWidth_eq]

namespace I8080

/-! ## One instruction -/

/-- The reads of the `n` bytes of an instruction: a fetch, and then the operand. -/
def instructionReads (n : ℕ) (pc : U16) : List BusOp :=
  (List.range n).map fun i =>
    .read (pc + BitVec.ofNat 16 i) (if i = 0 then CYC_FETCH else CYC_MEMR)

theorem opcodeLength_cases : ∀ op : U8,
    opcodeLength op = 1 ∨ opcodeLength op = 2 ∨ opcodeLength op = 3 := by
  decide +kernel

theorem instructionReads_eq (op : U8) (pc : U16) : instructionReads (opcodeLength op) pc =
    .read pc CYC_FETCH :: operandReads (opcodeLength op) (pc + 1) := by
  rcases opcodeLength_cases op with h | h | h
  all_goals
    rw [h]
    simp [instructionReads, operandReads, List.range_succ, BitVec.add_assoc]

theorem afterOperand_eq (op : U8) (pc : U16) :
    afterOperand (opcodeLength op) (pc + 1) = pc + BitVec.ofNat 16 (opcodeLength op) := by
  rcases opcodeLength_cases op with h | h | h
  all_goals
    rw [h]
    simp [afterOperand, BitVec.add_assoc]

section Bus

variable {σ : Type} (bus : Handler BusOp BusOp.Ans σ)

/-- What the length of an instruction means for the step that executes it: its bytes are the first
that are read, all further reads are of data, the program continues after it unless control is
transferred, and the return address of a call is the address after it. -/
structure LengthAgrees (x : I8080 × σ) : Prop where
  fetched : ((stepCalls bus x).take (opcodeLength (opcodeAt bus x))).map Sigma.fst =
    instructionReads (opcodeLength (opcodeAt bus x)) x.1.pc
  data : memReads ((stepCalls bus x).drop (opcodeLength (opcodeAt bus x))) =
    (source (opcodeAt bus x)).reads x.1.toRegs (operandWord ((stepCalls bus x).drop 1))
  next : (flow (opcodeAt bus x)).transfers x.1.toRegs = false →
    (stepResult bus x).2.pc = x.1.pc + BitVec.ofNat 16 (opcodeLength (opcodeAt bus x))
  pushed : (flow (opcodeAt bus x)).pushes x.1.toRegs = true →
    memWrites (stepCalls bus x) =
      pushWrites x.1.sp (x.1.pc + BitVec.ofNat 16 (opcodeLength (opcodeAt bus x)))

theorem lengthAgrees {x : I8080 × σ} (hx : Fetches x) : LengthAgrees bus x := by
  obtain ⟨es, r, hexec, hcalls, hresult⟩ := step_of_fetches bus hx
  obtain ⟨n, hn⟩ : ∃ n, opcodeLength (opcodeAt bus x) = n + 1 := by
    rcases opcodeLength_cases (opcodeAt bus x) with h | h | h
    · exact ⟨0, h⟩
    · exact ⟨1, h⟩
    · exact ⟨2, h⟩
  have hpc := afterOperand_eq (opcodeAt bus x) x.1.pc
  refine ⟨?_, ?_, fun h => ?_, fun h => ?_⟩
  · have hoperand := hexec.effect.operand
    rw [hn, Nat.add_sub_cancel] at hoperand
    rw [instructionReads_eq, hcalls, hn]
    exact congrArg _ hoperand
  · have hdata := hexec.effect.data
    rw [hn, Nat.add_sub_cancel] at hdata
    rw [hcalls, hn]
    exact hdata
  · rw [hresult, ← hpc]
    exact hexec.effect.pc h
  · rw [hcalls, ← hpc]
    exact hexec.effect.pushed h

/-! ## Straight-line execution -/

/-- `k` steps. -/
def steps (k : ℕ) (x : I8080 × σ) : I8080 × σ := (fun y => act bus y .step)^[k] x

/-- The next step executes the instruction that stands in `mem`, and goes on to the one after. -/
structure StraightLine (mem : U16 → U8) (x : I8080 × σ) : Prop where
  fetches : Fetches x
  opcode : opcodeAt bus x = mem x.1.pc
  next : (flow (opcodeAt bus x)).transfers x.1.toRegs = false

/-- A linear disassembly visits the instructions that straight-line execution visits. -/
theorem disAddresses_eq (mem : U16 → U8) (k : ℕ) {x : I8080 × σ}
    (h : ∀ i < k, StraightLine bus mem (steps bus i x)) :
    disAddresses mem k x.1.pc = (List.range k).map fun i => (steps bus i x).1.pc := by
  induction k generalizing x with
  | zero => rfl
  | succ k ih =>
    have h₀ : StraightLine bus mem x := h 0 (Nat.succ_pos k)
    have hpc : (steps bus 1 x).1.pc = x.1.pc + BitVec.ofNat 16 (opcodeLength (mem x.1.pc)) := by
      rw [← h₀.opcode]
      exact (lengthAgrees bus h₀.fetches).next h₀.next
    have hrest := ih (x := steps bus 1 x) fun i hi => h (i + 1) (Nat.succ_lt_succ hi)
    rw [disAddresses_succ, ← hpc, hrest, List.range_succ_eq_map, List.map_cons, List.map_map]
    rfl

/-- **Length table, execution and disassembler agree**, from every state in which an instruction is
fetched and on every bus. -/
theorem lengths_agree {x : I8080 × σ} (hx : Fetches x) :
    LengthAgrees bus x ∧
      (∀ (mem : ℕ → U8) (addr size : ℕ), mem addr = opcodeAt bus x →
        (umkDisasm mem addr size).2 = opcodeLength (opcodeAt bus x)) ∧
      ∀ (mem : U16 → U8) (k : ℕ), (∀ i < k, StraightLine bus mem (steps bus i x)) →
        disAddresses mem k x.1.pc = (List.range k).map fun i => (steps bus i x).1.pc :=
  ⟨lengthAgrees bus hx, fun mem addr size h => h ▸ umkDisasm_length mem addr size,
    fun mem k h => disAddresses_eq bus mem k h⟩

/-- `LXI SP,3456H; MVI A,12H; PUSH PSW`. -/
def lxiMviPush (a : U16) : U8 := [0x31, 0x56, 0x34, 0x3E, 0x12, 0xF5].getD a.toNat 0

/-- A bus with this program behind it, which ignores what is written. -/
def lxiMviPushBus : Handler BusOp BusOp.Ans Unit
  | .read a _, _ => (lxiMviPush a, ())
  | .write _ _ _, _ => ((), ())
  | .input _, _ => (0xFF, ())
  | .output _ _, _ => ((), ())

/-- From reset, instructions of three bytes, two and one. -/
theorem lengths_agree_lxiMviPush : LengthAgrees lxiMviPushBus (reset, ()) ∧
    (umkDisasm (fun i => lxiMviPush (BitVec.ofNat 16 i)) 0 6).2 = 3 ∧
      disAddresses lxiMviPush 3 0 = [0, 3, 5] := by
  have h := lengths_agree lxiMviPushBus (x := (reset, ())) ⟨rfl, rfl⟩
  refine ⟨h.1, h.2.1 _ 0 6 rfl, ?_⟩
  have hstraight : ∀ i < 3, StraightLine lxiMviPushBus lxiMviPush
      (steps lxiMviPushBus i (reset, ())) := by
    rintro (_ | _ | _ | i) hi
    · exact ⟨⟨rfl, rfl⟩, rfl, rfl⟩
    · exact ⟨⟨rfl, rfl⟩, rfl, rfl⟩
    · exact ⟨⟨rfl, rfl⟩, rfl, rfl⟩
    · omega
  exact h.2.2 _ 3 hstraight

end Bus

end I8080

end Umk80
