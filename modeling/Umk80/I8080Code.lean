import Mathlib.Tactic.Common
import Umk80.I8080

/-!
# The shape of processor code

All but four of the 256 opcodes are built from the same few pieces: read the registers, compute
on the registers, and drive one logged bus cycle that reads memory, writes memory or writes a
port. `Code n p` says that `p` is built from these with at most `n` bus cycles on any path. The
opcodes left out are DI, EI and HLT, which move the interrupt state, and IN, whose answer comes
from a port.

`execute_code` walks the 256 opcodes once. What holds of every piece and survives sequencing
then holds of every opcode by induction on `Code`, with no further case analysis.

## Main definitions

* `I8080.Code` — processor code with a bound on its bus cycles

## Main results

* `I8080.execute_code` — every opcode but DI, EI, HLT and IN is `Code 4`
* `I8080.execute_in` — the one of the others that uses the bus
-/

namespace Umk80

open Interaction

namespace I8080

/-- Processor code: register reads and updates, and at most `n` logged bus cycles. -/
inductive Code : {α : Type} → ℕ → CpuM α → Prop
  | pure {α : Type} (n : ℕ) (a : α) : Code n (pure a : CpuM α)
  | regs (n : ℕ) : Code n regs
  | modifyRegs (n : ℕ) (g : Regs → Regs) : Code n (modifyRegs g)
  | busRd (n : ℕ) (a : U16) (st : U8) : Code (n + 1) (busRd a st)
  | busWr (n : ℕ) (a : U16) (v st : U8) : Code (n + 1) (busWr a v st)
  | busOut (n : ℕ) (port v : U8) : Code (n + 1) (busOut port v)
  | bind {α β : Type} {m n : ℕ} {p : CpuM α} {f : α → CpuM β} (hp : Code m p)
      (hf : ∀ a, Code n (f a)) : Code (m + n) (p >>= f)

namespace Code

variable {α β : Type} {n : ℕ}

theorem regs_bind {f : Regs → CpuM β} (hf : ∀ r, Code n (f r)) : Code n (I8080.regs >>= f) := by
  simpa using bind (regs 0) hf

theorem modifyRegs_bind {g : Regs → Regs} {f : Unit → CpuM β} (hf : ∀ u, Code n (f u)) :
    Code n (I8080.modifyRegs g >>= f) := by
  simpa using bind (modifyRegs 0 g) hf

theorem bind_of_le {m k : ℕ} {p : CpuM α} {f : α → CpuM β} (hp : Code m p)
    (hf : ∀ a, Code k (f a)) (h : m + k = n) : Code n (p >>= f) :=
  h ▸ bind hp hf

theorem ite {c : Prop} [Decidable c] {p q : CpuM α} (hp : Code n p) (hq : Code n q) :
    Code n (if c then p else q) := by
  split
  · exact hp
  · exact hq

theorem fetch8 : Code 1 fetch8 :=
  regs_bind fun _ => modifyRegs_bind fun _ => busRd 0 _ _

theorem fetch16 : Code 2 fetch16 :=
  bind fetch8 fun _ => bind fetch8 fun _ => pure 0 _

theorem push16 (v : U16) : Code 2 (push16 v) :=
  regs_bind fun _ => bind (busWr 0 _ _ _) fun _ => regs_bind fun _ =>
    bind (busWr 0 _ _ _) fun _ => modifyRegs 0 _

theorem pop16 : Code 2 pop16 :=
  regs_bind fun _ => bind (busRd 0 _ _) fun _ => regs_bind fun _ =>
    bind (busRd 0 _ _) fun _ => modifyRegs_bind fun _ => pure 0 _

theorem regGet (i : U8) : Code 1 (regGet i) := by
  refine regs_bind fun r => ?_
  split
  all_goals first | exact pure 1 _ | exact busRd 0 _ _

theorem regSet (i v : U8) : Code 1 (regSet i v) := by
  unfold I8080.regSet
  split
  all_goals first | exact modifyRegs 1 _ | exact regs_bind fun _ => busWr 0 _ _ _

theorem aluInr (i : U8) : Code 2 (aluInr i) :=
  bind (regGet i) fun _ => modifyRegs_bind fun _ => regSet i _

theorem aluDcr (i : U8) : Code 2 (aluDcr i) :=
  bind (regGet i) fun _ => modifyRegs_bind fun _ => regSet i _

end Code

/-- The regular blocks make at most four bus cycles: a conditional CALL reads its target and
pushes the return address. -/
theorem executeBlock_code (op : U8) (cyc : ℕ) : Code 4 (executeBlock op cyc) := by
  have hmov : ∀ d s, Code 4 (do regSet d (← regGet s); return cyc) := fun d s =>
    .bind_of_le (.regGet s) (fun _ => .bind_of_le (.regSet d _) (fun _ => .pure 2 _) rfl) rfl
  have halu : ∀ o s, Code 4 (do let v ← regGet s; modifyRegs (·.aluOp o v); return cyc) :=
    fun o s => .bind_of_le (.regGet s) (fun _ => .modifyRegs_bind fun _ => .pure 3 _) rfl
  have hmvi : ∀ d, Code 4 (do let imm ← fetch8; regSet d imm; return cyc) := fun d =>
    .bind_of_le .fetch8 (fun _ => .bind_of_le (.regSet d _) (fun _ => .pure 2 _) rfl) rfl
  have halui : ∀ o, Code 4 (do let v ← fetch8; modifyRegs (·.aluOp o v); return cyc) :=
    fun o => .bind_of_le .fetch8 (fun _ => .modifyRegs_bind fun _ => .pure 3 _) rfl
  refine .ite (hmov _ _) <| .ite (halu _ _) <| .ite ?inr <| .ite ?dcr <| .ite (hmvi _) <|
    .ite (halui _) <| .ite ?rst <| .ite ?jcc <| .ite ?ccc <| .ite ?rcc (.pure 4 _)
  case inr => exact .bind_of_le (.aluInr _) (fun _ => .pure 2 _) rfl
  case dcr => exact .bind_of_le (.aluDcr _) (fun _ => .pure 2 _) rfl
  case rst =>
    exact .regs_bind fun _ => .bind_of_le (.push16 _)
      (fun _ => .modifyRegs_bind fun _ => .pure 2 _) rfl
  case jcc =>
    exact .bind_of_le .fetch16 (fun _ => .regs_bind fun _ =>
      .ite (.modifyRegs_bind fun _ => .pure 2 _) (.pure 2 _)) rfl
  case ccc =>
    exact .bind_of_le .fetch16 (fun _ => .regs_bind fun _ => .ite
      (.regs_bind fun _ => .bind_of_le (.push16 _)
        (fun _ => .modifyRegs_bind fun _ => .pure 0 _) rfl) (.pure 2 _)) rfl
  case rcc =>
    exact .regs_bind fun _ => .ite
      (.bind_of_le .pop16 (fun _ => .modifyRegs_bind fun _ => .pure 2 _) rfl) (.pure 4 _)

theorem execute_in :
    execute 0xDB = do
      let v ← busIn (← fetch8)
      modifyRegs fun r => { r with a := v }
      return 10 := rfl

/-- **The one walk over the opcodes.** -/
theorem execute_code {op : U8} (hdi : op ≠ 0xF3) (hei : op ≠ 0xFB) (hhlt : op ≠ 0x76)
    (hin : op ≠ 0xDB) : Code 4 (execute op) := by
  unfold execute
  split
  all_goals with_reducible first
    -- the opcodes left out, and the regular blocks
    | contradiction
    | exact executeBlock_code _ _
    -- register instructions, then one or two memory cycles through a pair
    | exact .pure 4 _
    | exact .modifyRegs_bind fun _ => .pure 4 _
    | exact .regs_bind fun _ => .modifyRegs_bind fun _ => .modifyRegs_bind fun _ => .pure 4 _
    | exact .regs_bind fun _ => .regs_bind fun _ => .modifyRegs_bind fun _ =>
        .modifyRegs_bind fun _ => .pure 4 _
    | exact .regs_bind fun _ => .regs_bind fun _ => .bind_of_le (.busWr 0 _ _ _)
        (fun _ => .pure 3 _) rfl
    | exact .regs_bind fun _ => .bind_of_le (.busRd 0 _ _)
        (fun _ => .modifyRegs_bind fun _ => .pure 3 _) rfl
    -- a 16-bit operand, loaded, stored through or jumped to
    | exact .bind_of_le .fetch16 (fun _ => .modifyRegs_bind fun _ => .pure 2 _) rfl
    | exact .bind_of_le .fetch16 (fun _ => .regs_bind fun _ => .bind_of_le (.busWr 0 _ _ _)
        (fun _ => .pure 1 _) rfl) rfl
    | exact .bind_of_le .fetch16 (fun _ => .bind_of_le (.busRd 0 _ _)
        (fun _ => .modifyRegs_bind fun _ => .pure 1 _) rfl) rfl
    | exact .bind_of_le .fetch16 (fun _ => .regs_bind fun _ => .bind_of_le (.busWr 0 _ _ _)
        (fun _ => .regs_bind fun _ => .bind_of_le (.busWr 0 _ _ _)
          (fun _ => .pure 0 _) rfl) rfl) rfl
    | exact .bind_of_le .fetch16 (fun _ => .bind_of_le (.busRd 0 _ _)
        (fun _ => .modifyRegs_bind fun _ => .bind_of_le (.busRd 0 _ _)
          (fun _ => .modifyRegs_bind fun _ => .pure 0 _) rfl) rfl) rfl
    -- the stack
    | exact .bind_of_le .pop16 (fun _ => .modifyRegs_bind fun _ => .pure 2 _) rfl
    | exact .regs_bind fun _ => .bind_of_le (.push16 _) (fun _ => .pure 2 _) rfl
    | exact .regs_bind fun _ => .regs_bind fun _ => .bind_of_le (.push16 _)
        (fun _ => .pure 2 _) rfl
    | exact .bind_of_le .pop16 (fun _ => .regs_bind fun _ => .bind_of_le (.push16 _)
        (fun _ => .modifyRegs_bind fun _ => .pure 0 _) rfl) rfl
    | exact .bind_of_le .fetch16 (fun _ => .regs_bind fun _ => .bind_of_le (.push16 _)
        (fun _ => .modifyRegs_bind fun _ => .pure 0 _) rfl) rfl
    -- OUT
    | exact .bind_of_le .fetch8 (fun _ => .regs_bind fun _ => .bind_of_le (.busOut 0 _ _)
        (fun _ => .pure 2 _) rfl) rfl

end I8080

end Umk80
