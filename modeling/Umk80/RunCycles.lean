import Mathlib.Algebra.Order.Group.Nat
import Umk80.I8080Cost
import Umk80.Lib.Budget
import Umk80.MachineCycle

/-!
# Running to a budget

`umk_run_cycles` executes instructions until the counter of T states has advanced by the budget.
It subtracts the counter at the start, so it does not matter where the counter stands or whether
it comes round on the way; and since no step takes more than 18 T states, a budget of less than
2^64 - 18 is never stepped over. What is returned is at most 17 T states more than was asked for.

The panel is refreshed once, at the end. It shows the last machine cycle of the last instruction,
so that nothing remains of what an earlier call has shown, and a run can be cut anywhere.

## Main definitions

* `Machine.after`, `Machine.spent` — some instructions, and the T states they take
* `Machine.RunsTo` — what a call does: the fewest instructions that reach the budget

## Main results

* `Machine.runsTo_of_meets` — every call does that
* `Machine.runCycles_split` — a run in two parts
-/

namespace Umk80

open Interaction WhileLoop

namespace Machine

/-! ## Instructions and their T states -/

/-- The machine after `k` instructions. -/
def after (k : ℕ) (m : Machine) : Machine := (fun m => m.execOne.2)^[k] m

/-- The T states of the first `k` instructions. -/
def spent (k : ℕ) (m : Machine) : ℕ :=
  Budget.spent (fun m => m.execOne.2) (fun m => m.execOne.1) k m

/-- `k` instructions are the fewest that take at least `budget` T states. -/
abbrev Meets (m : Machine) (budget k : ℕ) : Prop :=
  Budget.Meets (fun m => m.execOne.2) (fun m => m.execOne.1) budget k m

theorem spent_succ (k : ℕ) (m : Machine) :
    m.spent (k + 1) = m.spent k + (m.after k).execOne.1 :=
  Budget.spent_succ k m

@[simp] theorem after_zero (m : Machine) : m.after 0 = m := rfl

theorem after_succ (k : ℕ) (m : Machine) : m.after (k + 1) = (m.after k).execOne.2 :=
  Function.iterate_succ_apply' _ k m

theorem after_add (j k : ℕ) (m : Machine) : m.after (j + k) = (m.after j).after k := by
  rw [after, Nat.add_comm, Function.iterate_add_apply]
  rfl

@[simp] theorem step_after (k : ℕ) (m : Machine) : (m.after k).step = m.step := by
  induction k with
  | zero => rfl
  | succ k ih => rw [after_succ, step_execOne, ih]

/-- **An instruction** takes 4 to 18 T states and adds them to the counter. -/
theorem cost_execOne (m : Machine) : (4 ≤ m.execOne.1 ∧ m.execOne.1 ≤ 18) ∧
    m.execOne.2.cpu.cycles = m.cpu.cycles + BitVec.ofNat 64 m.execOne.1 :=
  Prog.wp_run busHandler (I8080.step_cost m.cpu) m.started

theorem execOne_pos (m : Machine) : 0 < m.execOne.1 := by
  have h := m.cost_execOne.1.1
  omega

theorem cycles_after (k : ℕ) (m : Machine) :
    (m.after k).cpu.cycles = m.cpu.cycles + BitVec.ofNat 64 (m.spent k) := by
  induction k with
  | zero => exact (BitVec.add_zero _).symm
  | succ k ih =>
    rw [after_succ, (m.after k).cost_execOne.2, ih, spent_succ, BitVec.ofNat_add,
      BitVec.add_assoc]

/-- The T states that the loops of the source count. -/
theorem cycles_after_sub (k : ℕ) (m : Machine) :
    (m.after k).cpu.cycles - m.cpu.cycles = BitVec.ofNat 64 (m.spent k) := by
  rw [cycles_after, BitVec.add_comm, BitVec.add_sub_cancel]

/-! ## The panel -/

/-- Another panel. -/
def withPanel (m : Machine) (panel : Panel) : Machine := { m with panel := panel }

theorem execOne_withPanel (m : Machine) (panel : Panel) :
    (m.withPanel panel).execOne = (m.execOne.1, m.execOne.2.withPanel panel) := rfl

theorem after_withPanel (k : ℕ) (m : Machine) (panel : Panel) :
    (m.withPanel panel).after k = (m.after k).withPanel panel := by
  induction k with
  | zero => rfl
  | succ k ih => rw [after_succ, ih, execOne_withPanel, after_succ]

theorem spent_withPanel (k : ℕ) (m : Machine) (panel : Panel) :
    (m.withPanel panel).spent k = m.spent k := by
  induction k with
  | zero => rfl
  | succ k ih => rw [spent_succ, spent_succ, ih, after_withPanel, execOne_withPanel]

theorem Meets.withPanel {m : Machine} {a k : ℕ} (h : m.Meets a k) (panel : Panel) :
    (m.withPanel panel).Meets a k :=
  ⟨h.reached.trans_eq (spent_withPanel k m panel).symm,
    fun j hj => (spent_withPanel j m panel).trans_lt (h.before j hj)⟩

/-- What the panel shows after an instruction is independent of what it showed before. -/
theorem panelUpdate_withPanel {m : Machine} (hpos : 0 < m.cpu.mcCount) {panel : Panel}
    (h5 : panel.faultP5 = m.panel.faultP5) (hm5 : panel.faultM5 = m.panel.faultM5)
    (h12 : panel.faultP12 = m.panel.faultP12) :
    (m.withPanel panel).panelUpdate = m.panelUpdate := by
  have hlast : m.cpu.mcCount.toNat - 1 < m.cpu.mcCount.toNat := by
    have hnat : 0 < m.cpu.mcCount.toNat := hpos
    omega
  have hpos' : 0 < (m.withPanel panel).cpu.mcCount := hpos
  rw [panelUpdate, panelUpdate, if_pos hpos, if_pos hpos', panelShowMc, panelShowMc, if_pos hlast]
  have hlast' : (m.withPanel panel).cpu.mcCount.toNat - 1 < (m.withPanel panel).cpu.mcCount.toNat :=
    hlast
  rw [if_pos hlast']
  simp only [withPanel, h5, hm5, h12]

/-- `panel_update` changes what the panel shows, and neither the fault lamps nor anything else. -/
theorem panelUpdate_eq_withPanel (m : Machine) : ∃ panel : Panel,
    m.panelUpdate = m.withPanel panel ∧ panel.faultP5 = m.panel.faultP5 ∧
      panel.faultM5 = m.panel.faultM5 ∧ panel.faultP12 = m.panel.faultP12 := by
  unfold panelUpdate panelShowMc
  split
  · split
    · exact ⟨_, rfl, rfl, rfl, rfl⟩
    · exact ⟨m.panel, rfl, rfl, rfl, rfl⟩
  · exact ⟨m.panel, rfl, rfl, rfl, rfl⟩

theorem mcCount_execOne_pos (m : Machine) : 0 < m.execOne.2.cpu.mcCount := by
  have h := m.traceOf_execOne.pos
  exact h

@[simp] theorem panel_after (k : ℕ) (m : Machine) : (m.after k).panel = m.panel := by
  induction k with
  | zero => rfl
  | succ k ih => rw [after_succ, panel_execOne, ih]

/-- **A refresh on the way is not seen at the end.** -/
theorem panelUpdate_after_panelUpdate (k : ℕ) (m : Machine) :
    (m.panelUpdate.after k).panelUpdate = (m.after k).panelUpdate := by
  obtain ⟨panel, hpanel, h5, hm5, h12⟩ := m.panelUpdate_eq_withPanel
  rw [hpanel, after_withPanel]
  have hshown (hpos : 0 < (m.after k).cpu.mcCount) :
      ((m.after k).withPanel panel).panelUpdate = (m.after k).panelUpdate :=
    panelUpdate_withPanel hpos (by rw [h5, panel_after]) (by rw [hm5, panel_after])
      (by rw [h12, panel_after])
  cases k with
  | zero =>
    by_cases hpos : 0 < m.cpu.mcCount
    · exact hshown hpos
    · have hself : m.panelUpdate = m := if_neg hpos
      rw [after_zero, ← hpanel, hself, hself]
  | succ k => exact hshown (by rw [after_succ]; exact mcCount_execOne_pos _)

/-! ## The loop -/

/-- What a call with the budget `a` does: it returns `r`, and leaves `m'`. -/
structure RunsTo (m : Machine) (a r : ℕ) (m' : Machine) : Prop where
  returns : ∃ N, ∀ fuel ≥ N, m.runCycles fuel (BitVec.ofNat 64 a) = some (BitVec.ofNat 64 r, m')
  /-- `r` is what the fewest instructions take that reach the budget. -/
  shortest : ∃ k, r = m.spent k ∧ a ≤ r ∧ (∀ j < k, m.spent j < a) ∧ m' = (m.after k).panelUpdate
  le : r ≤ a + 17
  zero : a = 0 → r = 0

/-- The loop stops where the budget is met. -/
theorem runCycles_of_meets {m : Machine} (hl : m.step.latchStep = false) {a k : ℕ}
    (ha : a < 2 ^ 64) (hspent : m.spent k < 2 ^ 64) (h : m.Meets a k) {fuel : ℕ} (hk : k ≤ fuel) :
    m.runCycles fuel (BitVec.ofNat 64 a) =
      some (BitVec.ofNat 64 (m.spent k), (m.after k).panelUpdate) := by
  have hcond (j : ℕ) (hj : m.spent j < 2 ^ 64) :
      (m.after j).cpu.cycles - m.cpu.cycles < BitVec.ofNat 64 a ↔ m.spent j < a := by
    rw [cycles_after_sub, BitVec.lt_def, BitVec.toNat_ofNat, BitVec.toNat_ofNat,
      Nat.mod_eq_of_lt hj, Nat.mod_eq_of_lt ha]
  have hloop : whileLoop (fun m' => m'.cpu.cycles - m.cpu.cycles < BitVec.ofNat 64 a)
      (·.execOne.2) fuel m = some (m.after k) := by
    refine whileLoop_eq_some_iff.mpr ⟨k, hk, rfl, ?_, fun j hj => ?_⟩
    · exact decide_eq_false (mt (hcond k hspent).mp h.reached.not_gt)
    · have hbefore : m.spent j < a := h.before j hj
      exact decide_eq_true ((hcond j (hbefore.trans ha)).mpr hbefore)
  rw [runCycles, hl, if_neg Bool.false_ne_true, hloop]
  change some ((m.after k).panelUpdate.cpu.cycles - m.cpu.cycles, (m.after k).panelUpdate) = _
  rw [cpu_panelUpdate, cycles_after_sub]

/-- **A call runs to its budget.** -/
theorem runsTo_of_meets {m : Machine} (hl : m.step.latchStep = false) {a k : ℕ}
    (ha : a < 2 ^ 64 - 18) (h : m.Meets a k) :
    m.RunsTo a (m.spent k) (m.after k).panelUpdate := by
  have hle : m.spent k ≤ a + 17 := h.le_add fun m => m.cost_execOne.1.2
  refine ⟨⟨k, fun fuel hk => runCycles_of_meets hl (by omega) (by omega) h hk⟩,
    ⟨k, rfl, h.reached, h.before, rfl⟩, hle, ?_⟩
  rintro rfl
  rw [h.eq_zero]
  rfl

/-- **A run in two parts** is the run in one: with what the first part has left of the budget, the
second ends in the same machine, and the T states add up. -/
theorem runCycles_split (m : Machine) (hl : m.step.latchStep = false) (a b : ℕ)
    (hab : a + b < 2 ^ 64 - 18) : ∃ r m₁ r₂ m₂,
      m.RunsTo a r m₁ ∧ m₁.RunsTo (a + b - r) r₂ m₂ ∧ m.RunsTo (a + b) (r + r₂) m₂ := by
  obtain ⟨k, hk⟩ : ∃ k, m.Meets a k := Budget.exists_meets execOne_pos a m
  obtain ⟨l, hl'⟩ : ∃ l, (m.after k).Meets (a + b - m.spent k) l :=
    Budget.exists_meets execOne_pos _ _
  obtain ⟨panel, hpanel, -⟩ := (m.after k).panelUpdate_eq_withPanel
  have hspent : (m.after k).panelUpdate.spent l = (m.after k).spent l := by
    rw [hpanel, spent_withPanel]
  have hmachine :
      ((m.after k).panelUpdate.after l).panelUpdate = (m.after (k + l)).panelUpdate := by
    rw [panelUpdate_after_panelUpdate, after_add]
  have hsum : m.spent (k + l) = m.spent k + (m.after k).spent l := Budget.spent_add k l m
  have hfirst := runsTo_of_meets hl (by omega) hk
  have hmeets : (m.after k).panelUpdate.Meets (a + b - m.spent k) l := by
    rw [hpanel]
    exact hl'.withPanel panel
  have hsecond := runsTo_of_meets (by rw [step_panelUpdate, step_after, hl]) (by omega) hmeets
  have hwhole := runsTo_of_meets hl hab (hk.add hl')
  rw [hspent, hmachine] at hsecond
  rw [hsum] at hwhole
  exact ⟨m.spent k, _, (m.after k).spent l, _, hfirst, hsecond, hwhole⟩

/-- From power-on, where the ROM is full of NOPs, a budget of 5 costs 8 T states, and there are 2
left for the second part. -/
theorem runCycles_split_nop : ∃ r m₁ r₂ m₂, (init .rev1).RunsTo 5 r m₁ ∧
    m₁.RunsTo (5 + 5 - r) r₂ m₂ ∧ (init .rev1).RunsTo (5 + 5) (r + r₂) m₂ :=
  runCycles_split (init .rev1) rfl 5 5 (by decide)

end Machine

end Umk80
