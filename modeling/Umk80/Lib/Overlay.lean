import Mathlib.Data.Nat.Notation
import Mathlib.Logic.Function.Basic

/-!
# The last overlay wins

A store that is only ever overwritten, cell by cell or range by range, holds in each cell what the
last overlay put there. An overlay is a partial function from cells to values, so single writes,
block loads and writes through an address decoder are the same thing, and the order in which
different cells were written does not matter.

## Main definitions

* `overlay` — one overlay on a store
* `lastOver` — the value that the last overlay of a list put into a cell

## Main results

* `foldl_overlay` — a cell holds the last value put into it, or else its initial value
* `foldl_overlay_eq_self_iff` — nothing changes exactly if the last value is everywhere the old one
-/

namespace Overlay

variable {C V : Type}

/-- Put the values of `f` over those of `mem`. -/
def overlay (mem : C → V) (f : C → Option V) : C → V := fun c => (f c).getD (mem c)

/-- What the last overlay that reaches the cell `c` puts there. -/
def lastOver (fs : List (C → Option V)) (c : C) : Option V := (fs.filterMap fun f => f c).getLast?

@[simp] theorem lastOver_nil (c : C) : lastOver ([] : List (C → Option V)) c = none := rfl

theorem lastOver_cons (f : C → Option V) (fs : List (C → Option V)) (c : C) :
    lastOver (f :: fs) c = (lastOver fs c).or (f c) := by
  unfold lastOver
  rw [List.filterMap_cons]
  cases f c with
  | none => exact Option.or_none.symm
  | some v =>
    rw [List.getLast?_cons]
    cases (fs.filterMap fun f => f c).getLast?
    all_goals rfl

/-- **The last overlay wins.** -/
theorem foldl_overlay (fs : List (C → Option V)) (mem : C → V) (c : C) :
    fs.foldl overlay mem c = (lastOver fs c).getD (mem c) := by
  induction fs generalizing mem with
  | nil => rfl
  | cons f fs ih =>
    rw [List.foldl_cons, ih, lastOver_cons, overlay]
    cases lastOver fs c
    all_goals rfl

/-- A cell holds an overlaid value exactly if some overlay reaches it. -/
theorem lastOver_isSome_iff {fs : List (C → Option V)} {c : C} :
    (lastOver fs c).isSome ↔ ∃ f ∈ fs, (f c).isSome := by
  induction fs with
  | nil => simp
  | cons f fs ih =>
    rw [lastOver_cons, Option.isSome_or, Bool.or_eq_true, ih]
    simp only [List.mem_cons, exists_eq_or_imp]
    exact or_comm

/-- The overlay that wins: it reaches the cell, and none after it does. -/
theorem lastOver_eq_some_iff {fs : List (C → Option V)} {c : C} {v : V} : lastOver fs c = some v ↔
    ∃ (k : ℕ) (f : C → Option V), fs[k]? = some f ∧ f c = some v ∧
      ∀ (k' : ℕ) (g : C → Option V), k < k' → fs[k']? = some g → g c = none := by
  induction fs with
  | nil => simp
  | cons f fs ih =>
    rw [lastOver_cons, Option.or_eq_some_iff, ih]
    constructor
    · rintro (⟨k, g, hk, hg, hlater⟩ | ⟨hnone, hf⟩)
      · refine ⟨k + 1, g, hk, hg, fun k' g' hlt hk' => ?_⟩
        cases k' with
        | zero => exact absurd hlt (Nat.not_lt_zero _)
        | succ k' => exact hlater k' g' (Nat.lt_of_succ_lt_succ hlt) hk'
      · refine ⟨0, f, rfl, hf, fun k' g hlt hk' => ?_⟩
        cases k' with
        | zero => exact absurd hlt (Nat.lt_irrefl 0)
        | succ k' =>
          by_contra hreach
          have hsome : (lastOver fs c).isSome := lastOver_isSome_iff.mpr
            ⟨g, List.mem_of_getElem? (i := k') hk', Option.ne_none_iff_isSome.mp hreach⟩
          rw [hnone] at hsome
          exact absurd hsome Bool.false_ne_true
    · rintro ⟨k, g, hk, hg, hlater⟩
      cases k with
      | zero =>
        obtain rfl : f = g := Option.some.inj hk
        refine Or.inr ⟨?_, hg⟩
        rw [← Option.not_isSome_iff_eq_none, lastOver_isSome_iff]
        rintro ⟨f', hf', hreach⟩
        obtain ⟨k', hk'⟩ := List.getElem?_of_mem hf'
        rw [hlater (k' + 1) f' k'.succ_pos hk'] at hreach
        exact absurd hreach Bool.false_ne_true
      | succ k =>
        exact Or.inl ⟨k, g, hk, hg, fun k' g' hlt hk' =>
          hlater (k' + 1) g' (Nat.succ_lt_succ hlt) hk'⟩

/-- Overlays that put nothing new anywhere. -/
theorem foldl_overlay_eq_self_iff {fs : List (C → Option V)} {mem : C → V} :
    fs.foldl overlay mem = mem ↔ ∀ c v, lastOver fs c = some v → mem c = v := by
  rw [funext_iff]
  refine forall_congr' fun c => ?_
  rw [foldl_overlay]
  cases lastOver fs c with
  | none => simp
  | some w => simp [eq_comm]

/-- Overlays that agree on a cell, one of which reaches it. -/
theorem lastOver_of_agree {fs : List (C → Option V)} {c : C} {v : V}
    (hreach : ∃ f ∈ fs, (f c).isSome) (hagree : ∀ f ∈ fs, ∀ w, f c = some w → w = v) :
    lastOver fs c = some v := by
  obtain ⟨w, hw⟩ := Option.isSome_iff_exists.mp (lastOver_isSome_iff.mpr hreach)
  obtain ⟨f, hf, hfw⟩ := List.mem_filterMap.mp (List.mem_of_getLast? hw)
  rw [hw, hagree f hf w hfw]

/-- An overlay of one cell is an update. -/
theorem overlay_single [DecidableEq C] (mem : C → V) (c : C) (v : V) :
    overlay mem (fun c' => if c' = c then some v else none) = Function.update mem c v := by
  funext c'
  by_cases h : c' = c
  · subst h
    simp [overlay]
  · simp [overlay, h]

end Overlay
