import Mathlib.Data.Nat.Notation
import Mathlib.Tactic.Common

/-!
# Stores that are written once

A cell of such a store may be written again, but only with the value it holds: any other write is
refused, and the refusal is noted and never forgotten. So a store in which nothing is noted holds
everything that was ever put into it, whatever the order of the writes.

## Main definitions

* `WriteOnce` — what a store must do
* `WriteOnce.Extends` — a later state of a store
* `WriteOnce.putAll` — a run of writes
* `WriteOnce.Exact` — nothing is refused or held without a reason

## Main results

* `WriteOnce.get_putAll` — what was put, if nothing was refused, is there
* `WriteOnce.Exact.not_failed_putAll` — which runs of writes are not refused
* `WriteOnce.Exact.get_putAll_iff` — what the store holds then is the union of the writes
-/

/-- A store with states `σ`, cells `α` and values `β`. -/
structure WriteOnce (σ α β : Type) where
  get : σ → α → Option β
  put : σ → α → β → σ
  /-- A write has been refused. -/
  Failed : σ → Prop
  get_put : ∀ s a b, ¬ Failed (put s a b) → get (put s a b) a = some b
  get_put_mono : ∀ s a b c v, get s c = some v → get (put s a b) c = some v
  failed_put : ∀ s a b, Failed s → Failed (put s a b)

namespace WriteOnce

variable {σ α β : Type} (W : WriteOnce σ α β) {s t u : σ}

/-- What was written and what was refused in `s` is still so in `t`. -/
structure Extends (s t : σ) : Prop where
  get : ∀ a b, W.get s a = some b → W.get t a = some b
  failed : W.Failed s → W.Failed t

theorem Extends.refl (s : σ) : W.Extends s s := ⟨fun _ _ h => h, id⟩

variable {W} in
theorem Extends.trans (h : W.Extends s t) (h' : W.Extends t u) : W.Extends s u :=
  ⟨fun a b hab => h'.get a b (h.get a b hab), fun hf => h'.failed (h.failed hf)⟩

theorem extends_put (s : σ) (a : α) (b : β) : W.Extends s (W.put s a b) :=
  ⟨fun c v h => W.get_put_mono s a b c v h, W.failed_put s a b⟩

/-- Steps that extend the store, one after the other. -/
theorem extends_foldl {ι : Type} {f : σ → ι → σ} (h : ∀ s i, W.Extends s (f s i)) (is : List ι)
    (s : σ) : W.Extends s (is.foldl f s) := by
  induction is generalizing s with
  | nil => exact Extends.refl W s
  | cons i is ih => exact (h s i).trans (ih (f s i))

/-- Writes, one after the other. -/
def putAll (s : σ) (ps : List (α × β)) : σ := ps.foldl (fun s p => W.put s p.1 p.2) s

theorem extends_putAll (s : σ) (ps : List (α × β)) : W.Extends s (W.putAll s ps) := by
  unfold putAll
  exact W.extends_foldl (fun s p => W.extends_put s p.1 p.2) ps s

/-- **What was put is there**, if nothing was refused. -/
theorem get_putAll {ps : List (α × β)} (h : ¬ W.Failed (W.putAll s ps)) {p : α × β}
    (hp : p ∈ ps) : W.get (W.putAll s ps) p.1 = some p.2 := by
  obtain ⟨before, after, rfl⟩ := List.append_of_mem hp
  have hsplit : W.putAll s (before ++ p :: after) =
      W.putAll (W.put (W.putAll s before) p.1 p.2) after := by
    unfold putAll
    rw [List.foldl_append, List.foldl_cons]
  rw [hsplit] at h ⊢
  have hlater := W.extends_putAll (W.put (W.putAll s before) p.1 p.2) after
  exact hlater.get _ _ (W.get_put _ _ _ fun hf => h (hlater.failed hf))

/-! ## Stores that refuse only conflicts -/

/-- Only a write to a cell that does not exist, or with another value than the cell holds, is
refused, and a write that is not refused changes its own cell only. -/
structure Exact (Cell : α → Prop) : Prop where
  accept : ∀ s a b, ¬ W.Failed s → Cell a → (∀ v, W.get s a = some v → v = b) →
    ¬ W.Failed (W.put s a b)
  cell : ∀ s a b, ¬ W.Failed (W.put s a b) → Cell a
  get_of_put : ∀ s a b c v, W.get (W.put s a b) c = some v → W.get s c = some v ∨ c = a ∧ v = b

namespace Exact

variable {W} {Cell : α → Prop} (hW : W.Exact Cell)

include hW

/-- What the store holds was there, or was written. -/
theorem get_of_putAll {ps : List (α × β)} {s : σ} {c : α} {v : β}
    (h : W.get (W.putAll s ps) c = some v) : W.get s c = some v ∨ (c, v) ∈ ps := by
  induction ps generalizing s with
  | nil => exact Or.inl h
  | cons p ps ih =>
    rcases ih h with hput | hmem
    · rcases hW.get_of_put s p.1 p.2 c v hput with hs | ⟨rfl, rfl⟩
      · exact Or.inl hs
      · exact Or.inr List.mem_cons_self
    · exact Or.inr (List.mem_cons_of_mem _ hmem)

/-- **The store holds the union of the writes** and of what was there, if nothing is refused. -/
theorem get_putAll_iff {ps : List (α × β)} {s : σ} (h : ¬ W.Failed (W.putAll s ps)) (c : α)
    (v : β) : W.get (W.putAll s ps) c = some v ↔ W.get s c = some v ∨ (c, v) ∈ ps := by
  refine ⟨hW.get_of_putAll, ?_⟩
  rintro (hs | hmem)
  · exact (W.extends_putAll s ps).get c v hs
  · exact W.get_putAll h hmem

/-- **A run of writes is not refused**, exactly if all cells exist and no cell gets two values,
counting the one it holds. -/
theorem not_failed_putAll {ps : List (α × β)} {s : σ} (hs : ¬ W.Failed s) :
    ¬ W.Failed (W.putAll s ps) ↔ (∀ p ∈ ps, Cell p.1) ∧
      (∀ p ∈ ps, ∀ v, W.get s p.1 = some v → v = p.2) ∧
      ∀ p ∈ ps, ∀ q ∈ ps, p.1 = q.1 → p.2 = q.2 := by
  induction ps generalizing s with
  | nil => simpa [putAll] using hs
  | cons p ps ih =>
    have hcons : W.putAll s (p :: ps) = W.putAll (W.put s p.1 p.2) ps := rfl
    constructor
    · intro h
      have hget {q : α × β} (hq : q ∈ p :: ps) := W.get_putAll h hq
      have hput : ¬ W.Failed (W.put s p.1 p.2) := fun hf =>
        h (hcons ▸ (W.extends_putAll _ ps).failed hf)
      refine ⟨?_, fun q hq v hv => ?_, fun q hq r hr hqr => ?_⟩
      · rw [List.forall_mem_cons]
        exact ⟨hW.cell s p.1 p.2 hput, ((ih hput).mp (hcons ▸ h)).1⟩
      · have hkept := (W.extends_putAll s (p :: ps)).get q.1 v hv
        exact Option.some.inj (by rw [← hkept, hget hq])
      · exact Option.some.inj (by rw [← hget hq, ← hget hr, hqr])
    · rintro ⟨hcell, hheld, hagree⟩
      have hput := hW.accept s p.1 p.2 hs (hcell p List.mem_cons_self)
        (hheld p List.mem_cons_self)
      rw [hcons]
      refine (ih hput).mpr ⟨fun q hq => hcell q (List.mem_cons_of_mem _ hq), ?_, ?_⟩
      · intro q hq v hv
        rcases hW.get_of_put s p.1 p.2 q.1 v hv with hbefore | ⟨hqp, rfl⟩
        · exact hheld q (List.mem_cons_of_mem _ hq) v hbefore
        · exact (hagree q (List.mem_cons_of_mem _ hq) p List.mem_cons_self hqp).symm
      · exact fun q hq r hr => hagree q (List.mem_cons_of_mem _ hq) r (List.mem_cons_of_mem _ hr)

end Exact

end WriteOnce
