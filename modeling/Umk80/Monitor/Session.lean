import Umk80.Monitor.Press

/-!
# What is typed

A session is a list of keys, each held and released for long enough. `Then` says of a state that
the monitor waits for the first of the keys, that it waits again within a given time after it has
got the code of one, and what holds when it has got them all. The rules for code go on to apply, since what
the code between two keys leads to is again of this form.

Between two keys nothing but the clock tells how long the user takes. As the monitor goes on to wait
for as long as no key is down, `Typed.ends` holds of every session in which the keys are held and
released for at least the given times.

## Main definitions

* `Monitor.Typed` — a session
* `Monitor.Then` — what the monitor does with the keys that follow

## Main results

* `Monitor.Typed.ends` — every session ends as `Then` says
* `Monitor.Stands.ask` — the rule for CI
-/

namespace Umk80

open Isa TimedRuns

namespace Monitor

variable {k : Key} {ks : List Key} {G u : ℕ} {w : U16}
  {s s' : State View} {ws : List U16} {v : View} {Q : State View → Prop}

/-- The shortest time for which a key is held. -/
def HOLD : ℕ := 21327

/-- The time from the release of a key to the return of CI. -/
def RELEASE : ℕ := 20679

/-- Keys are pressed one after the other: each is down for `HOLD` at least, and up for `G` more than
the monitor needs to see that it is up. -/
inductive Typed (G : ℕ) : List Key → State View → State View → Prop
  | nil (s : State View) : Typed G [] s s
  | cons {k : Key} {ks : List Key} {s s₁ s₂ s' : State View} {t t' : ℕ}
    (hdown : Arrives M (s.change (View.keys k.down)) t s₁) (ht : HOLD ≤ t)
    (hup : Arrives M (s₁.change (View.keys .idle)) t' s₂) (ht' : RELEASE + G ≤ t')
    (hrest : Typed G ks s₂ s') : Typed G (k :: ks) s s'

/-- The monitor takes one key after the other, and then `Q` holds. -/
def Then (G : ℕ) (Q : State View → Prop) : List Key → State View → Prop
  | [], s => Q s
  | k :: ks, s => ∃ bc w ws v, Waiting (bc :: w :: ws) v s ∧ v.kbd = .idle ∧
    ws.length + 2 < HEIGHT ∧ ∀ s', Returns k.code bc w ws (v.latch (column k.col) 0) s' →
      Leads M s' G (Then G Q ks)

/-- The monitor waits for as long as the user takes. -/
theorem Then.step (hQ : ∀ s, Q s → Q (M.step s)) (h : Then G Q ks s) : Then G Q ks (M.step s) := by
  cases ks with
  | nil => exact hQ s h
  | cons k ks =>
    obtain ⟨bc, w, ws, v, hwait, hkbd, hroom, hnext⟩ := h
    exact ⟨bc, w, ws, v, hwait.reaches hkbd (Arrives.one M s), hkbd, hroom, hnext⟩

/-- **Every session ends as foreseen.** -/
theorem Typed.ends (hQ : ∀ s, Q s → Q (M.step s)) (h : Typed G ks s s') (hs : Then G Q ks s) :
    Q s' := by
  induction h with
  | nil s => exact hs
  | @cons k ks s s₁ s₂ s' t t' hdown ht hup ht' hrest ih =>
    obtain ⟨bc, w, ws, v, hwait, hkbd, hroom, hnext⟩ := hs
    have hv : (v.keys k.down).keys .idle = v := by
      rw [← hkbd]
      rfl
    have hheld : Held k (bc :: w :: ws) (v.keys k.down) s₁ := by
      have hpress := (hwait.keys k.down).press rfl hroom
      exact hpress.settles (State.cost_pos View.env)
        (fun s hs => hs.reaches rfl (Arrives.one M s)) hdown ht
    have hup' : Leads M (s₁.change (View.keys .idle)) (RELEASE + G) (Then G Q ks) := by
      refine (hheld.keys .idle).release rfl hroom fun s hs => ?_
      rw [hv] at hs
      exact hnext s hs
    exact ih (hup'.settles (State.cost_pos View.env) (fun s hs => hs.step hQ) hup ht')

/-- The board while the monitor works: ports A and B are outputs, and no key is down. -/
structure Resting (v : View) : Prop where
  ready : v.Ready
  idle : v.kbd = .idle

/-- **CI** takes the next key. -/
theorem Stands.ask (hs : Stands s (w :: ws) v) (hpc : s.pc = CI.entry) (hv : Resting v)
    (hroom : ws.length + 2 < HEIGHT)
    (h : ∀ s', Returns k.code s.bc w ws (v.latch (column k.col) 0) s' →
      Leads M s' G (Then G Q ks)) : Leads M s (60 + u) (Then G Q (k :: ks)) := by
  refine (hs.ci hpc hv.ready (Nat.lt_of_succ_lt hroom)).mono (Nat.le_add_right 60 u)
    fun s' hwait => ?_
  exact ⟨_, w, ws, v, hwait, hv.idle, hroom, h⟩

end Monitor

end Umk80
