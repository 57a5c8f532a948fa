import Mathlib.Data.Nat.Notation
import Mathlib.Logic.Basic

/-!
# Programs that talk to an environment

A device driver, a processor core or a protocol party is code that runs against callbacks it
does not own. Here such code is a tree: it either returns, or performs one operation and
continues with whatever the environment answers. The tree says nothing about the environment,
so a fact about the tree is a fact about every environment at once.

A `Handler` supplies the missing half: a state and an answer for each operation. Running a tree
against a handler is `Prog.run`, and `Prog.runLog` is the same run together with the list of
calls it made.

## Main definitions

* `Prog` — a program over an interface of operations `Op` with answer types `Ans`
* `Prog.run`, `Prog.runLog` — a run against a handler, without and with the list of calls
* `Prog.wp` — "on every path", where a path is a list of calls together with their answers

## Main results

* `Prog.wp_bind` — the sequencing rule
* `Prog.wp_run` — what holds on every path holds of the calls and the result of every run
* `Prog.run_sim`, `Prog.run_sim_of_wp` — two handlers that answer alike give the same result
* `Prog.run_ranked` — an invariant of the handler that each call moves up by one rank
* `Prog.run_foldl` — the final state, in some view of it, as a fold over the list of calls
-/

namespace Interaction

/-- A program over the operations `Op`: it returns a value, or performs an operation and
continues with the answer. -/
inductive Prog (Op : Type) (Ans : Op → Type) (α : Type) : Type
  | pure (a : α) : Prog Op Ans α
  | call (o : Op) (k : Ans o → Prog Op Ans α) : Prog Op Ans α

/-- An environment with state `σ`: what each operation answers and how it moves the state. -/
abbrev Handler (Op : Type) (Ans : Op → Type) (σ : Type) : Type := (o : Op) → σ → Ans o × σ

/-- One call: the operation and the answer it received. -/
abbrev Event (Op : Type) (Ans : Op → Type) : Type := (o : Op) × Ans o

namespace Prog

variable {Op : Type} {Ans : Op → Type} {α β σ τ : Type}

/-- Run the first program, then the one its result selects. -/
protected def bind : Prog Op Ans α → (α → Prog Op Ans β) → Prog Op Ans β
  | .pure a, f => f a
  | .call o k, f => .call o fun x => (k x).bind f

instance : Monad (Prog Op Ans) where
  pure := Prog.pure
  bind := Prog.bind

theorem bind_pure' (p : Prog Op Ans α) : p.bind Prog.pure = p := by
  induction p with
  | pure a => rfl
  | call o k ih => simp only [Prog.bind, ih]

theorem bind_assoc' {γ : Type} (p : Prog Op Ans α) (f : α → Prog Op Ans β)
    (g : β → Prog Op Ans γ) : (p.bind f).bind g = p.bind fun a => (f a).bind g := by
  induction p with
  | pure a => rfl
  | call o k ih => simp only [Prog.bind, ih]

instance : LawfulMonad (Prog Op Ans) :=
  LawfulMonad.mk' _ bind_pure' (fun _ _ => rfl) bind_assoc'

/-- Perform one operation and return its answer. -/
def perform (o : Op) : Prog Op Ans (Ans o) := .call o .pure

/-! ## Running -/

/-- Run a program against a handler. -/
def run (h : Handler Op Ans σ) : Prog Op Ans α → σ → α × σ
  | .pure a, s => (a, s)
  | .call o k, s => run h (k (h o s).1) (h o s).2

/-- The calls a run makes, in order, each with the answer it received. -/
def runLog (h : Handler Op Ans σ) : Prog Op Ans α → σ → List (Event Op Ans)
  | .pure _, _ => []
  | .call o k, s => ⟨o, (h o s).1⟩ :: runLog h (k (h o s).1) (h o s).2

@[simp] theorem run_pure (h : Handler Op Ans σ) (a : α) (s : σ) :
    run h (Pure.pure a) s = (a, s) := rfl

@[simp] theorem run_perform (h : Handler Op Ans σ) (o : Op) (s : σ) :
    run h (perform o) s = h o s := rfl

@[simp] theorem run_bind (h : Handler Op Ans σ) (p : Prog Op Ans α) (f : α → Prog Op Ans β)
    (s : σ) : run h (p >>= f) s = run h (f (run h p s).1) (run h p s).2 := by
  change run h (p.bind f) s = _
  induction p generalizing s with
  | pure a => rfl
  | call o k ih => exact ih _ _

@[simp] theorem runLog_pure (h : Handler Op Ans σ) (a : α) (s : σ) :
    runLog h (Pure.pure a) s = [] := rfl

@[simp] theorem runLog_perform (h : Handler Op Ans σ) (o : Op) (s : σ) :
    runLog h (perform o) s = [⟨o, (h o s).1⟩] := rfl

@[simp] theorem runLog_bind (h : Handler Op Ans σ) (p : Prog Op Ans α) (f : α → Prog Op Ans β)
    (s : σ) : runLog h (p >>= f) s =
      runLog h p s ++ runLog h (f (run h p s).1) (run h p s).2 := by
  change runLog h (p.bind f) s = _
  induction p generalizing s with
  | pure a => rfl
  | call o k ih => exact congrArg _ (ih _ _)

/-! ## Paths -/

/-- `Q` holds of the calls and the result on every path through the program, whatever each call
answers. -/
def wp : Prog Op Ans α → (List (Event Op Ans) → α → Prop) → Prop
  | .pure a, Q => Q [] a
  | .call o k, Q => ∀ x, (k x).wp fun es a => Q (⟨o, x⟩ :: es) a

@[simp] theorem wp_pure (a : α) (Q : List (Event Op Ans) → α → Prop) :
    wp (Pure.pure a) Q ↔ Q [] a := Iff.rfl

@[simp] theorem wp_perform (o : Op) (Q : List (Event Op Ans) → Ans o → Prop) :
    wp (perform o) Q ↔ ∀ x, Q [⟨o, x⟩] x := Iff.rfl

theorem wp_mono {p : Prog Op Ans α} {Q Q' : List (Event Op Ans) → α → Prop}
    (hQ : ∀ es a, Q es a → Q' es a) (h : p.wp Q) : p.wp Q' := by
  induction p generalizing Q Q' with
  | pure a => exact hQ _ _ h
  | call o k ih => exact fun x => ih x (fun es a => hQ _ a) (h x)

theorem wp_of_forall (p : Prog Op Ans α) {Q : List (Event Op Ans) → α → Prop}
    (hQ : ∀ es a, Q es a) : p.wp Q := by
  induction p generalizing Q with
  | pure a => exact hQ [] a
  | call o k ih => exact fun x => ih x fun es a => hQ _ a

/-- **Sequencing.** The paths of a sequence are the paths of its parts, joined. -/
@[simp] theorem wp_bind (p : Prog Op Ans α) (f : α → Prog Op Ans β)
    (Q : List (Event Op Ans) → β → Prop) :
    (p >>= f).wp Q ↔ p.wp fun es a => (f a).wp fun es' b => Q (es ++ es') b := by
  change (p.bind f).wp Q ↔ _
  induction p generalizing Q with
  | pure a => rfl
  | call o k ih => exact forall_congr' fun x => ih x _

theorem wp_and {p : Prog Op Ans α} {Q Q' : List (Event Op Ans) → α → Prop} (h : p.wp Q)
    (h' : p.wp Q') : p.wp fun es a => Q es a ∧ Q' es a := by
  induction p generalizing Q Q' with
  | pure a => exact ⟨h, h'⟩
  | call o k ih => exact fun x => ih x (h x) (h' x)

/-- **Every run follows a path.** -/
theorem wp_run (h : Handler Op Ans σ) {p : Prog Op Ans α}
    {Q : List (Event Op Ans) → α → Prop} (hp : p.wp Q) (s : σ) :
    Q (runLog h p s) (run h p s).1 := by
  induction p generalizing s Q with
  | pure a => exact hp
  | call o k ih => exact ih _ (hp _) _

/-! ## Invariants and simulations of the environment -/

/-- An invariant that every call moves up by one rank is moved up, over a run, by the number of
calls made. -/
theorem run_ranked (h : Handler Op Ans σ) {P : ℕ → σ → Prop}
    (hP : ∀ n o s, P n s → P (n + 1) (h o s).2) (p : Prog Op Ans α) {n : ℕ} {s : σ}
    (hs : P n s) : P (n + (runLog h p s).length) (run h p s).2 := by
  induction p generalizing n s with
  | pure a => exact hs
  | call o k ih =>
    have := ih (h o s).1 (hP n o s hs)
    rwa [Nat.add_assoc, Nat.add_comm 1] at this

/-- An invariant of every call is an invariant of every run. -/
theorem run_inv (h : Handler Op Ans σ) {P : σ → Prop} (hP : ∀ o s, P s → P (h o s).2)
    (p : Prog Op Ans α) {s : σ} (hs : P s) : P (run h p s).2 :=
  run_ranked h (P := fun _ => P) (fun _ => hP) p (n := 0) hs

/-- What a handler does to a view of its state is the fold of the calls, if each call does to the
view what the fold says. -/
theorem run_foldl (h : Handler Op Ans σ) (view : σ → τ) (f : τ → Event Op Ans → τ)
    (hf : ∀ o s, view (h o s).2 = f (view s) ⟨o, (h o s).1⟩) (p : Prog Op Ans α) (s : σ) :
    view (run h p s).2 = (runLog h p s).foldl f (view s) := by
  induction p generalizing s with
  | pure a => rfl
  | call o k ih =>
    rw [run, runLog, List.foldl_cons, ← hf]
    exact ih _ _

/-- The final state is what the calls of the log make of the initial one. -/
theorem run_eq_foldl (h : Handler Op Ans σ) (p : Prog Op Ans α) (s : σ) :
    (run h p s).2 = (runLog h p s).foldl (fun s e => (h e.1 s).2) s :=
  run_foldl h id _ (fun _ _ => rfl) p s

/-- Each call of the log is answered in the state that the calls before it make of the initial
one. -/
theorem runLog_answer (h : Handler Op Ans σ) (p : Prog Op Ans α) (s : σ)
    {pre post : List (Event Op Ans)} {e : Event Op Ans} (heq : runLog h p s = pre ++ e :: post) :
    e.2 = (h e.1 (pre.foldl (fun s e => (h e.1 s).2) s)).1 := by
  induction p generalizing s pre with
  | pure a => exact absurd heq.symm (List.append_ne_nil_of_right_ne_nil _ (List.cons_ne_nil _ _))
  | call o k ih =>
    cases pre with
    | nil =>
      obtain ⟨rfl, -⟩ := List.cons.inj heq
      rfl
    | cons e' pre =>
      obtain ⟨rfl, hrest⟩ := List.cons.inj heq
      exact ih (h o s).1 (h o s).2 hrest

/-- **Simulation, for a program that only performs admitted operations.** If two handlers give
equal answers on related states and keep them related, for the operations in `S`, then a program
all of whose paths stay in `S` cannot tell them apart. -/
theorem run_sim_of_wp {h₁ : Handler Op Ans σ} {h₂ : Handler Op Ans τ} {S : Op → Prop}
    {R : σ → τ → Prop}
    (hR : ∀ o s t, S o → R s t → (h₁ o s).1 = (h₂ o t).1 ∧ R (h₁ o s).2 (h₂ o t).2)
    {p : Prog Op Ans α} (hp : p.wp fun es _ => ∀ e ∈ es, S e.1) {s : σ} {t : τ} (hs : R s t) :
    (run h₁ p s).1 = (run h₂ p t).1 ∧ R (run h₁ p s).2 (run h₂ p t).2 := by
  induction p generalizing s t with
  | pure a => exact ⟨rfl, hs⟩
  | call o k ih =>
    have ho : S o := by
      have := wp_run h₁ (hp (h₁ o s).1) (h₁ o s).2
      exact this _ List.mem_cons_self
    obtain ⟨ha, hr⟩ := hR o s t ho hs
    have hk : (k (h₁ o s).1).wp fun es _ => ∀ e ∈ es, S e.1 :=
      wp_mono (fun es a hes e he => hes e (List.mem_cons_of_mem _ he)) (hp _)
    have := ih (h₁ o s).1 hk hr
    simp only [run]
    rw [← ha]
    exact this

/-- In such a simulation the two runs make the same calls. -/
theorem runLog_sim_of_wp {h₁ : Handler Op Ans σ} {h₂ : Handler Op Ans τ} {S : Op → Prop}
    {R : σ → τ → Prop}
    (hR : ∀ o s t, S o → R s t → (h₁ o s).1 = (h₂ o t).1 ∧ R (h₁ o s).2 (h₂ o t).2)
    {p : Prog Op Ans α} (hp : p.wp fun es _ => ∀ e ∈ es, S e.1) {s : σ} {t : τ} (hs : R s t) :
    runLog h₁ p s = runLog h₂ p t := by
  induction p generalizing s t with
  | pure a => rfl
  | call o k ih =>
    have ho : S o := wp_run h₁ (hp (h₁ o s).1) (h₁ o s).2 _ List.mem_cons_self
    obtain ⟨ha, hr⟩ := hR o s t ho hs
    have hk : (k (h₁ o s).1).wp fun es _ => ∀ e ∈ es, S e.1 :=
      wp_mono (fun es a hes e he => hes e (List.mem_cons_of_mem _ he)) (hp _)
    simp only [runLog]
    rw [ih (h₁ o s).1 hk hr, ← ha]

/-- **Simulation.** Two handlers that give equal answers on related states and keep them related
give every program the same result. -/
theorem run_sim {h₁ : Handler Op Ans σ} {h₂ : Handler Op Ans τ} {R : σ → τ → Prop}
    (hR : ∀ o s t, R s t → (h₁ o s).1 = (h₂ o t).1 ∧ R (h₁ o s).2 (h₂ o t).2)
    (p : Prog Op Ans α) {s : σ} {t : τ} (hs : R s t) :
    (run h₁ p s).1 = (run h₂ p t).1 ∧ R (run h₁ p s).2 (run h₂ p t).2 := by
  refine run_sim_of_wp (S := fun _ => True) (fun o s t _ => hR o s t) ?_ hs
  induction p with
  | pure a => exact fun _ h => absurd h List.not_mem_nil
  | call o k ih => exact fun x => wp_mono (fun _ _ _ _ _ => trivial) (ih x)

end Prog

end Interaction
