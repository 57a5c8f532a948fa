import Umk80.DryRun
import Umk80.Monitor.Boot
import Umk80.RomLaw
import Umk80.RunCycles

/-!
# The machine is switched on

What was shown of the programmer's view holds of the machine: `umk_init`, the monitor in the socket,
instructions one after the other, and `umk_set_key` between them. The machine comes to the prompt,
and each key that is not of a directive brings it there again, with a question mark on the display.

## Main definitions

* `Monitor.powered` — the machine with the monitor, after `umk_init`
* `Machine.Typed` — keys are pressed and released on the machine

## Main results

* `Machine.Typed.view` — a session on the machine is a session on its view
* `Monitor.prompt_of_powered` — the machine comes to the prompt
* `Monitor.session_of_powered` — and comes back to it
-/

namespace Umk80

open Isa TimedRuns
open I8080 (Normalised)

/-! ## Keys on the machine -/

namespace Machine

variable {m m' : Machine} {k : Key} {ks : List Key} {G t : ℕ}

theorem setKey_key (m : Machine) (k : Key) (down : Bool) : m.setKey k.col k.row down =
    m.withKeys ⟨Function.update m.kbd.pressed k.col
      (Function.update (m.kbd.pressed k.col) k.row down)⟩ :=
  dif_pos ⟨k.col.isLt, k.row.isLt⟩

theorem setKey_down (h : m.kbd = .idle) (k : Key) :
    m.setKey k.col k.row true = m.withKeys k.down := by
  rw [setKey_key, h]
  refine congrArg (fun p => m.withKeys ⟨p⟩) ?_
  funext c r
  by_cases hc : c = k.col
  · subst hc
    by_cases hr : r = k.row
    · subst hr
      simp
    · simp [Keyboard.idle, hr]
  · simp [Keyboard.idle, hc]

theorem setKey_up (h : m.kbd = k.down) : m.setKey k.col k.row false = m.withKeys .idle := by
  rw [setKey_key, h]
  refine congrArg (fun p => m.withKeys ⟨p⟩) ?_
  funext c r
  by_cases hc : c = k.col
  · subst hc
    by_cases hr : r = k.row
    · subst hr
      simp
    · simp [Key.down, hr]
  · simp [Key.down, hc]

/-- Keys are pressed one after the other. -/
inductive Typed (G : ℕ) : List Key → Machine → Machine → Prop
  | nil (m : Machine) : Typed G [] m m
  | cons {k : Key} {ks : List Key} {m m₁ m₂ m' : Machine} {t t' : ℕ}
    (hdown : Arrives clocked (m.setKey k.col k.row true) t m₁) (ht : Monitor.HOLD ≤ t)
    (hup : Arrives clocked (m₁.setKey k.col k.row false) t' m₂)
    (ht' : Monitor.RELEASE + G ≤ t') (hrest : Typed G ks m₂ m') : Typed G (k :: ks) m m'

/-- A proper machine without an interrupt request, and the keys that are down. -/
structure Calm (kbd : Keyboard) (m : Machine) : Prop where
  proper : m.Proper
  request : m.view.request = none
  kbd : m.kbd = kbd

theorem Calm.withKeys {kbd : Keyboard} (h : m.Calm kbd) (kbd' : Keyboard) :
    (m.withKeys kbd').Calm kbd' :=
  ⟨⟨h.proper.ramSize, h.proper.regular.normalised, h.proper.regular.grace⟩, h.request, rfl⟩

/-- **A calm machine** runs as the program says. -/
theorem Calm.run {kbd : Keyboard} (h : m.Calm kbd) (hrun : Arrives clocked m t m') :
    Arrives Monitor.M m.view.toState t m'.view.toState ∧ m'.Calm kbd := by
  obtain ⟨hview, hproper⟩ := reaches_view h.proper hrun
  obtain ⟨hstate, hrequest⟩ := Latched.reaches_of_idle View.env hview h.request
  have hkbd : m'.kbd = kbd := by
    refine hrun.inv (P := fun m => m.kbd = kbd) (fun m hm => ?_) h.kbd
    rw [← hm]
    exact m.execOne_frame.1
  exact ⟨hstate, hproper, hrequest, hkbd⟩

/-- **A session on the machine** is a session on its view. -/
theorem Typed.view (h : Typed G ks m m') (hm : m.Calm .idle) :
    Monitor.Typed G ks m.view.toState m'.view.toState ∧ m'.Calm .idle := by
  induction h with
  | nil m => exact ⟨.nil _, hm⟩
  | @cons k ks m m₁ m₂ m' t t' hdown ht hup ht' hrest ih =>
    rw [setKey_down hm.kbd] at hdown
    obtain ⟨hpressed, hm₁⟩ := (hm.withKeys k.down).run hdown
    rw [setKey_up hm₁.kbd] at hup
    obtain ⟨hreleased, hm₂⟩ := (hm₁.withKeys .idle).run hup
    obtain ⟨htyped, hm'⟩ := ih hm₂
    exact ⟨.cons hpressed ht hreleased ht' htyped, hm'⟩

/-- A machine runs for as long as one likes. -/
theorem lasting (m : Machine) (n : ℕ) : ∃ t m', n ≤ t ∧ Arrives clocked m t m' :=
  Arrives.lasting (M := clocked) execOne_pos m n

/-- Whatever is to be typed can be typed. -/
theorem exists_typed (G : ℕ) (ks : List Key) (m : Machine) : ∃ m', Typed G ks m m' := by
  induction ks generalizing m with
  | nil => exact ⟨m, .nil m⟩
  | cons k ks ih =>
    obtain ⟨t, m₁, ht, hdown⟩ := (m.setKey k.col k.row true).lasting Monitor.HOLD
    obtain ⟨t', m₂, ht', hup⟩ := (m₁.setKey k.col k.row false).lasting (Monitor.RELEASE + G)
    obtain ⟨m', hrest⟩ := ih m₂
    exact ⟨m', .cons hdown ht hup ht' hrest⟩

end Machine

namespace Monitor

variable {u : ℕ} {s s' : State View} {v : View} {ks : List Key}

/-! ## The machine is switched on -/

/-- `rom/monitor.bin`. -/
def BIN : List U8 := IMAGE ++ List.replicate (2048 - IMAGE.length) 0xFF

/-- `umk_init`, and the monitor in the socket. -/
def powered (rev : Rev) : Machine := ((Machine.init rev).loadRom 0 BIN).2

theorem length_image : IMAGE.length ≤ 2048 := by decide +kernel

theorem length_file : BIN.length = 2048 := by
  rw [BIN, List.length_append, List.length_replicate]
  exact Nat.add_sub_of_le length_image

theorem getElem?_file {i : ℕ} (hi : i < 2048) : BIN[i]? = some (IMAGE[i]?.getD 0xFF) := by
  rw [BIN, List.getElem?_append]
  split
  case isTrue hlt =>
    rw [List.getElem?_eq_getElem hlt]
    rfl
  case isFalse hge =>
    rw [List.getElem?_replicate, if_pos (by omega), List.getElem?_eq_none (Nat.not_lt.mp hge)]
    rfl

-- The file is known by its length and its bytes.
attribute [local irreducible] BIN

theorem fits_file : Fits (0, BIN) := by
  change 0 + BIN.length ≤ 2048
  rw [length_file]

theorem loaded_powered (rev : Rev) : Loaded ((powered rev).toBoard.view rev) := by
  intro a ha
  have hlt : a.toNat < 2048 := ha
  have hload := Machine.peek_loadRom (m := Machine.init rev) rfl (0, BIN) ha
  have hbyte : loadedByte (0, BIN) a = some (romByte a) := by
    rw [loadedByte, if_pos ⟨fits_file, Nat.zero_le _⟩, romByte, List.getD_eq_getElem?_getD]
    exact getElem?_file hlt
  rw [hbyte] at hload
  exact hload

theorem powered_eq (rev : Rev) : ∃ rom,
    powered rev = { Machine.init rev with rom := rom, romPresent := true } := by
  have hfits : ¬ (2048 : U16).toNat < (0 : U16).toNat + BIN.length := by
    rw [length_file]
    decide
  exact ⟨_, congrArg Prod.snd (if_neg hfits)⟩

theorem proper_powered (rev : Rev) : (powered rev).Proper := by
  obtain ⟨rom, hpowered⟩ := powered_eq rev
  rw [hpowered]
  refine ⟨rfl, ⟨?_, show (0 : U8) ≤ 1 by decide⟩⟩
  change Normalised F_ONE
  unfold Normalised
  decide

/-- What the processor sees of a machine that is switched on. -/
theorem running_powered (rev : Rev) : Running (powered rev).view.toState ∧
    (powered rev).view.toState.pc = RESET.entry ∧ (powered rev).Calm .idle := by
  have hloaded := loaded_powered rev
  have hproper := proper_powered rev
  obtain ⟨rom, hpowered⟩ := powered_eq rev
  rw [hpowered] at hloaded hproper ⊢
  exact ⟨⟨hloaded, rfl⟩, rfl, hproper, rfl, rfl⟩

/-- What the board of `rev` shows at the first prompt. -/
def welcome (rev : Rev) : View := ((powered rev).toBoard.view rev).boot.dash

theorem rev_powered (rev : Rev) : (powered rev).rev = rev := by
  obtain ⟨rom, hpowered⟩ := powered_eq rev
  rw [hpowered]
  rfl

/-- **A machine that is switched on** comes to the prompt within 2132 T states and stays there for
as long as no key is pressed. -/
theorem prompt_of_powered (rev : Rev) {t : ℕ} {m : Machine}
    (hrun : Arrives Machine.clocked (powered rev) t m) (ht : 2132 ≤ t) :
    Prompt (welcome rev) m.view.toState ∧ m.Calm .idle := by
  obtain ⟨hstart, hpc, hcalm⟩ := running_powered rev
  obtain ⟨hstate, hm⟩ := hcalm.run hrun
  have henv : (powered rev).view.toState.env = (powered rev).toBoard.view rev := by
    change (powered rev).toBoard.view (powered rev).rev = _
    rw [rev_powered]
  have hboot := hstart.boot hpc hcalm.kbd
  rw [henv] at hboot
  exact ⟨hboot.settles (State.cost_pos View.env) (fun s h => h.step) hstate ht, hm⟩

/-- Keys without a meaning. -/
theorem Prompt.session (h : Prompt v s) (hks : ∀ k ∈ ks, ¬ k.code < 6) :
    Then 577 (Prompt ((fun v => v.ersind.error)^[ks.length] v)) ks s := by
  induction ks generalizing v s with
  | nil => exact h
  | cons k ks ih =>
    refine h.unknown (hks k List.mem_cons_self) (Nat.le_refl 577) fun s' h' => ?_
    exact ih h' fun k' hk' => hks k' (List.mem_cons_of_mem k hk')

/-- **Keys that are not of a directive** bring the machine back to the prompt, with a question mark
for each, and no digit ever shows what belongs to another. -/
theorem session_of_powered (rev : Rev) {t : ℕ} {m m' : Machine}
    (hrun : Arrives Machine.clocked (powered rev) t m) (ht : 2132 ≤ t)
    (hks : ∀ k ∈ ks, ¬ k.code < 6) (htyped : Machine.Typed 577 ks m m') :
    Prompt ((fun v => v.ersind.error)^[ks.length] (welcome rev)) m'.view.toState ∧
      Clean m'.view.env := by
  obtain ⟨hprompt, hm⟩ := prompt_of_powered rev hrun ht
  obtain ⟨hsession, -⟩ := htyped.view hm
  have hend := hsession.ends (fun s h => h.step) (hprompt.session hks)
  exact ⟨hend, hend.clean⟩

/-- ВП is not a directive: it is pressed on a machine that is switched on. -/
theorem session_of_powered_vp : ∃ m m' t, Arrives Machine.clocked (powered .rev1) t m ∧
    Machine.Typed 577 [Key.vp] m m' ∧
    Prompt (welcome .rev1).ersind.error m'.view.toState ∧ Clean m'.view.env := by
  obtain ⟨t, m, ht, hrun⟩ := (powered .rev1).lasting 2132
  obtain ⟨m₂, htyped⟩ := m.exists_typed 577 [Key.vp]
  have hks : ∀ k ∈ [Key.vp], ¬ k.code < 6 := by decide
  obtain ⟨hprompt, hclean⟩ := session_of_powered .rev1 hrun ht hks htyped
  rw [List.length_singleton, Function.iterate_one] at hprompt
  exact ⟨m, m₂, t, hrun, htyped, hprompt, hclean⟩

end Monitor

end Umk80
