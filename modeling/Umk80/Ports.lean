import Mathlib.Data.List.DropRight
import Umk80.DisplayIntegrator
import Umk80.Executions
import Umk80.I8080Output

/-!
# The ports and the keyboard

The КР580ВВ55А is a small state machine. A mode word says which ports are outputs and clears their
latches, a write to a port that is an output loads its latch, and everything else goes by. So what
a latch holds can be read off the history of port writes: the last value written to the port since
the last mode word, if that made it an output. `umk_init` and `umk_reset` write the mode word 9BH,
with which every port is an input.

The keyboard is scanned through port A. A row of the matrix reads low if one of the selected columns
has its key pressed, whatever other columns are selected and whatever other keys are pressed.

## Main definitions

* `modeWord`, `sinceMode`, `latch` — what a history of port writes leaves
* `Ppi.Follows` — the state of the ВВ55 after a history
* `PortLaw` — what the program sees of latches, keys and displays

## Main results

* `Ppi.Follows.writes` — every history
* `Chips.getLsbD_keyboardScan` — the bits of a scan
* `portLaw_writes` — every sequence of port writes after `umk_init` or `umk_reset`
* `Machine.answer_of_input` — what IN reads
* `Machine.portLaw_calls` — every run of the machine
-/

namespace Umk80

open Interaction WhileLoop

/-! ## Histories of port writes -/

/-- A mode word: a port write with bit 7 set, to the control port. -/
def isModeWord (w : U8 × U8) : Bool := w.1 == PORT_CTRL && w.2 &&& 0x80 != 0

/-- The value of the last write of some kind. -/
def lastValue (kind : U8 × U8 → Bool) (ws : List (U8 × U8)) : Option U8 :=
  (ws.filter kind).getLast?.map Prod.snd

/-- The last mode word. `umk_init` and `umk_reset` write 9BH. -/
def modeWord (ws : List (U8 × U8)) : U8 := (lastValue isModeWord ws).getD 0x9B

/-- The writes since the last mode word. -/
def sinceMode (ws : List (U8 × U8)) : List (U8 × U8) := ws.rtakeWhile fun w => !isModeWord w

/-- The last value written to a port since the last mode word, if that leaves the bit `mask` clear,
which makes the port an output. -/
def latch (port mask : U8) (ws : List (U8 × U8)) : U8 :=
  if modeWord ws &&& mask = 0 then (lastValue (·.1 == port) (sinceMode ws)).getD 0 else 0

variable {ws ws' : List (U8 × U8)} {w : U8 × U8} {port val : U8}

theorem lastValue_concat (kind : U8 × U8 → Bool) (ws : List (U8 × U8)) (w : U8 × U8) :
    lastValue kind (ws ++ [w]) = if kind w then some w.2 else lastValue kind ws := by
  unfold lastValue
  rw [List.filter_append]
  by_cases hw : kind w
  · rw [List.filter_cons_of_pos hw, List.filter_nil, List.getLast?_concat, if_pos hw,
      Option.map_some]
  · rw [List.filter_cons_of_neg hw, List.filter_nil, List.append_nil, if_neg hw]

theorem modeWord_of_mode (hw : isModeWord w = true) : modeWord (ws ++ [w]) = w.2 := by
  rw [modeWord, lastValue_concat, if_pos hw, Option.getD_some]

theorem modeWord_of_not_mode (hw : isModeWord w = false) :
    modeWord (ws ++ [w]) = modeWord ws := by
  rw [modeWord, lastValue_concat, hw, if_neg Bool.false_ne_true, modeWord]

/-- A mode word clears the latches. -/
theorem latch_of_mode (hw : isModeWord w = true) (port mask : U8) :
    latch port mask (ws ++ [w]) = 0 := by
  have hsince : sinceMode (ws ++ [w]) = [] := by
    rw [sinceMode, List.rtakeWhile_concat, hw, Bool.not_true, if_neg Bool.false_ne_true]
  rw [latch, hsince]
  exact ite_self _

/-- Any other write loads the latch of its own port, if that is an output. -/
theorem latch_of_not_mode (hw : isModeWord w = false) (port mask : U8) :
    latch port mask (ws ++ [w]) =
      if modeWord ws &&& mask = 0 ∧ w.1 = port then w.2 else latch port mask ws := by
  have hsince : sinceMode (ws ++ [w]) = sinceMode ws ++ [w] := by
    rw [sinceMode, List.rtakeWhile_concat, hw, Bool.not_false, if_pos rfl, sinceMode]
  rw [latch, latch, hsince, modeWord_of_not_mode hw, lastValue_concat]
  by_cases hout : modeWord ws &&& mask = 0
  · rw [if_pos hout, if_pos hout]
    by_cases hport : w.1 = port
    · rw [if_pos (beq_iff_eq.mpr hport), if_pos ⟨hout, hport⟩, Option.getD_some]
    · rw [if_neg (by simpa using hport), if_neg fun h => hport h.2]
  · rw [if_neg hout, if_neg hout, if_neg fun h => hout h.1]

/-! ## The КР580ВВ55А -/

/-- What a port write does to the ВВ55. -/
def Ppi.write (p : Ppi) (port val : U8) : Ppi :=
  if port = PORT_A then if p.aIsOut then { p with outA := val } else p
  else if port = PORT_B then if p.bIsOut then { p with outB := val } else p
  else if port = PORT_C then
    let p := if p.cLoIsOut then { p with outC := p.outC &&& 0xF0 ||| val &&& 0x0F } else p
    if p.cHiIsOut then { p with outC := p.outC &&& 0x0F ||| val &&& 0xF0 } else p
  else if port = PORT_CTRL then p.writeControl val
  else p

def Ppi.writes (p : Ppi) (ws : List (U8 × U8)) : Ppi := ws.foldl (fun p w => p.write w.1 w.2) p

def Chips.withKeys (b : Chips) (kbd : Keyboard) : Chips := { b with kbd := kbd }

def Chips.writes (b : Chips) (ws : List (U8 × U8)) : Chips :=
  ws.foldl (fun b w => b.busOut w.1 w.2) b

theorem Chips.ppi_busOut (b : Chips) (port val : U8) :
    (b.busOut port val).ppi = b.ppi.write port val := by
  unfold busOut Ppi.write
  by_cases ha : port = PORT_A
  · rw [if_pos ha, if_pos ha]
    dsimp only [advanceToWrite, displayAdvance]
    split
    · rfl
    · rfl
  by_cases hb : port = PORT_B
  · rw [if_neg ha, if_neg ha, if_pos hb, if_pos hb]
    dsimp only [advanceToWrite, displayAdvance]
    split
    · rfl
    · rfl
  rw [if_neg ha, if_neg ha, if_neg hb, if_neg hb]
  by_cases hc : port = PORT_C
  · rw [if_pos hc, if_pos hc]
  rw [if_neg hc, if_neg hc]
  by_cases hctrl : port = PORT_CTRL
  · rw [if_pos hctrl, if_pos hctrl]
    rfl
  rw [if_neg hctrl, if_neg hctrl]
  split
  · rfl
  · rfl

theorem Chips.ppi_writes (b : Chips) (ws : List (U8 × U8)) :
    (b.writes ws).ppi = b.ppi.writes ws := by
  induction ws generalizing b with
  | nil => rfl
  | cons w ws ih =>
    have hrest := ih (b.busOut w.1 w.2)
    rw [b.ppi_busOut] at hrest
    exact hrest

theorem Ppi.writes_append (p : Ppi) (ws ws' : List (U8 × U8)) :
    p.writes (ws ++ ws') = (p.writes ws).writes ws' := List.foldl_append

/-- The state of the ВВ55 after a history of port writes. -/
structure Ppi.Follows (p : Ppi) (ws : List (U8 × U8)) : Prop where
  ctrl : p.ctrl = modeWord ws
  aIsOut : p.aIsOut = (p.ctrl &&& 0x10 == 0)
  bIsOut : p.bIsOut = (p.ctrl &&& 0x02 == 0)
  outA : p.outA = latch PORT_A 0x10 ws
  outB : p.outB = latch PORT_B 0x02 ws

theorem Machine.follows_init (rev : Rev) : (init rev).ppi.Follows [] := ⟨rfl, rfl, rfl, rfl, rfl⟩

theorem Machine.follows_reset (m : Machine) : m.reset.ppi.Follows [] := ⟨rfl, rfl, rfl, rfl, rfl⟩

/-- A bit set/reset word changes nothing but port C. -/
theorem Ppi.writeControl_of_bit (p : Ppi) (h : val &&& 0x80 = 0) :
    ∃ outC, p.writeControl val = { p with outC := outC } := by
  rw [writeControl, if_neg (not_not.mpr h)]
  dsimp only
  split
  · exact ⟨_, rfl⟩
  · exact ⟨_, rfl⟩

/-- Whatever is not a mode word loads the latch of its own port, if that is an output. -/
theorem Ppi.write_of_not_mode (p : Ppi) (h : isModeWord (port, val) = false) :
    (p.write port val).ctrl = p.ctrl ∧ (p.write port val).aIsOut = p.aIsOut ∧
      (p.write port val).bIsOut = p.bIsOut ∧
      (p.write port val).outA = (if p.aIsOut ∧ port = PORT_A then val else p.outA) ∧
      (p.write port val).outB = (if p.bIsOut ∧ port = PORT_B then val else p.outB) := by
  by_cases ha : port = PORT_A
  · subst ha
    rw [write, if_pos rfl]
    cases haOut : p.aIsOut with
    | true => simp [PORT_A, PORT_B]
    | false => simp [haOut, PORT_A, PORT_B]
  by_cases hb : port = PORT_B
  · subst hb
    rw [write, if_neg ha, if_pos rfl]
    cases hbOut : p.bIsOut with
    | true => simp [ha]
    | false => simp [hbOut, ha]
  have hkeep (outC : U8) : (({ p with outC := outC } : Ppi).outA =
      if p.aIsOut ∧ port = PORT_A then val else p.outA) ∧
      ({ p with outC := outC } : Ppi).outB =
        if p.bIsOut ∧ port = PORT_B then val else p.outB :=
    ⟨(if_neg fun h => ha h.2).symm, (if_neg fun h => hb h.2).symm⟩
  have hsame : ∃ outC, p.write port val = { p with outC := outC } := by
    rw [write, if_neg ha, if_neg hb]
    by_cases hc : port = PORT_C
    · rw [if_pos hc]
      dsimp only
      split_ifs
      all_goals exact ⟨_, rfl⟩
    rw [if_neg hc]
    by_cases hctrl : port = PORT_CTRL
    · rw [if_pos hctrl]
      refine p.writeControl_of_bit ?_
      simpa [isModeWord, hctrl] using h
    · rw [if_neg hctrl]
      exact ⟨p.outC, rfl⟩
  obtain ⟨outC, heq⟩ := hsame
  rw [heq]
  exact ⟨rfl, rfl, rfl, hkeep outC⟩

/-- **One port write.** -/
theorem Ppi.Follows.write {p : Ppi} (h : p.Follows ws) (port val : U8) :
    (p.write port val).Follows (ws ++ [(port, val)]) := by
  cases hw : isModeWord (port, val) with
  | true =>
    obtain ⟨hctrl, hbit⟩ : port = PORT_CTRL ∧ val &&& 0x80 ≠ 0 := by simpa [isModeWord] using hw
    have hword : p.write port val = p.writeControl val := by
      rw [hctrl]
      rfl
    rw [hword, writeControl, if_pos hbit]
    exact ⟨(modeWord_of_mode hw).symm, rfl, rfl, (latch_of_mode hw _ _).symm,
      (latch_of_mode hw _ _).symm⟩
  | false =>
    obtain ⟨hctrl, ha, hb, houtA, houtB⟩ := p.write_of_not_mode hw
    have hout {mask : U8} {isOut : Bool} (hisOut : isOut = (p.ctrl &&& mask == 0)) :
        modeWord ws &&& mask = 0 ↔ isOut = true := by
      rw [hisOut, h.ctrl, beq_iff_eq]
    refine ⟨?_, ?_, ?_, ?_, ?_⟩
    · rw [hctrl, modeWord_of_not_mode hw, h.ctrl]
    · rw [ha, hctrl, h.aIsOut]
    · rw [hb, hctrl, h.bIsOut]
    · rw [houtA, latch_of_not_mode hw, h.outA]
      simp only [hout h.aIsOut]
    · rw [houtB, latch_of_not_mode hw, h.outB]
      simp only [hout h.bIsOut]

/-- **Every history.** -/
theorem Ppi.Follows.writes {p : Ppi} (h : p.Follows ws) (ws' : List (U8 × U8)) :
    (p.writes ws').Follows (ws ++ ws') := by
  induction ws' generalizing p ws with
  | nil => rwa [List.append_nil]
  | cons w ws' ih =>
    rw [List.append_cons]
    exact ih (h.write w.1 w.2)

/-! ## The keyboard -/

theorem rowBit_lt (r : Fin 4) : ROW_BIT r < 8 := by
  revert r
  decide

theorem rowBit_inj : ∀ {r r' : Fin 4}, ROW_BIT r = ROW_BIT r' → r = r' := by decide

theorem getLsbD_rowMask : ∀ (r : Fin 4) (k : Fin 8),
    (~~~((1 : U8) <<< ROW_BIT r)).getLsbD k = !decide (ROW_BIT r = k) := by
  decide

/-- **A loop that clears bits.** A bit survives if no round clears it. -/
theorem getLsbD_foldl_clear {ι : Type} (f : U8 → ι → U8) (hit : ι → Bool) (k : ℕ)
    (hf : ∀ v i, (f v i).getLsbD k = (v.getLsbD k && !hit i)) (is : List ι) (v : U8) :
    (is.foldl f v).getLsbD k = (v.getLsbD k && !is.any hit) := by
  induction is generalizing v with
  | nil => simp
  | cons i is ih => rw [List.foldl_cons, ih, hf, List.any_cons, Bool.not_or, Bool.and_assoc]

namespace Chips

variable (b : Chips)

/-- Column `c` is selected, and one of its keys is pressed in the row that appears on bit `k`. -/
def pulls (k : ℕ) (c : Fin 6) : Bool :=
  (b.ppi.outA &&& 0x3F).getLsbD c &&
    (List.finRange 4).any fun r => b.kbd.pressed c r && decide (ROW_BIT r = k)

/-- **A bit of the scan** is 1 unless a selected column pulls it down. -/
theorem getLsbD_keyboardScan (k : Fin 8) :
    b.keyboardScan.getLsbD k = !(List.finRange 6).any (b.pulls k) := by
  have hidle : (0xFF : U8).getLsbD k = true := by
    revert k
    decide
  have hrow (c : Fin 6) (v : U8) (r : Fin 4) :
      (if b.kbd.pressed c r then v &&& ~~~((1 : U8) <<< ROW_BIT r) else v).getLsbD k =
        (v.getLsbD k && !(b.kbd.pressed c r && decide (ROW_BIT r = k))) := by
    cases b.kbd.pressed c r with
    | true => rw [if_pos rfl, BitVec.getLsbD_and, getLsbD_rowMask, Bool.true_and]
    | false => simp
  rw [keyboardScan, getLsbD_foldl_clear _ (b.pulls k) k, hidle, Bool.true_and]
  intro v c
  rw [pulls]
  cases (b.ppi.outA &&& 0x3F).getLsbD c with
  | true => rw [if_pos rfl, Bool.true_and, getLsbD_foldl_clear _ _ k (hrow c)]
  | false => simp

theorem getLsbD_and_columns : ∀ (v : U8) (c : Fin 6), (v &&& 0x3F).getLsbD c = v.getLsbD c := by
  intro v c
  have hmask : (0x3F : U8).getLsbD c = true := by
    revert c
    decide
  rw [BitVec.getLsbD_and, hmask, Bool.and_true]

/-- **A row** reads low exactly if some selected column has its key pressed. -/
theorem getLsbD_row (r : Fin 4) : b.keyboardScan.getLsbD (ROW_BIT r) = false ↔
    ∃ c : Fin 6, b.ppi.outA.getLsbD c = true ∧ b.kbd.pressed c r = true := by
  rw [b.getLsbD_keyboardScan ⟨ROW_BIT r, rowBit_lt r⟩, Bool.not_eq_false', List.any_eq_true]
  simp only [pulls, getLsbD_and_columns, Bool.and_eq_true, List.any_eq_true, decide_eq_true_eq]
  constructor
  · rintro ⟨c, -, hcol, r', -, hkey, hbit⟩
    obtain rfl := rowBit_inj hbit
    exact ⟨c, hcol, hkey⟩
  · rintro ⟨c, hcol, hkey⟩
    exact ⟨c, List.mem_finRange c, hcol, r, List.mem_finRange r, hkey, rfl⟩

/-- The bits of port C on which no row appears. -/
theorem getLsbD_noRow {k : Fin 8} (hk : ∀ r, ROW_BIT r ≠ k) :
    b.keyboardScan.getLsbD k = true := by
  rw [getLsbD_keyboardScan, Bool.not_eq_true', List.any_eq_false]
  intro c _
  simp [pulls, hk]

/-- Without a column no key is visible. -/
theorem keyboardScan_of_columns (h : b.ppi.outA = 0) : b.keyboardScan = 0xFF := by
  refine BitVec.eq_of_getLsbD_eq fun k hk => ?_
  have hnone : (List.finRange 6).any (b.pulls k) = false := by
    rw [List.any_eq_false]
    intro c _
    simp [pulls, h]
  have hidle : ∀ k : Fin 8, (0xFF : U8).getLsbD k = true := by decide
  rw [b.getLsbD_keyboardScan ⟨k, hk⟩, hnone, hidle ⟨k, hk⟩]
  rfl

end Chips

/-! ## The displays -/

namespace Display

theorem slot_step_le (d : Display) (k : Slot) : d.step.slot k ≤ d.slot k := by
  have hleak (x : U32) : x - x >>> DECAY_SHIFT ≤ x := by
    rw [BitVec.le_def, toNat_leak]
    exact LeakyIntegrator.leak_le _ _
  cases k with
  | pair i j => exact hleak _
  | digit i => exact hleak _
  | total => exact hleak _

theorem slot_decayLoop_le (size : U32) (n : ℕ) (k : Slot) : ∀ (steps : ℕ) (d : Display),
    (decayLoop size n steps d).2.slot k ≤ d.slot k := by
  induction n with
  | zero => exact fun _ d => BitVec.le_refl _
  | succ n ih =>
    intro steps d
    rw [decayLoop]
    split
    · refine BitVec.le_trans (ih _ _) (BitVec.le_trans (slot_step_le _ k) ?_)
      cases k
      all_goals exact BitVec.le_refl _
    · exact BitVec.le_refl _

/-- Nothing grows while it decays. -/
theorem slot_decay_le (d : Display) (dt : U32) (k : Slot) : (d.decay dt).slot k ≤ d.slot k := by
  have hloop := slot_decayLoop_le d.stepSize DECAY_MAX_STEPS k 0
    { d with decayAcc := d.decayAcc + dt }
  have hstart : ({ d with decayAcc := d.decayAcc + dt } : Display).slot k = d.slot k := by
    cases k
    all_goals rfl
  rw [hstart] at hloop
  rw [decay]
  split
  · cases k
    all_goals exact Nat.zero_le (BitVec.toNat _)
  · exact hloop

/-- **No digit is lit** while no column is selected: nothing but the total grows. -/
theorem slot_advance_le (d : Display) (outB : U8) (t : U64) {k : Slot} (hk : k ≠ .total) :
    (d.advance 0 outB t).slot k ≤ d.slot k := by
  rw [advance]
  split
  · exact BitVec.le_refl _
  · refine BitVec.le_trans (slot_decay_le _ _ k) ?_
    rw [slot_deposit]
    cases k with
    | pair i j => simp [lit, slot]
    | digit i => simp [lit, slot]
    | total => exact absurd rfl hk

end Display

/-! ## The law of the ports -/

/-- What the program sees of latches, keys and displays after a history of port writes. -/
structure PortLaw (ws : List (U8 × U8)) (b : Chips) : Prop where
  /-- Port A holds the last value written to it since the last mode word, if that word makes it an
  output, and 0 otherwise. -/
  latchA : b.ppi.outA = latch PORT_A 0x10 ws
  /-- So does port B. -/
  latchB : b.ppi.outB = latch PORT_B 0x02 ws
  /-- A bit set/reset word disturbs neither. -/
  bitWord : ∀ val, val &&& 0x80 = 0 → (b.busOut PORT_CTRL val).ppi.outA = b.ppi.outA ∧
    (b.busOut PORT_CTRL val).ppi.outB = b.ppi.outB
  /-- IN 0FAH reads 1 on the bits without a row. -/
  idle : ∀ k ∈ [0, 1, 3, 7], (b.busIn PORT_C).getLsbD k = true
  /-- A row reads 0 exactly if a column that port A selects has its key pressed. -/
  row : ∀ r : Fin 4, (b.busIn PORT_C).getLsbD (ROW_BIT r) = false ↔
    ∃ c : Fin 6, (latch PORT_A 0x10 ws).getLsbD c = true ∧ b.kbd.pressed c r = true
  /-- While port A is not an output, no key is visible. -/
  hidden : modeWord ws &&& 0x10 ≠ 0 → b.busIn PORT_C = 0xFF
  /-- Nor is any digit lit, whatever time passes. -/
  dark : modeWord ws &&& 0x10 ≠ 0 → ∀ t i,
    (b.displayAdvance t).display.energyDigit i ≤ b.display.energyDigit i ∧
      ∀ j, (b.displayAdvance t).display.energy i j ≤ b.display.energy i j

theorem Ppi.Follows.portLaw {b : Chips} (h : b.ppi.Follows ws) : PortLaw ws b := by
  have hzero (hin : modeWord ws &&& 0x10 ≠ 0) : b.ppi.outA = 0 := by rw [h.outA, latch, if_neg hin]
  refine ⟨h.outA, h.outB, fun val hval => ?_, fun k hk => ?_, fun r => ?_, fun hin => ?_,
    fun hin t i => ?_⟩
  · obtain ⟨outC, hword⟩ := b.ppi.writeControl_of_bit hval
    have hwrite : b.ppi.write PORT_CTRL val = b.ppi.writeControl val := rfl
    rw [b.ppi_busOut, hwrite, hword]
    exact ⟨rfl, rfl⟩
  · have hlt : k < 8 := by
      revert k
      decide
    have hnoRow : ∀ r, ROW_BIT r ≠ k := by
      revert k
      decide
    exact b.getLsbD_noRow (k := ⟨k, hlt⟩) hnoRow
  · rw [← h.outA]
    exact b.getLsbD_row r
  · exact b.keyboardScan_of_columns (hzero hin)
  · have hslot (k : Display.Slot) (hk : k ≠ .total) :
        (b.displayAdvance t).display.slot k ≤ b.display.slot k := by
      rw [Chips.displayAdvance, hzero hin]
      exact b.display.slot_advance_le _ _ hk
    exact ⟨hslot (.digit i) nofun, fun j => hslot (.pair i j) nofun⟩

/-- **Every sequence of port writes** after `umk_init` or `umk_reset`, with any keys pressed. -/
theorem portLaw_writes (ws : List (U8 × U8)) (kbd : Keyboard) :
    (∀ rev, PortLaw ws (((Machine.init rev).toChips.writes ws).withKeys kbd)) ∧
      ∀ m : Machine, PortLaw ws ((m.reset.toChips.writes ws).withKeys kbd) := by
  have hlaw {b : Chips} (h : b.ppi.Follows []) : PortLaw ws ((b.writes ws).withKeys kbd) := by
    refine Ppi.Follows.portLaw ?_
    change (b.writes ws).ppi.Follows ws
    rw [b.ppi_writes]
    exact h.writes ws
  exact ⟨fun rev => hlaw (Machine.follows_init rev), fun m => hlaw m.follows_reset⟩

/-! ## Instructions -/

/-- The port writes among some bus calls. -/
def outputs (es : List BusEvent) : List (U8 × U8) :=
  es.filterMap fun
    | ⟨.output port val, _⟩ => some (port, val)
    | _ => none

namespace Machine

/-- The bus calls of the next instruction. -/
def busCalls (m : Machine) : List BusEvent :=
  (I8080.step.run m.cpu).runLog busHandler m.started

/-- The port writes of the next instruction. -/
def portWrites (m : Machine) : List (U8 × U8) := outputs m.busCalls

/-- The ports are the same. -/
def SamePorts (m m' : Machine) : Prop := m'.ppi = m.ppi

theorem ppi_busHandler (o : BusOp) (v : o.Ans) (b : Board) :
    (busHandler o b).2.ppi = b.ppi.writes (outputs [⟨o, v⟩]) := by
  cases o with
  | read addr st => rfl
  | write addr val st =>
    change (b.poke addr val).toChips.ppi = b.ppi
    rw [b.toChips_poke]
  | input port => rfl
  | output port val => exact b.toChips.ppi_busOut port val

/-- Some bus calls do to the ports what the port writes among them do. -/
theorem ppi_foldl (es : List BusEvent) (b : Board) :
    (es.foldl (fun b e => (busHandler e.1 b).2) b).ppi = b.ppi.writes (outputs es) := by
  induction es generalizing b with
  | nil => rfl
  | cons e es ih =>
    have hsplit : outputs (e :: es) = outputs [e] ++ outputs es := List.filterMap_append (l := [e])
    rw [List.foldl_cons, ih, ppi_busHandler e.1 e.2, hsplit, Ppi.writes_append]

/-- **One instruction.** -/
theorem ppi_execOne (m : Machine) : m.execOne.2.ppi = m.ppi.writes m.portWrites := by
  have hrun := Prog.run_eq_foldl busHandler (I8080.step.run m.cpu) m.started
  change (Prog.run busHandler (I8080.step.run m.cpu) m.started).2.ppi = _
  rw [hrun]
  exact ppi_foldl m.busCalls m.started

theorem ppi_loadRam (m : Machine) (addr : U16) (data : List U8) :
    (m.loadRam addr data).ppi = m.ppi := by
  induction data generalizing m addr with
  | nil => rfl
  | cons v data ih =>
    rw [loadRam, ih (m.poke addr v) (addr + 1)]
    exact ppi_busHandler (.write addr v 0) () m.toBoard

/-- Bus calls that write no port change nothing that a port shows. -/
theorem busIn_foldl {es : List BusEvent} (hes : ∀ e ∈ es, e.1.isOutput = false) (b : Board)
    (port : U8) : (es.foldl (fun b e => (busHandler e.1 b).2) b).busIn port = b.busIn port := by
  induction es generalizing b with
  | nil => rfl
  | cons e es ih =>
    obtain ⟨he, hes⟩ := List.forall_mem_cons.mp hes
    rw [List.foldl_cons, ih hes]
    obtain ⟨o, v⟩ := e
    cases o with
    | read addr st => rfl
    | write addr val st =>
      change (b.poke addr val).toChips.busIn port = b.toChips.busIn port
      rw [b.toChips_poke]
      rfl
    | input port => rfl
    | output port val => exact absurd he.symm Bool.false_ne_true

/-- **What IN reads** is what the port shows before the instruction, which writes no port before it
reads one. -/
theorem answer_of_input {m : Machine} {port v : U8} (h : ⟨.input port, v⟩ ∈ m.busCalls) :
    v = m.toChips.busIn port := by
  obtain ⟨pre, post, heq⟩ := List.append_of_mem h
  have hpre : ∀ e ∈ pre, e.1.isOutput = false := by
    rcases I8080.outLast_step busHandler (m.cpu, m.started) with
      hquiet | ⟨-, before, port', val, hlast, hquiet⟩
    · intro e he
      refine hquiet e ?_
      change e ∈ m.busCalls
      rw [heq]
      exact List.mem_append_left _ he
    · have hends : before ++ [⟨.output port' val, ()⟩] = pre ++ ⟨.input port, v⟩ :: post := by
        rw [← hlast]
        exact heq
      have hlen := congrArg List.length hends
      simp only [List.length_append, List.length_cons, List.length_nil] at hlen
      have hhead : pre <+: before :=
        List.prefix_of_prefix_length_le (List.prefix_append _ _) ⟨_, hends⟩ (by omega)
      exact fun e he => hquiet e (hhead.subset he)
  have hanswer := Prog.runLog_answer busHandler (I8080.step.run m.cpu) m.started heq
  calc v = _ := hanswer
    _ = m.started.busIn port := busIn_foldl hpre m.started port

/-! ## Runs of the machine -/

/-- **A call** leads through the instructions it executes, and otherwise leaves the ports alone. -/
theorem via_call {fuel : ℕ} {c : Call} {m m' : Machine} (hc : c ≠ .reset)
    (h : m.call fuel c = some m') : Via SamePorts m (m.executions fuel c) m' := by
  have harch {ms : List Machine} {m' : Machine} (h : Via SameArch m ms m') :
      Via SamePorts m ms m' := h.mono fun h => congrArg Arch.ppi h
  cases c with
  | runCycles cycles => exact harch (via_runCycles h)
  | stepInstruction => cases h; exact harch m.via_stepInstruction
  | stepMachineCycle => cases h; exact harch m.via_cycle
  | pressStep => cases h; exact harch (m.via_pressStep fuel)
  | reset => exact absurd rfl hc
  | loadRom offset data =>
    cases h
    refine .nil ?_
    unfold loadRom SamePorts
    split
    · rfl
    · rfl
  | loadRam addr data =>
    cases h
    exact .nil (m.ppi_loadRam addr data)
  | poke addr val =>
    cases h
    exact .nil (ppi_busHandler (.write addr val 0) () m.toBoard)
  | setSwitch sw latched =>
    cases h
    cases sw with
    | step => exact .nil rfl
    | cycle => exact .nil rfl
  | setKey col row down =>
    cases h
    refine .nil ?_
    unfold setKey SamePorts
    split
    · rfl
    · rfl
  | interrupt => cases h; exact .nil rfl
  | releaseAllKeys => cases h; exact .nil rfl
  | setPowerFault p5 m5 p12 => cases h; exact .nil rfl
  | displayClearAccumulator => cases h; exact .nil rfl
  | displaySetDigitOrder order => cases h; exact .nil rfl
  | displaySetPersistence tau => cases h; exact .nil rfl

theorem via_calls {fuel : ℕ} {cs : List Call} {m m' : Machine} (hcs : .reset ∉ cs)
    (h : m.calls fuel cs = some m') : Via SamePorts m (m.executionsAll fuel cs) m' := by
  induction cs generalizing m with
  | nil =>
    cases h
    exact .nil rfl
  | cons c cs ih =>
    obtain ⟨m₁, hcall, hrest⟩ := Option.bind_eq_some_iff.mp h
    obtain ⟨hc, hcs⟩ : Call.reset ≠ c ∧ .reset ∉ cs := by simpa using hcs
    rw [executionsAll_cons hcall]
    exact (via_call hc.symm hcall).append (R := SamePorts) (fun h h' => Eq.trans h' h)
      (ih hcs hrest)

/-- **The history of a run** drives the ports: every instruction finds them as the port writes of
the instructions before it leave them. -/
theorem Via.follows {m m' : Machine} {ms : List Machine} (h : Via SamePorts m ms m')
    (hm : m.ppi.Follows ws) : m'.ppi.Follows (ws ++ ms.flatMap portWrites) ∧
      ∀ pre m₁ post, ms = pre ++ m₁ :: post →
        m₁.ppi.Follows (ws ++ pre.flatMap portWrites) := by
  induction h generalizing ws with
  | @nil m m' h₀ =>
    have hppi : m'.ppi = m.ppi := h₀
    refine ⟨?_, fun pre m₁ post heq => ?_⟩
    · rw [hppi, List.flatMap_nil, List.append_nil]
      exact hm
    · exact absurd heq.symm (List.append_ne_nil_of_right_ne_nil _ (List.cons_ne_nil _ _))
  | @cons m m₁ m' ms h₀ _ ih =>
    have hppi : m₁.ppi = m.ppi := h₀
    have hexec : m₁.execOne.2.ppi.Follows (ws ++ m₁.portWrites) := by
      rw [m₁.ppi_execOne, hppi]
      exact hm.writes _
    obtain ⟨hend, hbetween⟩ := ih hexec
    rw [List.flatMap_cons, ← List.append_assoc]
    refine ⟨hend, fun pre m₂ post heq => ?_⟩
    cases pre with
    | nil =>
      obtain ⟨rfl, -⟩ := List.cons.inj heq
      rw [hppi, List.flatMap_nil, List.append_nil]
      exact hm
    | cons m₃ pre =>
      obtain ⟨rfl, hrest⟩ := List.cons.inj heq
      rw [List.flatMap_cons, ← List.append_assoc]
      exact hbetween pre m₂ post hrest

/-- **Every run** from `umk_init` or `umk_reset`. The law holds after the run and between any two of
its instructions, with the port writes made so far and the keys pressed then; and what an
instruction reads from a port is what the port shows. -/
theorem portLaw_calls {m₀ m : Machine} (h₀ : (∃ rev, m₀ = init rev) ∨ ∃ m₁ : Machine, m₀ = m₁.reset)
    {fuel : ℕ} {cs : List Call} (hcs : .reset ∉ cs) (h : m₀.calls fuel cs = some m) :
    PortLaw ((m₀.executionsAll fuel cs).flatMap portWrites) m.toChips ∧
      ∀ pre m₁ post, m₀.executionsAll fuel cs = pre ++ m₁ :: post →
        PortLaw (pre.flatMap portWrites) m₁.toChips ∧
          ∀ port v, ⟨.input port, v⟩ ∈ m₁.busCalls → v = m₁.toChips.busIn port := by
  have hstart : m₀.ppi.Follows [] := by
    rcases h₀ with ⟨rev, rfl⟩ | ⟨m₁, rfl⟩
    · exact follows_init rev
    · exact m₁.follows_reset
  obtain ⟨hend, hbetween⟩ := (via_calls hcs h).follows hstart
  exact ⟨hend.portLaw, fun pre m₁ post heq =>
    ⟨(hbetween pre m₁ post heq).portLaw, fun port v hv => answer_of_input hv⟩⟩

end Machine

end Umk80
