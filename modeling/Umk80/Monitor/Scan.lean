import Umk80.Monitor.Buffer

/-!
# Waiting for a key

CI refreshes the display and scans the keyboard, digit by digit, until a key is seen. Nothing ends
this loop from inside, so what is shown is that it comes back, again and again, to the instruction
that reads the rows. Up to there no port is read. A key may therefore go down at any moment: the
machine is as near to its next look at the keyboard as it was.

The segments are dark while the digit changes. So at no moment does a digit show what belongs to
another.

## Main definitions

* `Monitor.AtRead` — the machine is about to read the rows, with one digit selected
* `Monitor.Waiting` — the machine is in the loop
* `Monitor.Clean` — the segments are those of the selected digit, or dark

## Main results

* `Monitor.Waiting.reaches` — the loop does not end while no key is down
* `Monitor.Waiting.clean` — no ghosts
* `Monitor.Waiting.keys` — a key may go down at any moment
-/

namespace Umk80

open Isa TimedRuns

namespace View

/-- Other keys are down. -/
def keys (kbd : Keyboard) (v : View) : View := { v with kbd := kbd }

/-- The digits and the segments that are selected. -/
def latch (v : View) (a b : U8) : View := { v with ppi := { v.ppi with outA := a, outB := b } }

/-- Ports A and B are outputs. -/
structure Ready (v : View) : Prop where
  a : v.ppi.aIsOut = true
  b : v.ppi.bIsOut = true

variable {v : View}

theorem output_a (hv : v.Ready) (a b x : U8) : (v.latch a b).output 0xF8 x = v.latch x b := by
  obtain ⟨rev, mem, ppi, kbd, dbg⟩ := v
  have ha : ppi.aIsOut = true := hv.a
  simp only [output, latch, Ppi.write, PORT_A, ha, if_true]
  rfl

theorem output_b (hv : v.Ready) (a b x : U8) : (v.latch a b).output 0xF9 x = v.latch a x := by
  obtain ⟨rev, mem, ppi, kbd, dbg⟩ := v
  have hb : ppi.bIsOut = true := hv.b
  simp only [output, latch, Ppi.write, hb]
  rfl

/-- A key is seen by IN only. -/
theorem unseen_keys (kbd : Keyboard) : Unseen env (keys kbd) :=
  ⟨fun _ _ => rfl, fun _ _ _ => rfl, fun _ _ _ => rfl⟩

end View

/-- No key is down. -/
def Keyboard.idle : Keyboard := ⟨fun _ _ => false⟩

namespace Monitor

/-! ## Digits and columns -/

/-- The bit of a digit, which is also that of a column of keys. -/
def column (i : Fin 6) : U8 := 1 <<< i.val

/-- The byte of a digit. -/
def place (i : Fin 6) : U16 := BUFCD + BitVec.ofNat 16 (5 - i.val)

theorem shown_place : ∀ i : Fin 6, Shown (place i) := by decide

theorem place_succ : ∀ {i : Fin 6}, i ≠ 0 → place i + 1 = place (i - 1) := by decide

theorem column_rotateRight : ∀ i : Fin 6, i ≠ 0 → (column i).rotateRight 1 = column (i - 1) := by
  decide

theorem getLsbD_column : ∀ i : Fin 6, (column i).getLsbD 0 = decide (i = 0) := by decide

/-- No ghosts: the segments are those of the selected digit, or dark. -/
def Clean (e : View) : Prop :=
  e.ppi.outB = 0 ∨ ∃ i, e.ppi.outA = column i ∧ e.ppi.outB = e.mem (place i)

/-! ## The loop -/

def CI : Routine where
  entry := 0x02CD
  code := [.push .bc,
    -- CIBEG
    .lxi .hl 0x0FFA, .mvi .b 0x20,
    -- CILOOP
    .mov .a .b, .out 0xF8, .mov .a .m, .out 0xF9, .inp 0xFA, .alui .ana 0x74, .alui .cmp 0x74,
    .mvi .a 0, .out 0xF9, .jcc .nz 0x02F0, .inx .hl, .mov .a .b, .rrc, .mov .b .a, .jcc .nc 0x02D3,
    .jmp 0x02CE,
    -- CISMB
    .call 0x035B, .inp 0xFA, .mov .c .a, .inp 0xFA, .alui .ana 0x74, .alui .cmp 0x74,
    .jcc .nz 0x02F6, .call 0x035B,
    -- CONV
    .mov .a .c, .alui .ana 0x10, .jcc .nz 0x030A, .mvi .c 0, .mov .a .c, .alui .ana 0x64, .rar,
    .rar, .rar, .mov .c .a, .mov .a .b, .alui .ana 3, .jcc .nz 0x032B, .mov .a .b, .rar, .rar, .rar,
    .alui .cmp 4, .jcc .nz 0x0321, .dcr .a, .alu .add .c, .alui .ora 0x30, .alui .cmp 0x3A,
    .pop .bc, .rcc .c, .alui .add 7, .ret,
    -- FUNC
    .dcr .a, .mov .b .a, .mov .a .c, .rrc, .alu .add .b, .pop .bc, .ret]

/-- A digit begins. -/
structure AtHead (ws : List U16) (v : View) (i : Fin 6) (s : State View) : Prop where
  ready : v.Ready
  stands : ∃ x, Stands s ws (v.latch x 0)
  pc : s.pc = CI.addr 3
  b : s.b = column i
  hl : s.hl = place i

/-- The rows are about to be read, while the digit shows its byte. -/
structure AtRead (ws : List U16) (v : View) (i : Fin 6) (s : State View) : Prop where
  ready : v.Ready
  stands : Stands s ws (v.latch (column i) (v.mem (place i)))
  pc : s.pc = CI.addr 7
  b : s.b = column i
  hl : s.hl = place i

variable {u : ℕ} {w : U16} {s : State View} {ws : List U16} {v : View} {i : Fin 6}
  {Q : State View → Prop}

-- Writes are compared by their address and value, not byte by byte.
attribute [local irreducible] View.write View.output

theorem runs_select (s : State View) : runs View.env (jump s (CI.addr 3)) (CI.piece 3 2) =
    { s with pc := CI.addr 5, a := s.b, env := s.env.output 0xF8 s.b } := by
  obtain ⟨⟨⟩, _⟩ := s
  rfl

theorem runs_show (s : State View) : runs View.env (jump s (CI.addr 5)) (CI.piece 5 2) =
    { s with
      pc := CI.addr 7
      a := s.env.mem s.hl
      env := s.env.output 0xF9 (s.env.mem s.hl) } := by
  obtain ⟨⟨⟩, _⟩ := s
  rfl

theorem clean_of_dark {x : U8} (hs : Stands s ws (v.latch x 0)) : Clean s.env :=
  .inl (congrArg Ppi.outB hs.rest.2.1)

/-- A digit is selected and shown. -/
theorem AtHead.read (h : AtHead ws v i s) :
    Within M (Hushed View.env Clean) 32 (AtRead ws v i) s := by
  obtain ⟨hready, ⟨x, hs⟩, hpc, hb, hhl⟩ := h
  refine Within.le (t := 15 + (17 + 0)) ?_ (by omega)
  refine piece_hushed CI 3 2 rfl rfl rfl hs.toRunning (clean_of_dark hs) hpc (runs_select s) ?_
  have hs₁ : Stands { s with pc := CI.addr 5, a := s.b, env := s.env.output 0xF8 s.b } ws
      (v.latch (column i) 0) := by
    rw [← hb, ← View.output_a hready x]
    exact hs.output 0xF8 s.b rfl rfl rfl
  refine piece_hushed CI 5 2 rfl rfl rfl hs₁.toRunning (clean_of_dark hs₁) rfl (runs_show _) ?_
  have hmem : (s.env.output 0xF8 s.b).mem (place i) = v.mem (place i) :=
    hs₁.mem _ (not_private_of_shown (shown_place i))
  refine Within.of ⟨hready, ?_, rfl, hb, hhl⟩
  rw [← hmem, ← View.output_b hready _ 0, ← hhl]
  exact hs₁.output 0xF9 _ rfl rfl rfl

theorem runs_look (s : State View) : ∃ fl, fl.zero = ((s.a &&& 0x74) - 0x74 - 0#8 == 0) ∧
    runs View.env (jump s (CI.addr 8)) (CI.piece 8 4) =
      { s with pc := CI.addr 12, a := 0, flags := fl, env := s.env.output 0xF9 0 } := by
  obtain ⟨⟨⟩, _⟩ := s
  exact ⟨_, rfl, rfl⟩

theorem runs_next (s : State View) : ∃ a fl, fl.carry = s.b.getLsbD 0 ∧
    runs View.env (jump s (CI.addr 13)) (CI.piece 13 4) =
      State.setHl { s with pc := CI.addr 17, a := a, b := s.b.rotateRight 1, flags := fl }
        (s.hl + 1) := by
  obtain ⟨⟨⟩, _⟩ := s
  exact ⟨_, _, rfl, rfl⟩

theorem runs_begin (s : State View) : runs View.env (jump s (CI.addr 1)) (CI.piece 1 2) =
    State.setHl { s with pc := CI.addr 3, b := 0x20 } BUFCD := by
  obtain ⟨⟨⟩, _⟩ := s
  rfl

/-- Behind the reading of the rows, when no row is low. -/
structure AtLook (ws : List U16) (v : View) (i : Fin 6) (s : State View) : Prop where
  ready : v.Ready
  stands : Stands s ws (v.latch (column i) (v.mem (place i)))
  pc : s.pc = CI.addr 8
  b : s.b = column i
  hl : s.hl = place i
  a : s.a &&& 0x74 = 0x74

/-- The loop begins again. -/
theorem within_begin (hready : v.Ready) {x : U8} (hs : Stands s ws (v.latch x 0))
    (hpc : s.pc = CI.addr 1) : Within M (Hushed View.env Clean) 49 (AtRead ws v 5) s := by
  refine Within.le (t := 17 + 32) ?_ (by omega)
  refine piece_hushed CI 1 2 rfl rfl rfl hs.toRunning (clean_of_dark hs) hpc (runs_begin s) ?_
  exact AtHead.read ⟨hready, ⟨x, hs.of_same rfl rfl rfl⟩, rfl, rfl, word_hiByte_loByte _⟩

/-- **Without a key** the next digit comes. -/
theorem AtLook.next (h : AtLook ws v i s) :
    Within M (Hushed View.env Clean) 129 (AtRead ws v (i - 1)) s := by
  obtain ⟨hready, hs, hpc, hb, hhl, ha⟩ := h
  have hclean : Clean s.env := by
    obtain ⟨-, hppi, -⟩ := hs.rest
    refine .inr ⟨i, congrArg Ppi.outA hppi, ?_⟩
    rw [hppi]
    exact (hs.mem _ (not_private_of_shown (shown_place i))).symm
  obtain ⟨fl, hzero, hlook⟩ := runs_look s
  rw [ha] at hzero
  refine Within.le (t := 31 + (10 + (19 + 69))) ?_ (by omega)
  refine piece_hushed CI 8 4 rfl rfl rfl hs.toRunning hclean hpc hlook ?_
  have hs₁ : Stands { s with pc := CI.addr 12, a := 0, flags := fl, env := s.env.output 0xF9 0 } ws
      (v.latch (column i) 0) := by
    rw [← View.output_b hready _ (v.mem (place i))]
    exact hs.output 0xF9 0 rfl rfl rfl
  have hdark := clean_of_dark hs₁
  have hfall : Cond.nz.holds fl = false := by
    rw [Cond.holds, hzero]
    rfl
  refine within_fall CI 12 rfl hs₁.toRunning hdark rfl hfall ?_
  obtain ⟨a, fl, hcarry, hnext⟩ := runs_next
    { s with pc := CI.addr 13, a := 0, flags := fl, env := s.env.output 0xF9 0 }
  have hcarry : fl.carry = decide (i = 0) := by
    rw [← getLsbD_column i, ← hb]
    exact hcarry
  refine piece_hushed CI 13 4 rfl rfl rfl ⟨hs₁.loaded, hs₁.awake⟩ hdark rfl hnext ?_
  by_cases hi : i = 0
  · subst hi
    refine Within.le (t := 10 + (10 + 49)) ?_ (by omega)
    refine within_fall CI 17 rfl ⟨hs₁.loaded, hs₁.awake⟩ hdark rfl ?_ ?_
    · change (!fl.carry) = false
      rw [hcarry]
      rfl
    refine within_instr (i := .jmp 0x02CE) CI 18 rfl rfl (fun _ => Insn.noConfusion)
      ⟨hs₁.loaded, hs₁.awake⟩ hdark rfl ?_
    exact within_begin hready (hs₁.of_same rfl rfl rfl) rfl
  · refine Within.le (t := 10 + 32) ?_ (by omega)
    refine within_jump CI 17 rfl ⟨hs₁.loaded, hs₁.awake⟩ hdark rfl ?_ ?_
    · change (!fl.carry) = true
      rw [hcarry, decide_eq_false hi]
      rfl
    have hcolumn : s.b.rotateRight 1 = column (i - 1) := by
      rw [hb]
      exact column_rotateRight i hi
    have hplace : word (hiByte (s.hl + 1)) (loByte (s.hl + 1)) = place (i - 1) := by
      rw [word_hiByte_loByte, hhl]
      exact place_succ hi
    exact AtHead.read ⟨hready, ⟨_, hs₁.of_same rfl rfl rfl⟩, rfl, hcolumn, hplace⟩

/-- The rows are read. -/
theorem AtRead.rows (h : AtRead ws v i s) : M.step s =
    { s with pc := CI.addr 8, a := View.scan (column i) v.kbd } := by
  obtain ⟨-, hs, hpc, -⟩ := h
  have hinput : s.env.input 0xFA = View.scan (column i) v.kbd := hs.input 0xFA
  rw [(step_instr CI (k := 7) rfl rfl hs.toRunning hpc).1, ← hinput]
  rfl

/-- The machine comes to reading the rows, and until then no port is read. -/
def Waiting (ws : List U16) (v : View) (s : State View) : Prop :=
  Within M (Hushed View.env Clean) 129 (fun s => ∃ i, AtRead ws v i s) s

theorem AtRead.waiting (h : AtRead ws v i s) : Waiting ws v s := Within.of ⟨i, h⟩

/-- No row of a column is low. -/
theorem AtRead.next (h : AtRead ws v i s) (hscan : View.scan (column i) v.kbd = 0xFF) :
    Within M (Hushed View.env Clean) 129 (AtRead ws v (i - 1)) (M.step s) := by
  have hlook : AtLook ws v i (M.step s) := by
    rw [h.rows, hscan]
    have hmask : (0xFF : U8) &&& 0x74 = 0x74 := by decide
    exact ⟨h.ready, h.stands.of_same rfl rfl rfl, rfl, h.b, h.hl, hmask⟩
  exact hlook.next

theorem scan_idle : ∀ i : Fin 6, View.scan (column i) .idle = 0xFF := by decide

namespace Waiting

/-- **CI waits for ever** while no key is down. -/
theorem reaches {t : ℕ} {s' : State View} (hkbd : v.kbd = .idle) (h : Waiting ws v s)
    (hrun : Arrives M s t s') : Waiting ws v s' := by
  refine Within.reaches (fun s hs => ?_) h hrun
  obtain ⟨i, hread⟩ := hs
  have hscan : View.scan (column i) v.kbd = 0xFF := by
    rw [hkbd]
    exact scan_idle i
  obtain ⟨t, s', ht, hthrough, hnext⟩ := hread.next hscan
  exact hthrough.within ⟨_, hnext⟩ ht

/-- **No ghosts.** -/
theorem clean (h : Waiting ws v s) : Clean s.env := by
  obtain hhushed | ⟨i, hread⟩ := h.now
  · exact hhushed.2
  · obtain ⟨-, hppi, -⟩ := hread.stands.rest
    refine .inr ⟨i, congrArg Ppi.outA hppi, ?_⟩
    rw [hppi]
    exact (hread.stands.mem _ (not_private_of_shown (shown_place i))).symm

/-- **A key may go down or up at any moment.** -/
theorem keys (h : Waiting ws v s) (kbd : Keyboard) :
    Waiting ws (v.keys kbd) (s.change (View.keys kbd)) := by
  obtain ⟨t, s', ht, hthrough, i, hread⟩ := h
  have hmap := hthrough.map (f := State.change (View.keys kbd)) fun s hs => by
    obtain ⟨hquiet, hcost, hstep⟩ := (View.unseen_keys kbd).step s hs.1
    exact ⟨⟨hquiet, hs.2⟩, hcost, hstep⟩
  refine hmap.within ⟨i, ⟨hread.ready.a, hread.ready.b⟩, ?_, hread.pc, hread.b, hread.hl⟩ ht
  obtain ⟨hrun, hsp, hroom, hstack, hmem, hrev, hppi, -, hdbg⟩ := hread.stands
  exact ⟨⟨hrun.loaded, hrun.awake⟩, hsp, hroom, hstack, hmem, hrev, hppi, rfl, hdbg⟩

end Waiting

/-- **CI** begins to wait. -/
theorem Stands.ci (hs : Stands s (w :: ws) v) (hpc : s.pc = CI.entry) (hready : v.Ready)
    (hroom : ws.length + 1 < HEIGHT) :
    Leads M s 60 (Waiting (s.bc :: w :: ws) v) := by
  refine Leads.le (t := 11 + (17 + (15 + (17 + 0)))) ?_ (by omega)
  refine hs.save CI 0 rfl hpc hroom fun sp env hs => ?_
  refine piece CI 1 2 rfl rfl hs.toRunning rfl (runs_begin _) ?_
  refine piece CI 3 2 rfl rfl ⟨hs.loaded, hs.awake⟩ rfl (runs_select _) ?_
  have hs₁ : Stands (State.setHl { s with
      pc := CI.addr 5
      a := 0x20
      b := 0x20
      sp := sp
      env := env.output 0xF8 0x20 } BUFCD) (s.bc :: w :: ws) (v.latch (column 5) v.ppi.outB) :=
    View.output_a hready v.ppi.outA v.ppi.outB (column 5) ▸ hs.output 0xF8 0x20 rfl rfl rfl
  refine piece CI 5 2 rfl rfl hs₁.toRunning rfl (runs_show _) ?_
  have hhl : word (hiByte BUFCD) (loByte BUFCD) = place 5 := word_hiByte_loByte _
  have hmem : (env.output 0xF8 0x20).mem (place 5) = v.mem (place 5) :=
    hs₁.mem _ (not_private_of_shown (shown_place 5))
  refine Leads.of (AtRead.waiting ⟨hready, ?_, rfl, rfl, hhl⟩)
  rw [← hmem, ← View.output_b hready _ v.ppi.outB, ← hhl]
  exact hs₁.output 0xF9 _ rfl rfl rfl

end Monitor

end Umk80
