import Umk80.MemoryLaw

/-!
# What the ROM socket holds

A ROM image is loaded in pieces, which may overlap, leave gaps, or not fit. Each piece that fits is
an overlay, so a loaded address holds the byte of the last piece that covers it. The addresses that
no piece covers should read FFh, like a blank EPROM and like the half of the socket that
`UNKNOWNS.md` calls optional. They read 00h: `umk_init` zeroes the whole machine, and nothing fills
the ROM afterwards.

## Main definitions

* `Machine.loadRoms` — a sequence of loads
* `loadedByte`, `lastLoaded` — what a load, and a sequence of loads, put at an address
* `Machine.RomLaw` — the content law with blank addresses at FFh

## Main results

* `Machine.peek_loadRoms` — what the ROM holds after any loads
* `Machine.romLaw_iff` — the law holds exactly when no address is left blank
-/

namespace Umk80

open Overlay

/-- The image fits into the ROM. -/
def Fits (load : U16 × List U8) : Prop := load.1.toNat + load.2.length ≤ 2048

instance (load : U16 × List U8) : Decidable (Fits load) := by
  unfold Fits
  infer_instance

/-- The byte that a load puts at an address, if it fits and covers it. -/
def loadedByte (load : U16 × List U8) (a : U16) : Option U8 :=
  if Fits load ∧ load.1 ≤ a then load.2[a.toNat - load.1.toNat]? else none

/-- The byte of the last successful load that covers an address. -/
def lastLoaded (loads : List (U16 × List U8)) (a : U16) : Option U8 :=
  (loads.filterMap (loadedByte · a)).getLast?

namespace Machine

/-- A sequence of `umk_load_rom` calls. -/
def loadRoms (m : Machine) (loads : List (U16 × List U8)) : Machine :=
  loads.foldl (fun m load => (m.loadRom load.1 load.2).2) m

/-- What the ROM should hold after `umk_init` and some loads: the last load that covers an address
wins, an address that no load covers is blank, and a load that does not fit is refused. -/
structure RomLaw (rev : Rev) (loads : List (U16 × List U8)) : Prop where
  content : ∀ a < RAM_BASE, ((init rev).loadRoms loads).peek a = (lastLoaded loads a).getD 0xFF
  refused : ∀ pre load post, loads = pre ++ load :: post → ¬ Fits load →
    ((init rev).loadRoms pre).loadRom load.1 load.2 = (false, (init rev).loadRoms pre)

variable {m : Machine}

theorem loadRom_of_not_fits (hsize : m.romSize = ROM_MAX) {load : U16 × List U8}
    (h : ¬ Fits load) : m.loadRom load.1 load.2 = (false, m) := by
  have hlt : m.romSize.toNat < load.1.toNat + load.2.length := by
    rw [hsize]
    exact Nat.lt_of_not_le h
  rw [loadRom, if_pos hlt]

/-- A load leaves the size of the ROM alone. -/
theorem romSize_loadRom (m : Machine) (offset : U16) (data : List U8) :
    (m.loadRom offset data).2.romSize = m.romSize := by
  unfold loadRom
  split
  · rfl
  · rfl

theorem romSize_loadRoms (loads : List (U16 × List U8)) :
    (m.loadRoms loads).romSize = m.romSize := by
  induction loads generalizing m with
  | nil => rfl
  | cons load loads ih =>
    rw [← m.romSize_loadRom load.1 load.2]
    exact ih

/-- A ROM address is its own index. -/
theorem peek_rom (hsize : m.romSize = ROM_MAX) {a : U16} (h : a < RAM_BASE) :
    ∃ hlt, m.peek a = m.rom ⟨a.toNat, hlt⟩ := by
  have hlow : ¬ RAM_BASE + RAM_MAX ≤ a := by
    have hnat : a.toNat < 0x800 := h
    exact fun hle => absurd (show 0x1000 ≤ a.toNat from hle) (by omega)
  have hmask : (a &&& (m.romSize - 1)).toNat = a.toNat := by
    rw [hsize, BitVec.toNat_and]
    calc a.toNat &&& (2 ^ 11 - 1) = a.toNat % 2 ^ 11 := Nat.and_two_pow_sub_one_eq_mod _ 11
      _ = a.toNat := Nat.mod_eq_of_lt h
  refine ⟨h, ?_⟩
  rw [Memory.peek, Memory.decode, dif_neg hlow, dif_pos h]
  exact congrArg m.rom (Fin.ext hmask)

/-- **A load is an overlay** of the ROM addresses. -/
theorem peek_loadRom (hsize : m.romSize = ROM_MAX) (load : U16 × List U8) {a : U16}
    (h : a < RAM_BASE) :
    (m.loadRom load.1 load.2).2.peek a = (loadedByte load a).getD (m.peek a) := by
  by_cases hfits : Fits load
  · obtain ⟨hlt, hpeek⟩ := peek_rom hsize h
    obtain ⟨hlt', hpeek'⟩ :=
      peek_rom (by rw [m.romSize_loadRom load.1 load.2, hsize]) h
    have hno : ¬ m.romSize.toNat < load.1.toNat + load.2.length := by
      rw [hsize]
      exact Nat.not_lt_of_le hfits
    rw [hpeek, hpeek', loadRom, if_neg hno, loadedByte]
    by_cases hle : load.1 ≤ a
    · rw [if_pos ⟨hfits, hle⟩, ← List.getD_eq_getElem?_getD]
      exact if_pos hle
    · rw [if_neg fun hc => hle hc.2]
      exact if_neg hle
  · rw [loadRom_of_not_fits hsize hfits, loadedByte, if_neg fun hc => hfits hc.1]
    rfl

/-- **What the ROM holds** after any loads: the last one that covers the address, or else what was
there before. -/
theorem peek_loadRoms (hsize : m.romSize = ROM_MAX) (loads : List (U16 × List U8)) {a : U16}
    (h : a < RAM_BASE) : (m.loadRoms loads).peek a = (lastLoaded loads a).getD (m.peek a) := by
  have hlast (loads : List (U16 × List U8)) :
      lastLoaded loads a = lastOver (loads.map loadedByte) a := by
    rw [lastLoaded, lastOver, List.filterMap_map]
    rfl
  induction loads generalizing m with
  | nil => rfl
  | cons load loads ih =>
    have hrest := ih (m := (m.loadRom load.1 load.2).2)
      (by rw [m.romSize_loadRom load.1 load.2, hsize])
    rw [hlast] at hrest ⊢
    rw [List.map_cons, lastOver_cons]
    rw [peek_loadRom hsize load h] at hrest
    change ((m.loadRom load.1 load.2).2.loadRoms loads).peek a = _
    rw [hrest]
    cases lastOver (loads.map loadedByte) a
    all_goals rfl

/-- **The law holds exactly when no address is left blank**: `umk_init` fills the ROM with 00h. -/
theorem romLaw_iff (rev : Rev) (loads : List (U16 × List U8)) : RomLaw rev loads ↔
    ∀ a < RAM_BASE, ∃ load ∈ loads, (loadedByte load a).isSome := by
  have hinit : ∀ a < RAM_BASE, (init rev).peek a = 0x00 := by
    intro a h
    obtain ⟨hlt, hpeek⟩ := peek_rom (m := init rev) rfl h
    exact hpeek
  have hcovered (a : U16) : (lastLoaded loads a).isSome ↔
      ∃ load ∈ loads, (loadedByte load a).isSome := by
    have hiff : (lastOver (loads.map loadedByte) a).isSome ↔ _ := lastOver_isSome_iff
    rw [lastOver, List.filterMap_map] at hiff
    refine hiff.trans ?_
    simp only [List.mem_map, exists_exists_and_eq_and]
  constructor
  · intro hlaw a h
    refine (hcovered a).mp ?_
    by_contra hnone
    have hblank := hlaw.content a h
    rw [peek_loadRoms rfl loads h, hinit a h,
      Option.not_isSome_iff_eq_none.mp hnone] at hblank
    exact absurd hblank (by decide)
  · intro hall
    refine ⟨fun a h => ?_, fun pre load post _ hno => ?_⟩
    · obtain ⟨v, hv⟩ := Option.isSome_iff_exists.mp ((hcovered a).mpr (hall a h))
      rw [peek_loadRoms rfl loads h, hv]
      rfl
    · exact loadRom_of_not_fits (romSize_loadRoms pre) hno

/-- Without any load, the first ROM address reads 00h. -/
theorem not_romLaw_unloaded : ¬ RomLaw .rev2 [] := by
  intro h
  exact absurd (h.content 0 (by decide)) (by decide)

end Machine

end Umk80
