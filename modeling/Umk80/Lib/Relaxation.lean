import Mathlib.Data.List.Nodup
import Mathlib.Data.Nat.Notation
import Mathlib.Logic.Function.Iterate
import Mathlib.Logic.Relation
import Mathlib.Tactic.Common

/-!
# Definitions evaluated pass after pass

A list of definitions, each of which reads a table and gives one name a value, is evaluated in
order, again and again, until a pass changes nothing. A definition finds the values of the present
pass for the names before it in the list, and those of the last pass for the names behind it, so
what delays it is the number of uses of later names on the way to the values it needs. A definition
that needs a value that is not there yet is skipped.

Nothing is assumed about the values: a value may oscillate as long as what it depends on is not
settled. What is needed is that a definition that can be evaluated can still be evaluated when there
are more values.

## Main definitions

* `Definition`, `pass` — a definition, and a pass over a list of them
* `Path` — a chain of uses, with the number of uses of later names
* `Solves` — a table in which every name has the value of its definition

## Main results

* `pass_iterate_succ` — after `f + 1` passes nothing changes, if no path has more than `f` uses of
  later names
* `solves_of_fixed` — what does not change is a solution
* `Solves.unique` — there is only one
-/

namespace Relaxation

variable {K V : Type}

/-! ## Definitions -/

/-- Which values there are so far. -/
abbrev Table (K V : Type) := K → Option V

/-- The definition of a name. It reads the names in `deps` only, and more values do not spoil
it. -/
structure Definition (K V : Type) where
  name : K
  deps : List K
  eval : Table K V → Option V
  congr : ∀ {t t' : Table K V}, (∀ k ∈ deps, t k = t' k) → eval t = eval t'
  mono : ∀ {t t' : Table K V}, (∀ k ∈ deps, (t k).isSome → (t' k).isSome) → (eval t).isSome →
    (eval t').isSome

/-- The names that are defined. -/
def names (ds : List (Definition K V)) : List K := ds.map Definition.name

variable {ds pre post : List (Definition K V)} {d : Definition K V} {t t' : Table K V} {k : K}

/-! ## Paths -/

/-- A chain of uses, with the number of uses of a name that comes later. -/
inductive Path (uses later : K → K → Prop) : K → K → ℕ → Prop
  | refl (x : K) : Path uses later x x 0
  | step {x y z : K} {n : ℕ} (huse : uses x y) (hnot : ¬ later x y) (h : Path uses later y z n) :
    Path uses later x z n
  | forward {x y z : K} {n : ℕ} (huse : uses x y) (hlater : later x y)
    (h : Path uses later y z n) : Path uses later x z (n + 1)

/-- `x` comes before `y`. -/
def Before (xs : List K) (x y : K) : Prop := [x, y].Sublist xs

/-- No path from `x` has more than `k` uses of later names. -/
def Within (uses later : K → K → Prop) (k : ℕ) (x : K) : Prop :=
  ∀ y n, Path uses later x y n → n ≤ k

variable {uses later : K → K → Prop}

theorem Within.of_uses {k : ℕ} {x y : K} (h : Within uses later k x) (huse : uses x y) :
    Within uses later k y := by
  intro z n hpath
  by_cases hlater : later x y
  · exact Nat.le_of_succ_le (h z _ (.forward huse hlater hpath))
  · exact h z n (.step huse hlater hpath)

theorem Within.of_later {k : ℕ} {x y : K} (h : Within uses later k x) (huse : uses x y)
    (hlater : later x y) : ∃ j, k = j + 1 ∧ Within uses later j y := by
  obtain ⟨j, rfl⟩ := Nat.exists_eq_succ_of_ne_zero
    (Nat.one_le_iff_ne_zero.mp (h y 1 (.forward huse hlater (.refl y))))
  exact ⟨j, rfl, fun z n hpath => Nat.succ_le_succ_iff.mp (h z _ (.forward huse hlater hpath))⟩

/-- A number for each name that shrinks with every use. -/
theorem acyclic_of_rank {rank : K → ℕ} (hrank : ∀ x y, uses x y → rank y < rank x) (x : K) :
    ¬ Relation.TransGen uses x x := by
  have hlt : ∀ y, Relation.TransGen uses x y → rank y < rank x := by
    intro y h
    induction h with
    | single huse => exact hrank _ _ huse
    | tail _ huse ih => exact Nat.lt_trans (hrank _ _ huse) ih
  exact fun h => Nat.lt_irrefl _ (hlt x h)

/-- Such a number bounds the uses of later names. -/
theorem Path.le_rank {rank : K → ℕ} (hrank : ∀ x y, uses x y → rank y < rank x) {x y : K} {n : ℕ}
    (h : Path uses later x y n) : n ≤ rank x := by
  induction h with
  | refl x => exact Nat.zero_le _
  | step huse _ _ ih => exact Nat.le_trans ih (Nat.le_of_lt (hrank _ _ huse))
  | forward huse _ _ ih => exact Nat.succ_le_of_lt (Nat.lt_of_le_of_lt ih (hrank _ _ huse))

/-- **Induction along paths**: a property of a name and a bound may be assumed of the names before
it with the same bound, and of those behind it with a smaller one. -/
theorem within_induction {P : ℕ → K → Prop} (huses : ∀ d ∈ ds, ∀ y ∈ d.deps, uses d.name y)
    (hstep : ∀ k pre d post, ds = pre ++ d :: post →
      (∀ y ∈ d.deps, y ∈ names pre → P k y) →
      (∀ y ∈ d.deps, y ∈ names post → ∃ j, k = j + 1 ∧ P j y) → P k d.name)
    (k : ℕ) (hd : d ∈ ds) (hwithin : Within uses (Before (names ds)) k d.name) : P k d.name := by
  have hsplit : ∀ k m pre d post, pre.length = m → ds = pre ++ d :: post →
      Within uses (Before (names ds)) k d.name → P k d.name := by
    intro k
    induction k using Nat.strongRecOn with
    | ind k ihk =>
    intro m
    induction m using Nat.strongRecOn with
    | ind m ihm =>
    intro pre d post hlen hds hwithin
    have hdmem : d ∈ ds := hds ▸ List.mem_append_right _ List.mem_cons_self
    refine hstep k pre d post hds ?_ ?_
    · intro y hy hmem
      obtain ⟨e, he, rfl⟩ := List.mem_map.mp hmem
      obtain ⟨pre', post', rfl⟩ := List.append_of_mem he
      refine ihm pre'.length ?_ pre' e (post' ++ d :: post) rfl ?_
        (hwithin.of_uses (huses d hdmem _ hy))
      · rw [← hlen, List.length_append, List.length_cons]
        omega
      · rw [hds, List.append_assoc, List.cons_append]
    · intro y hy hmem
      have hbefore : Before (names ds) d.name y := by
        rw [Before, hds, names, List.map_append, List.map_cons]
        exact ((List.singleton_sublist.mpr hmem).cons_cons _).trans (List.sublist_append_right _ _)
      obtain ⟨j, rfl, hj⟩ := hwithin.of_later (huses d hdmem _ hy) hbefore
      obtain ⟨e, he, rfl⟩ := List.mem_map.mp hmem
      obtain ⟨mid, post', rfl⟩ := List.append_of_mem he
      refine ⟨j, rfl, ihk j (Nat.lt_succ_self j) _ (pre ++ d :: mid) e post' rfl ?_ hj⟩
      rw [hds, List.append_assoc, List.cons_append]
  obtain ⟨pre, post, hds⟩ := List.append_of_mem hd
  exact hsplit k _ pre d post rfl hds hwithin

/-- Induction along the dependencies, which are followed for a bounded number of times only. -/
theorem deps_induction {P : K → Prop} (hirrefl : ∀ x, ¬ uses x x)
    (huses : ∀ d ∈ ds, ∀ y ∈ d.deps, uses d.name y) {f : ℕ}
    (hwithin : ∀ d ∈ ds, Within uses (Before (names ds)) f d.name)
    (hstep : ∀ d ∈ ds, (∀ y ∈ d.deps, y ∈ names ds → P y) → P d.name) (hk : k ∈ names ds) :
    P k := by
  obtain ⟨d, hd, rfl⟩ := List.mem_map.mp hk
  refine within_induction (P := fun _ x => P x) huses ?_ f hd (hwithin d hd)
  intro k pre d post hds hpre hpost
  have hdmem : d ∈ ds := hds ▸ List.mem_append_right _ List.mem_cons_self
  refine hstep d hdmem fun y hy hy' => ?_
  simp only [hds, names, List.map_append, List.map_cons, List.mem_append, List.mem_cons] at hy'
  rcases hy' with hypre | rfl | hypost
  · exact hpre y hy hypre
  · exact absurd (huses d hdmem _ hy) (hirrefl _)
  · obtain ⟨-, -, hy⟩ := hpost y hy hypost
    exact hy

/-! ## Solutions -/

/-- Every name has the value of its definition, and no other name has a value. -/
structure Solves (ds : List (Definition K V)) (t : Table K V) : Prop where
  value : ∀ d ∈ ds, t d.name = d.eval t
  only : ∀ k, k ∉ names ds → t k = none

/-- **There is one solution.** -/
theorem Solves.unique (hirrefl : ∀ x, ¬ uses x x)
    (huses : ∀ d ∈ ds, ∀ y ∈ d.deps, uses d.name y) {f : ℕ}
    (hwithin : ∀ d ∈ ds, Within uses (Before (names ds)) f d.name) (h : Solves ds t)
    (h' : Solves ds t') : t = t' := by
  funext k
  by_cases hk : k ∈ names ds
  · refine deps_induction (P := fun x => t x = t' x) hirrefl huses hwithin (fun d hd hdeps => ?_) hk
    rw [h.value d hd, h'.value d hd]
    refine d.congr fun y hy => ?_
    by_cases hy' : y ∈ names ds
    · exact hdeps y hy hy'
    · rw [h.only y hy', h'.only y hy']
  · rw [h.only k hk, h'.only k hk]

/-- Every name has a value, if what is used is defined and every definition can be evaluated. -/
theorem Solves.isSome (hirrefl : ∀ x, ¬ uses x x)
    (huses : ∀ d ∈ ds, ∀ y ∈ d.deps, uses d.name y) {f : ℕ}
    (hwithin : ∀ d ∈ ds, Within uses (Before (names ds)) f d.name) (h : Solves ds t)
    (hdefined : ∀ d ∈ ds, ∀ y ∈ d.deps, y ∈ names ds)
    (heval : ∀ d ∈ ds, ∃ t', (d.eval t').isSome) (hk : k ∈ names ds) : (t k).isSome := by
  refine deps_induction (P := fun x => (t x).isSome) hirrefl huses hwithin (fun d hd hdeps => ?_) hk
  obtain ⟨t', ht'⟩ := heval d hd
  rw [h.value d hd]
  exact d.mono (fun y hy _ => hdeps y hy (hdefined d hd y hy)) ht'

/-! ## Passes -/

variable [DecidableEq K]

/-- Give a name its value, if its definition has one. -/
def assign (t : Table K V) (d : Definition K V) : Table K V :=
  match d.eval t with
  | none => t
  | some v => Function.update t d.name (some v)

/-- One definition after the other. -/
def pass (ds : List (Definition K V)) (t : Table K V) : Table K V := ds.foldl assign t

theorem pass_append (pre post : List (Definition K V)) (t : Table K V) :
    pass (pre ++ post) t = pass post (pass pre t) := List.foldl_append

theorem assign_self (t : Table K V) (d : Definition K V) :
    assign t d d.name = (d.eval t).or (t d.name) := by
  cases h : d.eval t with
  | none => simp only [assign, h, Option.none_or]
  | some v => simp only [assign, h, Option.some_or, Function.update_self]

theorem assign_of_ne (h : k ≠ d.name) : assign t d k = t k := by
  cases hv : d.eval t with
  | none => simp only [assign, hv]
  | some v => simp only [assign, hv, Function.update_of_ne h]

/-- A pass does not touch the other names. -/
theorem pass_of_notMem (h : k ∉ names ds) : pass ds t k = t k := by
  induction ds generalizing t with
  | nil => rfl
  | cons d ds ih =>
    obtain ⟨hne, hrest⟩ := List.ne_and_not_mem_of_not_mem_cons h
    calc pass ds (assign t d) k = assign t d k := ih hrest
      _ = t k := assign_of_ne hne

/-- **The value of a name after a pass** is that of its definition under the table that the
definitions before it have left. -/
theorem pass_split (hnodup : (names (pre ++ d :: post)).Nodup) :
    pass (pre ++ d :: post) t d.name = (d.eval (pass pre t)).or (t d.name) := by
  rw [names, List.map_append, List.map_cons] at hnodup
  have hpre : d.name ∉ names pre := fun hmem =>
    (List.nodup_append.mp hnodup).2.2 _ hmem _ List.mem_cons_self rfl
  have hpost : d.name ∉ names post :=
    (List.nodup_cons.mp (List.nodup_append.mp hnodup).2.1).1
  rw [pass_append, pass, List.foldl_cons, ← pass, pass_of_notMem hpost, assign_self,
    pass_of_notMem hpre]

/-- The names before a definition have their values of this pass. -/
theorem pass_left (hnodup : (names (pre ++ post)).Nodup) (hk : k ∈ names pre) :
    pass pre t k = pass (pre ++ post) t k := by
  rw [names, List.map_append] at hnodup
  have hpost : k ∉ names post := fun hmem => (List.nodup_append.mp hnodup).2.2 _ hk _ hmem rfl
  rw [pass_append, pass_of_notMem hpost]

/-! ## Settling -/

/-- What a later pass changes, the earlier one has left unsettled: with at most `k` uses of later
names on the way, the value of a name is the same after pass `n + 1` and after pass `n + 2`. -/
theorem settled (hnodup : (names ds).Nodup) (hirrefl : ∀ x, ¬ uses x x)
    (huses : ∀ d ∈ ds, ∀ y ∈ d.deps, uses d.name y) {k n : ℕ} (hkn : k ≤ n) (hd : d ∈ ds)
    (hwithin : Within uses (Before (names ds)) k d.name) :
    (pass ds)^[n + 2] t d.name = (pass ds)^[n + 1] t d.name := by
  refine within_induction (P := fun k x => ∀ n ≥ k, (pass ds)^[n + 2] t x = (pass ds)^[n + 1] t x)
    huses ?_ k hd hwithin n hkn
  intro k pre d post hds hpre hpost n hkn
  have hnodup' := hds ▸ hnodup
  have hsplit (j : ℕ) : (pass ds)^[j + 1] t d.name =
      (d.eval (pass pre ((pass ds)^[j] t))).or ((pass ds)^[j] t d.name) := by
    rw [Function.iterate_succ_apply']
    conv_lhs => rw [hds]
    rw [pass_split hnodup', ← hds]
  -- the definition is evaluated under tables that agree on what it reads
  have hsame : d.eval (pass pre ((pass ds)^[n + 1] t)) = d.eval (pass pre ((pass ds)^[n] t)) := by
    refine d.congr fun y hy => ?_
    by_cases hypre : y ∈ names pre
    · have hleft (j : ℕ) : pass pre ((pass ds)^[j] t) y = (pass ds)^[j + 1] t y := by
        rw [Function.iterate_succ_apply', pass_left hnodup' hypre, ← hds]
      rw [hleft, hleft]
      exact hpre y hy hypre n hkn
    · rw [pass_of_notMem hypre, pass_of_notMem hypre]
      by_cases hypost : y ∈ names post
      · obtain ⟨j, rfl, hj⟩ := hpost y hy hypost
        obtain ⟨n, rfl⟩ := Nat.exists_eq_succ_of_ne_zero (show n ≠ 0 by omega)
        exact hj n (by omega)
      · have hne : y ≠ d.name := by
          rintro rfl
          exact hirrefl _ (huses d (hds ▸ List.mem_append_right _ List.mem_cons_self) _ hy)
        have hy' : y ∉ names ds := by
          simp only [hds, names, List.map_append, List.map_cons, List.mem_append, List.mem_cons,
            not_or]
          exact ⟨hypre, hne, hypost⟩
        rw [Function.iterate_succ_apply', pass_of_notMem hy']
  rw [hsplit (n + 1), hsame, hsplit n]
  cases d.eval (pass pre ((pass ds)^[n] t)) with
  | none => rw [Option.none_or, Option.none_or]
  | some v => rw [Option.some_or, Option.some_or]

/-- **After `f + 1` passes nothing changes.** -/
theorem pass_iterate_succ (hnodup : (names ds).Nodup) (hirrefl : ∀ x, ¬ uses x x)
    (huses : ∀ d ∈ ds, ∀ y ∈ d.deps, uses d.name y) {f n : ℕ} (hfn : f < n)
    (hwithin : ∀ d ∈ ds, Within uses (Before (names ds)) f d.name) (t : Table K V) :
    pass ds ((pass ds)^[n] t) = (pass ds)^[n] t := by
  obtain ⟨n, rfl⟩ := Nat.exists_eq_succ_of_ne_zero (Nat.ne_zero_of_lt hfn)
  funext k
  by_cases hk : k ∈ names ds
  · obtain ⟨d, hd, rfl⟩ := List.mem_map.mp hk
    have hsettled := settled (t := t) hnodup hirrefl huses (Nat.le_of_lt_succ hfn) hd (hwithin d hd)
    rwa [Function.iterate_succ_apply'] at hsettled
  · exact pass_of_notMem hk

/-- In a pass that changes nothing, every definition is evaluated under the table itself. -/
theorem pass_prefix_of_fixed (hnodup : (names (pre ++ post)).Nodup)
    (hfixed : pass (pre ++ post) t = t) : pass pre t = t := by
  funext k
  by_cases hk : k ∈ names pre
  · rw [pass_left hnodup hk, hfixed]
  · exact pass_of_notMem hk

theorem get_of_fixed (hnodup : (names ds).Nodup) (hfixed : pass ds t = t) (hd : d ∈ ds) {v : V}
    (hv : d.eval t = some v) : t d.name = some v := by
  obtain ⟨pre, post, rfl⟩ := List.append_of_mem hd
  have hvalue := pass_split (t := t) hnodup
  rwa [hfixed, pass_prefix_of_fixed hnodup hfixed, hv, Option.some_or] at hvalue

/-! ## What does not change -/

/-- A name has a value only if its definition has one. -/
def Supported (ds : List (Definition K V)) (t : Table K V) : Prop :=
  ∀ d ∈ ds, (t d.name).isSome → (d.eval t).isSome

theorem isSome_assign (h : (t k).isSome) (d : Definition K V) : (assign t d k).isSome := by
  by_cases hk : k = d.name
  · rw [hk, assign_self, Option.isSome_or, ← hk, h, Bool.or_true]
  · rwa [assign_of_ne hk]

theorem Supported.assign (hnodup : (names ds).Nodup) (h : Supported ds t) (hd : d ∈ ds) :
    Supported ds (assign t d) := by
  intro e he hsome
  refine e.mono (fun k _ hk => isSome_assign hk d) ?_
  by_cases hname : e.name = d.name
  · obtain rfl := List.inj_on_of_nodup_map hnodup he hd hname
    rw [assign_self, Option.isSome_or, Bool.or_eq_true] at hsome
    exact hsome.elim id (h e he)
  · rw [assign_of_ne hname] at hsome
    exact h e he hsome

theorem Supported.pass (hnodup : (names ds).Nodup) (h : Supported ds t) :
    Supported ds (pass ds t) := by
  have hpart : ∀ es : List (Definition K V), (∀ d ∈ es, d ∈ ds) → ∀ t, Supported ds t →
      Supported ds (Relaxation.pass es t) := by
    intro es
    induction es with
    | nil => exact fun _ t ht => ht
    | cons e es ih =>
      intro hes t ht
      exact ih (fun d hd => hes d (List.mem_cons_of_mem _ hd)) _
        (ht.assign hnodup (hes e List.mem_cons_self))
  exact hpart ds (fun d hd => hd) t h

/-- Starting with no values at all, names get values from their definitions only. -/
theorem supported_iterate (hnodup : (names ds).Nodup) (n : ℕ) :
    Supported ds ((pass ds)^[n] fun _ => none) ∧
      ∀ k, k ∉ names ds → (pass ds)^[n] (fun _ => none) k = none := by
  induction n with
  | zero => exact ⟨fun d _ h => absurd h Bool.false_ne_true, fun _ _ => rfl⟩
  | succ n ih =>
    rw [Function.iterate_succ_apply']
    exact ⟨ih.1.pass hnodup, fun k hk => by rw [pass_of_notMem hk, ih.2 k hk]⟩

/-- **What a pass does not change is a solution.** -/
theorem solves_of_fixed (hnodup : (names ds).Nodup) {n : ℕ}
    (hfixed : pass ds ((pass ds)^[n] fun _ => none) = (pass ds)^[n] fun _ => none) :
    Solves ds ((pass ds)^[n] fun _ => none) := by
  obtain ⟨hsupported, honly⟩ := supported_iterate hnodup n
  refine ⟨fun d hd => ?_, honly⟩
  cases hv : d.eval ((pass ds)^[n] fun _ => none) with
  | some v => exact get_of_fixed hnodup hfixed hd hv
  | none =>
    rw [← Option.not_isSome_iff_eq_none]
    intro hsome
    have heval := hsupported d hd hsome
    rw [hv] at heval
    exact Bool.false_ne_true heval

end Relaxation
