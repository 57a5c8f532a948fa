import Umk80.Lib.CString

/-!
# Expressions of the assembler

The expression evaluator of `tools/umkasm.c`, with the grammar

    expr := term { ('+' | '-') term }
    term := ['NOT' | '-' | '+'] factor
    factor := number | character | symbol | '$' | '(' expr ')'

It walks a pointer along the operand. A `long` has 64 bits: `strtol` stops at `LONG_MAX`, and the
operators wrap, which is what the machine does where C leaves an overflow open. The symbols that an
expression refers to are collected along the way; the source has no such list.

## Main definitions

* `Symbols` — the symbol table
* `evalExpr`, `evalTerm`, `evalFactor` — the recursive descent, with fuel
* `evaluate` — an operand

## Main results

* `eval_isSome` — the fuel that `evaluate` gives is enough
* `Moves.eval` — what every move of the pointer respects, the evaluator respects
* `refs_evaluate` — the symbols an expression refers to do not depend on their values
* `evaluate_congr` — its value depends on theirs, and on nothing else of the table
-/

namespace Umk80

open CString

/-! ## The symbol table -/

abbrev Name := List Char

/-- An entry of `syms`. -/
structure Symbol where
  name : Name
  value : ℤ
deriving DecidableEq

abbrev Symbols := List Symbol

namespace Symbols

/-- The value of the entry that `sym_find` finds. -/
def find (syms : Symbols) (name : Name) : Option ℤ :=
  (syms.find? (·.name == name)).map Symbol.value

/-- Overwrite the entry that `sym_find` finds. -/
def replace (name : Name) (value : ℤ) : Symbols → Symbols
  | [] => []
  | s :: syms =>
    if s.name = name then { s with value := value } :: syms else s :: replace name value syms

end Symbols

/-! ## The evaluator -/

/-- What an expression is evaluated under. -/
structure Env where
  syms : Symbols
  stmtPc : ℤ

/-- The state of the evaluator: `ep`, `eval_ok`, and the symbols referred to so far. -/
structure Scan where
  ep : Ptr
  ok : Bool
  refs : List Name

namespace Scan

def peek (s : Scan) : Char := deref s.ep

def drop (k : ℕ) (s : Scan) : Scan := { s with ep := s.ep.drop k }

/-- `eskip`. -/
def skip (s : Scan) : Scan := { s with ep := s.ep.dropWhile isBlank }

def bad (s : Scan) : Scan := { s with ok := false }

def refer (name : Name) (s : Scan) : Scan := { s with refs := s.refs ++ [name] }

end Scan

/-- A constant, from the characters of its token that the buffer keeps. -/
def number (buf : List Char) : ℤ :=
  let last := buf.getLastD NUL
  let body := buf.dropLast
  if 1 < buf.length ∧ (last = 'H' ∨ last = 'h') then strtol 16 body
  else if 1 < buf.length ∧ (last = 'B' ∨ last = 'b') ∧ body.all (fun c => c == '0' || c == '1') then
    strtol 2 body
  else if 1 < buf.length ∧ (last = 'D' ∨ last = 'd') then strtol 10 body
  else strtol 10 buf

def isNameChar (c : Char) : Bool := c.isAlphanum || c == '_' || c == '?'

def isNameStart (c : Char) : Bool := c.isAlpha || c == '_' || c == '?'

/-- A symbol at `ep`. -/
def evalSymbol (env : Env) (s : Scan) : ℤ × Scan :=
  let token := s.ep.takeWhile isNameChar
  let name := (token.take 31).map Char.toUpper
  let s := (s.drop token.length).refer name
  match env.syms.find name with
  | none => (0, s.bad)
  | some v => (v, s)

mutual

/-- `eval_factor`. -/
def evalFactor (env : Env) : ℕ → Scan → Option (ℤ × Scan)
  | 0, _ => none
  | n + 1, s =>
    let s := s.skip
    if s.peek = '$' then some (env.stmtPc, s.drop 1)
    else if s.peek = '(' then
      (evalExpr env n (s.drop 1)).map fun r =>
        let s := r.2.skip
        (r.1, if s.peek = ')' then s.drop 1 else s)
    else if s.peek = QUOTE then
      let s := s.drop 1
      let v : ℤ := s.peek.toNat
      let s := s.drop 1
      some (v, if s.peek = QUOTE then s.drop 1 else s)
    else if s.peek.isDigit then
      let token := s.ep.takeWhile Char.isAlphanum
      some (number (token.take 63), s.drop token.length)
    else if isNameStart s.peek then some (evalSymbol env s)
    else some (0, s.bad)

/-- `eval_term`. -/
def evalTerm (env : Env) : ℕ → Scan → Option (ℤ × Scan)
  | 0, _ => none
  | n + 1, s =>
    let s := s.skip
    if startsWith s.ep "NOT" && !(deref (s.ep.drop 3)).isAlphanum then
      (evalTerm env n (s.drop 3)).map fun r => (toLong (-r.1 - 1), r.2)
    else if s.peek = '-' then (evalTerm env n (s.drop 1)).map fun r => (toLong (-r.1), r.2)
    else if s.peek = '+' then evalTerm env n (s.drop 1)
    else evalFactor env n s

/-- The loop of `eval_expr`, with the value so far. -/
def evalMore (env : Env) : ℕ → ℤ → Scan → Option (ℤ × Scan)
  | 0, _, _ => none
  | n + 1, v, s =>
    let s := s.skip
    if s.peek = '+' then
      (evalTerm env n (s.drop 1)).bind fun r => evalMore env n (toLong (v + r.1)) r.2
    else if s.peek = '-' then
      (evalTerm env n (s.drop 1)).bind fun r => evalMore env n (toLong (v - r.1)) r.2
    else some (v, s)

/-- `eval_expr`. -/
def evalExpr (env : Env) : ℕ → Scan → Option (ℤ × Scan)
  | 0, _ => none
  | n + 1, s => (evalTerm env n s).bind fun r => evalMore env n r.1 r.2

end

/-! ## Invariants of the evaluator -/

/-- A relation between an earlier and a later state that every move of the evaluator respects. -/
structure Moves (env : Env) (R : Scan → Scan → Prop) : Prop where
  refl : ∀ s, R s s
  trans : ∀ {s t u}, R s t → R t u → R s u
  drop : ∀ k s, R s (s.drop k)
  skip : ∀ s, R s s.skip
  bad : ∀ s, R s s.bad
  symbol : ∀ s, R s (evalSymbol env s).2

theorem Moves.dropIf {env : Env} {R : Scan → Scan → Prop} (h : Moves env R) (c : Prop)
    [Decidable c] (s : Scan) : R s (if c then s.drop 1 else s) := by
  split
  · exact h.drop 1 s
  · exact h.refl s

/-- **What every move respects, the evaluator respects.** -/
theorem Moves.eval {env : Env} {R : Scan → Scan → Prop} (h : Moves env R) (n : ℕ) :
    (∀ s r, evalFactor env n s = some r → R s r.2) ∧
    (∀ s r, evalTerm env n s = some r → R s r.2) ∧
    (∀ v s r, evalMore env n v s = some r → R s r.2) ∧
    (∀ s r, evalExpr env n s = some r → R s r.2) := by
  induction n with
  | zero =>
    refine ⟨?_, ?_, ?_, ?_⟩
    · intro s r hr
      cases hr
    · intro s r hr
      cases hr
    · intro v s r hr
      cases hr
    · intro s r hr
      cases hr
  | succ n ih =>
    obtain ⟨hfactor, hterm, hmore, hexpr⟩ := ih
    refine ⟨?_, ?_, ?_, ?_⟩
    · intro s r hr
      refine h.trans (h.skip s) ?_
      rw [evalFactor] at hr
      dsimp only at hr
      split at hr
      · cases hr
        exact h.drop 1 _
      split at hr
      · obtain ⟨⟨v, t⟩, ht, rfl⟩ := Option.map_eq_some_iff.mp hr
        refine h.trans (h.trans (h.drop 1 _) (hexpr _ _ ht)) ?_
        exact h.trans (h.skip t) (h.dropIf _ _)
      split at hr
      · cases hr
        exact h.trans (h.drop 1 _) (h.trans (h.drop 1 _) (h.dropIf _ _))
      split at hr
      · cases hr
        exact h.drop _ _
      split at hr
      · cases hr
        exact h.symbol _
      · cases hr
        exact h.bad _
    · intro s r hr
      refine h.trans (h.skip s) ?_
      rw [evalTerm] at hr
      split at hr
      · obtain ⟨t, ht, rfl⟩ := Option.map_eq_some_iff.mp hr
        exact h.trans (h.drop 3 _) (hterm _ t ht)
      split at hr
      · obtain ⟨t, ht, rfl⟩ := Option.map_eq_some_iff.mp hr
        exact h.trans (h.drop 1 _) (hterm _ t ht)
      split at hr
      · exact h.trans (h.drop 1 _) (hterm _ _ hr)
      · exact hfactor _ _ hr
    · intro v s r hr
      refine h.trans (h.skip s) ?_
      rw [evalMore] at hr
      split at hr
      · obtain ⟨t, ht, hr⟩ := Option.bind_eq_some_iff.mp hr
        exact h.trans (h.trans (h.drop 1 _) (hterm _ _ ht)) (hmore _ _ _ hr)
      split at hr
      · obtain ⟨t, ht, hr⟩ := Option.bind_eq_some_iff.mp hr
        exact h.trans (h.trans (h.drop 1 _) (hterm _ _ ht)) (hmore _ _ _ hr)
      · cases hr
        exact h.refl _
    · intro s r hr
      rw [evalExpr] at hr
      obtain ⟨t, ht, hr⟩ := Option.bind_eq_some_iff.mp hr
      exact h.trans (hterm _ _ ht) (hmore _ _ _ hr)

/-! ## Enough fuel -/

theorem moves_length (env : Env) : Moves env fun s t => t.ep.length ≤ s.ep.length := by
  have hdrop (k : ℕ) (s : Scan) : (s.drop k).ep.length ≤ s.ep.length := by
    simp [Scan.drop]
  refine ⟨fun s => Nat.le_refl _, fun h h' => h'.trans h, hdrop, ?_, fun s => Nat.le_refl _, ?_⟩
  · intro s
    exact (List.dropWhile_suffix _).length_le
  · intro s
    unfold evalSymbol
    dsimp only
    split
    · exact hdrop _ s
    · exact hdrop _ s

/-- A character can only be read where there is one. -/
theorem length_drop_lt {s : Scan} {c : Char} (h : s.peek = c) (hc : c ≠ NUL) :
    (s.drop 1).ep.length < s.ep.length := by
  cases hep : s.ep with
  | nil =>
    rw [Scan.peek, hep] at h
    exact absurd h.symm hc
  | cons d rest => simp [Scan.drop, hep]

/-- **Enough fuel**: three steps for each character that is left, and a few more. -/
theorem eval_isSome (env : Env) (n : ℕ) :
    (∀ s, 3 * s.ep.length + 1 ≤ n → (evalFactor env n s).isSome) ∧
    (∀ s, 3 * s.ep.length + 2 ≤ n → (evalTerm env n s).isSome) ∧
    (∀ v s, 3 * s.ep.length + 2 ≤ n → (evalMore env n v s).isSome) ∧
    (∀ s, 3 * s.ep.length + 3 ≤ n → (evalExpr env n s).isSome) := by
  induction n with
  | zero => exact ⟨by omega, by omega, by omega, by omega⟩
  | succ n ih =>
    obtain ⟨hfactor, hterm, hmore, hexpr⟩ := ih
    have hlen := (moves_length env).eval n
    have hskip (s : Scan) : s.skip.ep.length ≤ s.ep.length := (moves_length env).skip s
    have hone {s : Scan} {c : Char} (h : s.peek = c) (hc : c ≠ NUL) := length_drop_lt h hc
    have htermMore (s : Scan) (f : ℤ → ℤ) (hn : 3 * s.ep.length + 2 ≤ n) :
        ((evalTerm env n s).bind fun r => evalMore env n (f r.1) r.2).isSome := by
      obtain ⟨r, hr⟩ := Option.isSome_iff_exists.mp (hterm s hn)
      rw [hr]
      have := hlen.2.1 s r hr
      exact hmore _ _ (by omega)
    refine ⟨?_, ?_, ?_, ?_⟩
    · intro s hn
      have := hskip s
      rw [evalFactor]
      dsimp only
      split
      · rfl
      split
      · have := hone ‹_› (by decide)
        rw [Option.isSome_map]
        exact hexpr _ (by omega)
      split
      · rfl
      split
      · rfl
      split
      · rfl
      · rfl
    · intro s hn
      have := hskip s
      rw [evalTerm]
      split
      · rename_i hnot
        rw [Option.isSome_map]
        refine hterm _ ?_
        have hlong := length_of_startsWith (Bool.and_eq_true _ _ ▸ hnot).1
        change 3 ≤ s.skip.ep.length at hlong
        simp only [Scan.drop, List.length_drop]
        omega
      split
      · have := hone ‹_› (by decide)
        rw [Option.isSome_map]
        exact hterm _ (by omega)
      split
      · have := hone ‹_› (by decide)
        exact hterm _ (by omega)
      · exact hfactor _ (by omega)
    · intro v s hn
      have := hskip s
      rw [evalMore]
      split
      · have := hone ‹_› (by decide)
        exact htermMore _ (fun w => toLong (v + w)) (by omega)
      split
      · have := hone ‹_› (by decide)
        exact htermMore _ (fun w => toLong (v - w)) (by omega)
      · rfl
    · intro s hn
      rw [evalExpr]
      exact htermMore s id (by omega)

/-- `evaluate`: the value, and the final state of the evaluator. -/
def evaluate (env : Env) (s : Ptr) : ℤ × Scan :=
  (evalExpr env (3 * s.length + 3) ⟨s, true, []⟩).get
    ((eval_isSome env _).2.2.2 ⟨s, true, []⟩ (Nat.le_refl _))

theorem evalExpr_evaluate (env : Env) (s : Ptr) :
    evalExpr env (3 * s.length + 3) ⟨s, true, []⟩ = some (evaluate env s) :=
  (Option.some_get _).symm

/-! ## The symbols referred to -/

theorem moves_refs (env : Env) : Moves env fun s t => t.ok = true →
    s.ok = true ∧ ∀ name ∈ t.refs, name ∈ s.refs ∨ (env.syms.find name).isSome := by
  refine ⟨?_, ?_, ?_, ?_, ?_, ?_⟩
  · exact fun s h => ⟨h, fun name hname => Or.inl hname⟩
  · intro s t u hst htu hu
    obtain ⟨ht, hrefs⟩ := htu hu
    obtain ⟨hs, hrefs'⟩ := hst ht
    refine ⟨hs, fun name hname => ?_⟩
    rcases hrefs name hname with hname | hfound
    · exact hrefs' name hname
    · exact Or.inr hfound
  · exact fun k s h => ⟨h, fun name hname => Or.inl hname⟩
  · exact fun s h => ⟨h, fun name hname => Or.inl hname⟩
  · exact fun s h => absurd h Bool.false_ne_true
  · intro s h
    unfold evalSymbol at h ⊢
    dsimp only at h ⊢
    split at h
    · exact absurd h Bool.false_ne_true
    · rename_i v hfind
      refine ⟨h, fun name hname => ?_⟩
      rcases List.mem_append.mp hname with hname | hname
      · exact Or.inl hname
      · rw [List.mem_singleton.mp hname, hfind]
        exact Or.inr rfl

/-- **An expression is in order** only if every symbol it refers to has a value. -/
theorem refs_of_ok {env : Env} {s : Ptr} (h : (evaluate env s).2.ok = true) :
    ∀ name ∈ (evaluate env s).2.refs, (env.syms.find name).isSome := by
  have hrefs := ((moves_refs env).eval _).2.2.2 _ _ (evalExpr_evaluate env s) h
  intro name hname
  rcases hrefs.2 name hname with hnil | hfound
  · exact absurd hnil List.not_mem_nil
  · exact hfound

/-- Two environments that agree on some symbols, and on the location counter. -/
def Env.Agrees (env env' : Env) (refs : List Name) : Prop :=
  env.stmtPc = env'.stmtPc ∧ ∀ name ∈ refs, env.syms.find name = env'.syms.find name

theorem Env.Agrees.subset {env env' : Env} {refs refs' : List Name} (h : env.Agrees env' refs')
    (hsub : refs ⊆ refs') : env.Agrees env' refs :=
  ⟨h.1, fun name hname => h.2 name (hsub hname)⟩

/-- Two states at the same place, with the same symbols behind them, the one under `env` and the
other under `env'`. -/
structure Scan.Alike (env env' : Env) (s t : Scan) : Prop where
  ep : s.ep = t.ep
  refs : s.refs = t.refs
  same : env.Agrees env' s.refs → s.ok = t.ok
  /-- If every symbol has a value under `env'`, nothing is in order under `env` only. -/
  mono : (∀ name ∈ s.refs, (env'.syms.find name).isSome) → s.ok = true → t.ok = true

/-- The same with values, which agree if the environments do. -/
structure ResultAlike (env env' : Env) (r r' : ℤ × Scan) : Prop where
  scan : r.2.Alike env env' r'.2
  value : env.Agrees env' r.2.refs → r.1 = r'.1

namespace Scan.Alike

variable {env env' : Env} {s t : Scan} (h : s.Alike env env' t)

include h

theorem peek : s.peek = t.peek := by rw [Scan.peek, Scan.peek, h.ep]

theorem drop (k : ℕ) : (s.drop k).Alike env env' (t.drop k) :=
  ⟨congrArg (List.drop k) h.ep, h.refs, h.same, h.mono⟩

theorem skip : s.skip.Alike env env' t.skip :=
  ⟨congrArg (List.dropWhile isBlank) h.ep, h.refs, h.same, h.mono⟩

theorem bad : s.bad.Alike env env' t.bad :=
  ⟨h.ep, h.refs, fun _ => rfl, fun _ hok => absurd hok Bool.false_ne_true⟩

theorem dropIf {c : Char} : (if s.peek = c then s.drop 1 else s).Alike env env'
    (if t.peek = c then t.drop 1 else t) := by
  rw [h.peek]
  split
  · exact h.drop 1
  · exact h

/-- The values at hand are the same. -/
theorem result {v v' : ℤ} (hv : env.stmtPc = env'.stmtPc → v = v') :
    ResultAlike env env' (v, s) (v', t) :=
  ⟨h, fun hagree => hv hagree.1⟩

theorem symbol : ResultAlike env env' (evalSymbol env s) (evalSymbol env' t) := by
  have hsub (name : Name) : s.refs ⊆ s.refs ++ [name] := List.subset_append_left _ _
  unfold evalSymbol
  rw [← h.ep]
  dsimp only
  generalize ((s.ep.takeWhile isNameChar).take 31).map Char.toUpper = name
  have hep := congrArg (List.drop (s.ep.takeWhile isNameChar).length) h.ep
  have hrefs := congrArg (· ++ [name]) h.refs
  have hlast : name ∈ s.refs ++ [name] := List.mem_append_right _ (List.mem_singleton_self name)
  have hfind : env.Agrees env' (s.refs ++ [name]) → env.syms.find name = env'.syms.find name :=
    fun hagree => hagree.2 name hlast
  cases hv : env.syms.find name with
  | none =>
    rw [hv] at hfind
    cases hv' : env'.syms.find name with
    | none =>
      exact ⟨⟨hep, hrefs, fun _ => rfl, fun _ hok => absurd hok Bool.false_ne_true⟩, fun _ => rfl⟩
    | some v' =>
      rw [hv'] at hfind
      exact ⟨⟨hep, hrefs, fun hagree => absurd (hfind hagree) nofun,
        fun _ hok => absurd hok Bool.false_ne_true⟩, fun hagree => absurd (hfind hagree) nofun⟩
  | some v =>
    rw [hv] at hfind
    cases hv' : env'.syms.find name with
    | none =>
      rw [hv'] at hfind
      refine ⟨⟨hep, hrefs, fun hagree => absurd (hfind hagree) nofun, fun hsome _ => ?_⟩,
        fun hagree => absurd (hfind hagree) nofun⟩
      have hno := hsome name hlast
      rw [hv'] at hno
      exact absurd hno Bool.false_ne_true
    | some v' =>
      rw [hv'] at hfind
      exact ⟨⟨hep, hrefs, fun hagree => h.same (hagree.subset (hsub name)),
        fun hsome hok => h.mono (fun n hn => hsome n (hsub name hn)) hok⟩,
        fun hagree => Option.some.inj (hfind hagree)⟩

end Scan.Alike

/-- The symbols behind the pointer only become more. -/
theorem moves_subset (env : Env) : Moves env fun s t => s.refs ⊆ t.refs := by
  refine ⟨fun s => List.Subset.refl _, List.Subset.trans, fun k s => List.Subset.refl _,
    fun s => List.Subset.refl _, fun s => List.Subset.refl _, fun s => ?_⟩
  unfold evalSymbol
  dsimp only
  split
  · exact List.subset_append_left _ _
  · exact List.subset_append_left _ _

/-- **The values of the symbols steer nothing**: under another environment the evaluator takes the
same way, and only the symbols on the way matter. -/
theorem eval_alike (env env' : Env) (n : ℕ) :
    (∀ s t r, s.Alike env env' t → evalFactor env n s = some r →
      ∃ r', evalFactor env' n t = some r' ∧ ResultAlike env env' r r') ∧
    (∀ s t r, s.Alike env env' t → evalTerm env n s = some r →
      ∃ r', evalTerm env' n t = some r' ∧ ResultAlike env env' r r') ∧
    (∀ v v' s t r, s.Alike env env' t → (env.Agrees env' s.refs → v = v') →
      evalMore env n v s = some r →
        ∃ r', evalMore env' n v' t = some r' ∧ ResultAlike env env' r r') ∧
    (∀ s t r, s.Alike env env' t → evalExpr env n s = some r →
      ∃ r', evalExpr env' n t = some r' ∧ ResultAlike env env' r r') := by
  induction n with
  | zero =>
    refine ⟨?_, ?_, ?_, ?_⟩
    · intro s t r _ hr
      cases hr
    · intro s t r _ hr
      cases hr
    · intro v v' s t r _ _ hr
      cases hr
    · intro s t r _ hr
      cases hr
  | succ n ih =>
    obtain ⟨hfactor, hterm, hmore, hexpr⟩ := ih
    have hgrow := (moves_subset env).eval n
    have htermMore (s t : Scan) (f f' : ℤ → ℤ) (r : ℤ × Scan) (h : s.Alike env env' t)
        (hf : env.Agrees env' s.refs → f = f')
        (hr : ((evalTerm env n s).bind fun r => evalMore env n (f r.1) r.2) = some r) :
        ∃ r', ((evalTerm env' n t).bind fun r => evalMore env' n (f' r.1) r.2) = some r' ∧
          ResultAlike env env' r r' := by
      obtain ⟨u, hu, hr⟩ := Option.bind_eq_some_iff.mp hr
      obtain ⟨u', hu', halike⟩ := hterm _ _ _ h hu
      have hvalue : env.Agrees env' u.2.refs → f u.1 = f' u'.1 := by
        intro hagree
        rw [hf (hagree.subset (hgrow.2.1 _ _ hu)), halike.value hagree]
      rw [hu']
      exact hmore _ _ _ _ _ halike.scan hvalue hr
    have htermMap (s t : Scan) (f : ℤ → ℤ) (r : ℤ × Scan) (h : s.Alike env env' t)
        (hr : ((evalTerm env n s).map fun r => (f r.1, r.2)) = some r) :
        ∃ r', ((evalTerm env' n t).map fun r => (f r.1, r.2)) = some r' ∧
          ResultAlike env env' r r' := by
      obtain ⟨u, hu, rfl⟩ := Option.map_eq_some_iff.mp hr
      obtain ⟨u', hu', halike⟩ := hterm _ _ _ h hu
      rw [hu']
      exact ⟨_, rfl, halike.scan, fun hagree => congrArg f (halike.value hagree)⟩
    refine ⟨?_, ?_, ?_, ?_⟩
    · intro s t r h hr
      have hskip := h.skip
      rw [evalFactor] at hr ⊢
      dsimp only at hr ⊢
      rw [← hskip.peek, ← hskip.ep]
      by_cases hpc : s.skip.peek = '$'
      · rw [if_pos hpc] at hr ⊢
        cases hr
        exact ⟨_, rfl, (hskip.drop 1).result id⟩
      rw [if_neg hpc] at hr ⊢
      by_cases hparen : s.skip.peek = '('
      · rw [if_pos hparen] at hr ⊢
        obtain ⟨u, hu, rfl⟩ := Option.map_eq_some_iff.mp hr
        obtain ⟨u', hu', halike⟩ := hexpr _ _ _ (hskip.drop 1) hu
        rw [hu']
        refine ⟨_, rfl, halike.scan.skip.dropIf, fun hagree => halike.value ?_⟩
        have hrefs : (if u.2.skip.peek = ')' then u.2.skip.drop 1 else u.2.skip).refs =
            u.2.refs := by
          split
          · rfl
          · rfl
        rwa [hrefs] at hagree
      rw [if_neg hparen] at hr ⊢
      by_cases hquote : s.skip.peek = QUOTE
      · rw [if_pos hquote] at hr ⊢
        cases hr
        refine ⟨_, rfl, ((hskip.drop 1).drop 1).dropIf.result fun _ => ?_⟩
        rw [(hskip.drop 1).peek]
      rw [if_neg hquote] at hr ⊢
      by_cases hdigit : s.skip.peek.isDigit = true
      · rw [if_pos hdigit] at hr ⊢
        cases hr
        exact ⟨_, rfl, (hskip.drop _).result fun _ => rfl⟩
      rw [if_neg hdigit] at hr ⊢
      by_cases hname : isNameStart s.skip.peek = true
      · rw [if_pos hname] at hr ⊢
        cases hr
        exact ⟨_, rfl, hskip.symbol⟩
      · rw [if_neg hname] at hr ⊢
        cases hr
        exact ⟨_, rfl, hskip.bad.result fun _ => rfl⟩
    · intro s t r h hr
      have hskip := h.skip
      rw [evalTerm] at hr ⊢
      rw [← hskip.peek, ← hskip.ep]
      by_cases hnot : (startsWith s.skip.ep "NOT" &&
          !(deref (s.skip.ep.drop 3)).isAlphanum) = true
      · rw [if_pos hnot] at hr ⊢
        exact htermMap _ _ (fun v => toLong (-v - 1)) r (hskip.drop 3) hr
      rw [if_neg hnot] at hr ⊢
      by_cases hminus : s.skip.peek = '-'
      · rw [if_pos hminus] at hr ⊢
        exact htermMap _ _ (fun v => toLong (-v)) r (hskip.drop 1) hr
      rw [if_neg hminus] at hr ⊢
      by_cases hplus : s.skip.peek = '+'
      · rw [if_pos hplus] at hr ⊢
        exact hterm _ _ _ (hskip.drop 1) hr
      · rw [if_neg hplus] at hr ⊢
        exact hfactor _ _ _ hskip hr
    · intro v v' s t r h hv hr
      have hskip := h.skip
      rw [evalMore] at hr ⊢
      rw [← hskip.peek]
      by_cases hplus : s.skip.peek = '+'
      · rw [if_pos hplus] at hr ⊢
        refine htermMore _ _ (fun w => toLong (v + w)) (fun w => toLong (v' + w)) r (hskip.drop 1)
          (fun hagree => ?_) hr
        rw [hv hagree]
      rw [if_neg hplus] at hr ⊢
      by_cases hminus : s.skip.peek = '-'
      · rw [if_pos hminus] at hr ⊢
        refine htermMore _ _ (fun w => toLong (v - w)) (fun w => toLong (v' - w)) r (hskip.drop 1)
          (fun hagree => ?_) hr
        rw [hv hagree]
      · rw [if_neg hminus] at hr ⊢
        cases hr
        exact ⟨_, rfl, hskip, hv⟩
    · intro s t r h hr
      rw [evalExpr] at hr ⊢
      exact htermMore _ _ id id r h (fun _ => rfl) hr

theorem evaluate_alike (env env' : Env) (s : Ptr) :
    ResultAlike env env' (evaluate env s) (evaluate env' s) := by
  have hstart : Scan.Alike env env' ⟨s, true, []⟩ ⟨s, true, []⟩ :=
    ⟨rfl, rfl, fun _ => rfl, fun _ h => h⟩
  obtain ⟨r, hr, halike⟩ := (eval_alike env env' (3 * s.length + 3)).2.2.2 _ _ _ hstart
    (evalExpr_evaluate env s)
  rw [evalExpr_evaluate] at hr
  cases hr
  exact halike

/-- The symbols that an operand refers to. -/
def refsOf (s : Ptr) : List Name := (evaluate ⟨[], 0⟩ s).2.refs

theorem refs_evaluate (env : Env) (s : Ptr) : (evaluate env s).2.refs = refsOf s :=
  (evaluate_alike env ⟨[], 0⟩ s).scan.refs

/-- **An operand has the same value** under environments that agree on its symbols. -/
theorem evaluate_congr {env env' : Env} {s : Ptr} (h : env.Agrees env' (refsOf s)) :
    (evaluate env s).1 = (evaluate env' s).1 ∧
      (evaluate env s).2.ok = (evaluate env' s).2.ok := by
  have halike := evaluate_alike env env' s
  rw [← refs_evaluate env] at h
  exact ⟨halike.value h, halike.scan.same h⟩

/-- **An operand that is in order** is so under any environment that has values for its symbols. -/
theorem evaluate_ok_mono {env env' : Env} {s : Ptr}
    (h : ∀ name ∈ refsOf s, (env'.syms.find name).isSome) (hok : (evaluate env s).2.ok = true) :
    (evaluate env' s).2.ok = true := by
  rw [← refs_evaluate env] at h
  exact (evaluate_alike env env' s).scan.mono h hok

end Umk80
