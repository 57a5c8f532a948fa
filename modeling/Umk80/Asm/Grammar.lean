import Mathlib.Data.List.TakeWhile
import Umk80.Asm.Plain

/-!
# The grammar of expressions

What the evaluator accepts, against the grammar of its head comment. The grammar is a relation
between a text, the value that its beginning has, and the rest of the text.

What may be wrong with a text is read off it from left to right, with the number of parentheses
that are open: each of its flaws in turn, and no values. A text without flaws is one that derives.
The evaluator reports two kinds of them, a symbol without a value and a factor that is missing. The
others it lets pass, and goes on: a parenthesis that is not closed, a character literal that is not
closed or is a quote, a constant that is no number, and a text behind the expression. The last kind
is a quote at the very end, which makes it read on behind the text.

A text here ends where C has the NUL. The evaluator is run on the text with a NUL and anything else
behind it.

## Main definitions

* `Cat`, `evalCat` — the four functions of the evaluator as one
* `constant` — the well-formed numbers
* `Parses` — the grammar
* `Derives` — a whole operand
* `flaws` — what is wrong with an operand

## Main results

* `Parses.follows` — the evaluator follows every derivation
* `derives_iff` — what derives is what has no flaws
* `reads` — every run, against the flaws of its text
* `exactOn_iff` — where the evaluator accepts exactly its grammar
-/

namespace Umk80

open CString

/-! ## The evaluator, once more -/

/-- The functions of the evaluator. The loop has the value so far. -/
inductive Cat
  | factor
  | term
  | expr
  | more (v : ℤ)

/-- The function for a category. -/
def evalCat (env : Env) : Cat → ℕ → Scan → Option (ℤ × Scan)
  | .factor => evalFactor env
  | .term => evalTerm env
  | .expr => evalExpr env
  | .more v => fun n => evalMore env n v

/-- With more fuel the result is the same. -/
theorem eval_succ (env : Env) (n : ℕ) :
    (∀ s r, evalFactor env n s = some r → evalFactor env (n + 1) s = some r) ∧
    (∀ s r, evalTerm env n s = some r → evalTerm env (n + 1) s = some r) ∧
    (∀ v s r, evalMore env n v s = some r → evalMore env (n + 1) v s = some r) ∧
    (∀ s r, evalExpr env n s = some r → evalExpr env (n + 1) s = some r) := by
  induction n with
  | zero => exact ⟨nofun, nofun, nofun, nofun⟩
  | succ n ih =>
    obtain ⟨hfactor, hterm, hmore, hexpr⟩ := ih
    have hbind (s : Scan) (f : ℤ → ℤ) (r : ℤ × Scan)
        (hr : ((evalTerm env n s).bind fun r => evalMore env n (f r.1) r.2) = some r) :
        ((evalTerm env (n + 1) s).bind fun r => evalMore env (n + 1) (f r.1) r.2) = some r := by
      obtain ⟨u, hu, hr⟩ := Option.bind_eq_some_iff.mp hr
      rw [hterm _ _ hu]
      exact hmore _ _ _ hr
    have hmap {α : Type} {x y : Option (ℤ × Scan)} {f : ℤ × Scan → α} {r : α}
        (hxy : ∀ r, x = some r → y = some r) (hr : x.map f = some r) : y.map f = some r := by
      obtain ⟨u, hu, rfl⟩ := Option.map_eq_some_iff.mp hr
      rw [hxy _ hu]
      rfl
    refine ⟨?_, ?_, ?_, ?_⟩
    · intro s r hr
      rw [evalFactor] at hr ⊢
      dsimp only at hr ⊢
      split at hr
      · rw [if_pos ‹_›]
        exact hr
      rw [if_neg ‹_›]
      split at hr
      · rw [if_pos ‹_›]
        exact hmap (hexpr _) hr
      rw [if_neg ‹_›]
      exact hr
    · intro s r hr
      rw [evalTerm] at hr ⊢
      split at hr
      · rw [if_pos ‹_›]
        exact hmap (hterm _) hr
      rw [if_neg ‹_›]
      split at hr
      · rw [if_pos ‹_›]
        exact hmap (hterm _) hr
      rw [if_neg ‹_›]
      split at hr
      · rw [if_pos ‹_›]
        exact hterm _ _ hr
      · rw [if_neg ‹_›]
        exact hfactor _ _ hr
    · intro v s r hr
      rw [evalMore] at hr ⊢
      split at hr
      · rw [if_pos ‹_›]
        exact hbind _ (fun w => toLong (v + w)) _ hr
      rw [if_neg ‹_›]
      split at hr
      · rw [if_pos ‹_›]
        exact hbind _ (fun w => toLong (v - w)) _ hr
      · rw [if_neg ‹_›]
        exact hr
    · intro s r hr
      rw [evalExpr] at hr ⊢
      exact hbind _ id _ hr

/-- The function for a category gives this result, with fuel enough. -/
def Evals (env : Env) (cat : Cat) (s : Scan) (r : ℤ × Scan) : Prop :=
  ∃ n, evalCat env cat n s = some r

theorem evalCat_mono {env : Env} {cat : Cat} {n m : ℕ} (h : n ≤ m) {s : Scan} {r : ℤ × Scan}
    (hr : evalCat env cat n s = some r) : evalCat env cat m s = some r := by
  induction m, h using Nat.le_induction with
  | base => exact hr
  | succ m _ ih =>
    cases cat with
    | factor => exact (eval_succ env m).1 _ _ ih
    | term => exact (eval_succ env m).2.1 _ _ ih
    | expr => exact (eval_succ env m).2.2.2 _ _ ih
    | more v => exact (eval_succ env m).2.2.1 _ _ _ ih

theorem Evals.unique {env : Env} {cat : Cat} {s : Scan} {r r' : ℤ × Scan}
    (h : Evals env cat s r) (h' : Evals env cat s r') : r = r' := by
  obtain ⟨n, hn⟩ := h
  obtain ⟨m, hm⟩ := h'
  have hmax := evalCat_mono (Nat.le_max_left n m) hn
  rw [evalCat_mono (Nat.le_max_right n m) hm] at hmax
  exact (Option.some.inj hmax).symm

theorem evals_evaluate (env : Env) (s : Ptr) :
    Evals env .expr ⟨s, true, []⟩ (evaluate env s) :=
  ⟨3 * s.length + 3, evalExpr_evaluate env s⟩

/-! ## The grammar -/

def skipBlanks (s : List Char) : List Char := s.dropWhile isBlank

/-- The operator NOT. -/
def isNot (s : List Char) : Bool := startsWith s "NOT" && !(deref (s.drop 3)).isAlphanum

/-- A number in a base, if it has a digit, all its digits are in the base, and it fits a `long`. -/
def numeral (base : ℕ) (digits : List Char) : Option ℤ :=
  let v := digits.foldl (fun v c => v * base + digitValue c) 0
  if digits ≠ [] ∧ digits.all (fun c => digitValue c < base) ∧ v ≤ LONG_MAX then some v else none

/-- The well-formed numbers: hexadecimal with an H, binary with a B, decimal with or without a D,
of at most 63 characters. -/
def constant (tok : List Char) : Option ℤ :=
  let last := tok.getLastD NUL
  if 63 < tok.length then none
  else if last = 'H' ∨ last = 'h' then numeral 16 tok.dropLast
  else if last = 'B' ∨ last = 'b' then numeral 2 tok.dropLast
  else if last = 'D' ∨ last = 'd' then numeral 10 tok.dropLast
  else numeral 10 tok

/-- What starts a factor, or is a sign. -/
def startsFactor (c : Char) : Bool :=
  c == '$' || c == '(' || c == QUOTE || c.isDigit || isNameStart c || c == '+' || c == '-'

/-- **The grammar**: a text has a value up to a rest. -/
inductive Parses (env : Env) : Cat → List Char → ℤ → List Char → Prop
  | pc {s r : List Char} (h : skipBlanks s = '$' :: r) : Parses env .factor s env.stmtPc r
  | paren {s t r r' : List Char} {v : ℤ} (h : skipBlanks s = '(' :: t)
    (hexpr : Parses env .expr t v r) (hclose : skipBlanks r = ')' :: r') :
    Parses env .factor s v r'
  | literal {s r : List Char} {c : Char} (h : skipBlanks s = QUOTE :: c :: QUOTE :: r)
    (hc : c ≠ QUOTE) : Parses env .factor s c.toNat r
  | number {s tok r : List Char} {v : ℤ} (h : skipBlanks s = tok ++ r)
    (htok : (skipBlanks s).takeWhile Char.isAlphanum = tok)
    (hstart : (skipBlanks s).head?.any Char.isDigit) (hv : constant tok = some v) :
    Parses env .factor s v r
  | symbol {s tok r : List Char} {v : ℤ} (h : skipBlanks s = tok ++ r)
    (htok : (skipBlanks s).takeWhile isNameChar = tok)
    (hstart : (skipBlanks s).head?.any isNameStart) (hnot : isNot (skipBlanks s) = false)
    (hv : env.syms.find ((tok.take 31).map Char.toUpper) = some v) : Parses env .factor s v r
  | not {s r : List Char} {v : ℤ} (h : isNot (skipBlanks s) = true)
    (hterm : Parses env .term ((skipBlanks s).drop 3) v r) :
    Parses env .term s (toLong (-v - 1)) r
  | neg {s t r : List Char} {v : ℤ} (h : skipBlanks s = '-' :: t)
    (hterm : Parses env .term t v r) : Parses env .term s (toLong (-v)) r
  | pos {s t r : List Char} {v : ℤ} (h : skipBlanks s = '+' :: t)
    (hterm : Parses env .term t v r) : Parses env .term s v r
  | factor {s r : List Char} {v : ℤ} (hfactor : Parses env .factor s v r) : Parses env .term s v r
  | expr {s r r' : List Char} {v v' : ℤ} (hterm : Parses env .term s v r)
    (hmore : Parses env (.more v) r v' r') : Parses env .expr s v' r'
  | done {s : List Char} {v : ℤ} : Parses env (.more v) s v s
  | plus {s t r r' : List Char} {v w v' : ℤ} (h : skipBlanks s = '+' :: t)
    (hterm : Parses env .term t w r) (hmore : Parses env (.more (toLong (v + w))) r v' r') :
    Parses env (.more v) s v' r'
  | minus {s t r r' : List Char} {v w v' : ℤ} (h : skipBlanks s = '-' :: t)
    (hterm : Parses env .term t w r) (hmore : Parses env (.more (toLong (v - w))) r v' r') :
    Parses env (.more v) s v' r'

/-- An operand derives from the grammar, with this value. -/
def Derives (env : Env) (text : List Char) (v : ℤ) : Prop :=
  ∃ r, Parses env .expr text v r ∧ skipBlanks r = []

/-- No operator goes on with the expression. -/
def Stops (r : List Char) : Prop := ∀ c ∈ (skipBlanks r).head?, c ≠ '+' ∧ c ≠ '-'

theorem stops_of_nil {r : List Char} (h : skipBlanks r = []) : Stops r := by
  simp [Stops, h]

theorem stops_of_cons {r t : List Char} {c : Char} (h : skipBlanks r = c :: t)
    (hplus : c ≠ '+') (hminus : c ≠ '-') : Stops r := by
  simp [Stops, h, hplus, hminus]

/-! ## The text and what is behind it -/

theorem skipBlanks_suffix (s : List Char) : skipBlanks s <:+ s := List.dropWhile_suffix _

theorem suffix_of_skipBlanks {s r : List Char} {c : Char} (h : skipBlanks s = c :: r) :
    r <:+ s := by
  have hs := skipBlanks_suffix s
  rw [h] at hs
  exact (List.suffix_cons c r).trans hs

theorem suffix_of_append {s tok r : List Char} (h : skipBlanks s = tok ++ r) : r <:+ s := by
  have hs := skipBlanks_suffix s
  rw [h] at hs
  exact (List.suffix_append tok r).trans hs

/-- The rest of a text is the end of it. -/
theorem Parses.suffix {env : Env} {cat : Cat} {s r : List Char} {v : ℤ}
    (h : Parses env cat s v r) : r <:+ s := by
  induction h with
  | pc h => exact suffix_of_skipBlanks h
  | paren h _ hclose ih =>
    exact (suffix_of_skipBlanks hclose).trans (ih.trans (suffix_of_skipBlanks h))
  | literal h _ =>
    have hs := suffix_of_skipBlanks h
    exact (List.suffix_cons _ _).trans ((List.suffix_cons _ _).trans hs)
  | number h | symbol h => exact suffix_of_append h
  | not _ _ ih => exact ih.trans ((List.drop_suffix _ _).trans (skipBlanks_suffix _))
  | neg h _ ih | pos h _ ih => exact ih.trans (suffix_of_skipBlanks h)
  | factor _ ih => exact ih
  | expr _ _ ih ih' => exact ih'.trans ih
  | done => exact List.suffix_rfl
  | plus h _ _ ih ih' | minus h _ _ ih ih' =>
    exact ih'.trans (ih.trans (suffix_of_skipBlanks h))

variable {s t : List Char} {z : Ptr} {ok : Bool} {refs : List Name}

/-- Skipping blanks stays within the text. -/
theorem skip_append : (Scan.mk (s ++ NUL :: z) ok refs).skip =
    ⟨skipBlanks s ++ NUL :: z, ok, refs⟩ := by
  rw [Scan.skip, skipBlanks]
  dsimp only
  congr 1
  induction s with
  | nil => rfl
  | cons c s ih =>
    rw [List.cons_append, List.dropWhile_cons, List.dropWhile_cons]
    split
    · exact ih
    · rfl

theorem takeWhile_text {p : Char → Bool} (hp : p NUL = false) (s : List Char) (z : Ptr) :
    (s ++ NUL :: z).takeWhile p = s.takeWhile p := by
  rw [List.takeWhile_append]
  split
  · rename_i h
    rw [List.takeWhile_cons_of_neg (by simp [hp]), List.append_nil,
      (List.takeWhile_prefix p).eq_of_length h]
  · rfl

/-- The operator NOT does not reach beyond the text. -/
theorem isNot_append (s : List Char) (z : Ptr) :
    (startsWith (s ++ NUL :: z) "NOT" && !(deref ((s ++ NUL :: z).drop 3)).isAlphanum) =
      isNot s :=
  startsWith_and_append (by decide) (!·.isAlphanum) s z

theorem three_le_of_isNot (h : isNot s = true) : 3 ≤ s.length := by
  have hlong := length_of_startsWith (Bool.and_eq_true _ _ ▸ h).1
  exact hlong

/-! ## Every derivation is followed -/

/-- The evaluator follows a derivation. The loop goes on where an expression may end. -/
def Follows (env : Env) (z : Ptr) (cat : Cat) (s : List Char) (v : ℤ) (r : List Char) : Prop :=
  ∀ ok refs, ∃ refs', match cat with
    | .factor | .term =>
      Evals env cat ⟨s ++ NUL :: z, ok, refs⟩ (v, ⟨r ++ NUL :: z, ok, refs'⟩)
    | .expr | .more _ => ∀ res, Evals env (.more v) ⟨r ++ NUL :: z, ok, refs'⟩ res →
      Evals env cat ⟨s ++ NUL :: z, ok, refs⟩ res

/-- The evaluator is at a text. -/
theorem evalFactor_text (env : Env) (n : ℕ) (ht : skipBlanks s = t) :
    evalFactor env (n + 1) ⟨s ++ NUL :: z, ok, refs⟩ =
      let u : Scan := ⟨t ++ NUL :: z, ok, refs⟩
      if u.peek = '$' then some (env.stmtPc, u.drop 1)
      else if u.peek = '(' then
        (evalExpr env n (u.drop 1)).map fun r =>
          (r.1, if r.2.skip.peek = ')' then r.2.skip.drop 1 else r.2.skip)
      else if u.peek = QUOTE then
        some (((u.drop 1).peek.toNat : ℤ),
          if ((u.drop 1).drop 1).peek = QUOTE then ((u.drop 1).drop 1).drop 1
          else (u.drop 1).drop 1)
      else if u.peek.isDigit then
        some (number ((t.takeWhile Char.isAlphanum).take 63),
          u.drop (t.takeWhile Char.isAlphanum).length)
      else if isNameStart u.peek then some (evalSymbol env u)
      else some (0, u.bad) := by
  rw [evalFactor, skip_append, ht, takeWhile_text (by decide)]

theorem peek_text (t : List Char) :
    (Scan.mk (t ++ NUL :: z) ok refs).peek = t.head?.getD NUL := by
  cases t
  all_goals rfl

theorem drop_token {tok r : List Char} (h : t = tok ++ r) :
    (t ++ NUL :: z).drop tok.length = r ++ NUL :: z := by
  rw [h, List.append_assoc, List.drop_left]

theorem skipBlanks_idem (s : List Char) : skipBlanks (skipBlanks s) = skipBlanks s :=
  List.dropWhile_idempotent _ _

theorem evalFactor_skip (env : Env) (n : ℕ) :
    evalFactor env n ⟨skipBlanks s ++ NUL :: z, ok, refs⟩ =
      evalFactor env n ⟨s ++ NUL :: z, ok, refs⟩ := by
  cases n with
  | zero => rfl
  | succ n => rw [evalFactor_text env n (skipBlanks_idem s), evalFactor_text env n rfl]

theorem evalTerm_text (env : Env) (n : ℕ) (ht : skipBlanks s = t) :
    evalTerm env (n + 1) ⟨s ++ NUL :: z, ok, refs⟩ =
      let u : Scan := ⟨t ++ NUL :: z, ok, refs⟩
      if isNot t then
        (evalTerm env n ⟨t.drop 3 ++ NUL :: z, ok, refs⟩).map fun r =>
          (toLong (-r.1 - 1), r.2)
      else if u.peek = '-' then (evalTerm env n (u.drop 1)).map fun r => (toLong (-r.1), r.2)
      else if u.peek = '+' then evalTerm env n (u.drop 1)
      else evalFactor env n ⟨s ++ NUL :: z, ok, refs⟩ := by
  rw [evalTerm, skip_append, ht]
  dsimp only
  rw [isNot_append, ← evalFactor_skip (s := s), ht]
  by_cases hnot : isNot t = true
  · rw [if_pos hnot, if_pos hnot, Scan.drop]
    dsimp only
    rw [List.drop_append_of_le_length (three_le_of_isNot hnot)]
  · rw [if_neg hnot, if_neg hnot]

theorem evalMore_text (env : Env) (n : ℕ) (v : ℤ) (ht : skipBlanks s = t) :
    evalMore env (n + 1) v ⟨s ++ NUL :: z, ok, refs⟩ =
      let u : Scan := ⟨t ++ NUL :: z, ok, refs⟩
      if u.peek = '+' then
        (evalTerm env n (u.drop 1)).bind fun r => evalMore env n (toLong (v + r.1)) r.2
      else if u.peek = '-' then
        (evalTerm env n (u.drop 1)).bind fun r => evalMore env n (toLong (v - r.1)) r.2
      else some (v, u) := by
  rw [evalMore, skip_append, ht]

theorem evalSymbol_text (env : Env) {tok r : List Char} (h : t = tok ++ r)
    (htok : t.takeWhile isNameChar = tok) :
    evalSymbol env ⟨t ++ NUL :: z, ok, refs⟩ =
      match env.syms.find ((tok.take 31).map Char.toUpper) with
      | none => (0, ⟨r ++ NUL :: z, false, refs ++ [(tok.take 31).map Char.toUpper]⟩)
      | some v => (v, ⟨r ++ NUL :: z, ok, refs ++ [(tok.take 31).map Char.toUpper]⟩) := by
  rw [evalSymbol, takeWhile_text (by decide), htok]
  dsimp only [Scan.drop, Scan.refer, Scan.bad]
  cases env.syms.find ((tok.take 31).map Char.toUpper) with
  | none => simp only [drop_token h]
  | some v => simp only [drop_token h]

/-! ### Factors -/

variable {env : Env} {r : List Char} {v w : ℤ} {res : ℤ × Scan}

/-- The loop ends where no operator goes on. -/
theorem evals_stop (h : Stops r) : Evals env (.more v) ⟨r ++ NUL :: z, ok, refs⟩
    (v, ⟨skipBlanks r ++ NUL :: z, ok, refs⟩) := by
  refine ⟨1, ?_⟩
  dsimp only [evalCat]
  rw [evalMore_text env 0 v rfl]
  dsimp only
  rw [peek_text]
  cases hr : skipBlanks r with
  | nil => rfl
  | cons c r' =>
    obtain ⟨hplus, hminus⟩ := h c (by simp [hr])
    simp [hplus, hminus]

theorem evals_open {u : ℤ × Scan} (h : skipBlanks s = '(' :: t)
    (hexpr : Evals env .expr ⟨t ++ NUL :: z, ok, refs⟩ u) :
    Evals env .factor ⟨s ++ NUL :: z, ok, refs⟩
      (u.1, if u.2.skip.peek = ')' then u.2.skip.drop 1 else u.2.skip) := by
  obtain ⟨n, hn⟩ := hexpr
  refine ⟨n + 1, ?_⟩
  rw [evalCat, evalFactor_text env n h]
  change (evalExpr env n ⟨t ++ NUL :: z, ok, refs⟩).map _ = _
  rw [show evalExpr env n _ = _ from hn, Option.map_some]

/-- A parenthesised expression that the loop ends at `r`. -/
theorem evals_paren {ok' : Bool} {refs' : List Name} (h : skipBlanks s = '(' :: t)
    (hexpr : ∀ res, Evals env (.more v) ⟨r ++ NUL :: z, ok', refs'⟩ res →
      Evals env .expr ⟨t ++ NUL :: z, ok, refs⟩ res) (hend : Stops r) :
    Evals env .factor ⟨s ++ NUL :: z, ok, refs⟩ (v,
      let u : Scan := ⟨skipBlanks r ++ NUL :: z, ok', refs'⟩
      if u.peek = ')' then u.drop 1 else u) := by
  have hparen := evals_open h (hexpr _ (evals_stop hend))
  rw [skip_append, skipBlanks_idem] at hparen
  exact hparen

/-- A character in quotes, or what is taken for one. -/
theorem evals_literal {c : Char} (h : skipBlanks s = QUOTE :: c :: r) :
    Evals env .factor ⟨s ++ NUL :: z, ok, refs⟩ (c.toNat,
      ⟨(if r.head? = some QUOTE then r.tail else r) ++ NUL :: z, ok, refs⟩) := by
  refine ⟨1, ?_⟩
  rw [evalCat, evalFactor_text env 0 h]
  change some ((c.toNat : ℤ), if (Scan.mk (r ++ NUL :: z) ok refs).peek = QUOTE then _ else _) = _
  rw [peek_text]
  cases r with
  | nil => rfl
  | cons d r =>
    by_cases hd : d = QUOTE
    · simp [hd, Scan.drop]
    · simp [hd, Scan.drop]

/-- A token of letters and digits that starts with a digit. -/
theorem evals_number {tok : List Char} (h : skipBlanks s = tok ++ r)
    (htok : (skipBlanks s).takeWhile Char.isAlphanum = tok)
    (hstart : (skipBlanks s).head?.any Char.isDigit) :
    Evals env .factor ⟨s ++ NUL :: z, ok, refs⟩
      (number (tok.take 63), ⟨r ++ NUL :: z, ok, refs⟩) := by
  obtain ⟨d, hd, hdigit⟩ := (Option.any_eq_true _ _).mp hstart
  have hne {c : Char} (hc : c.isDigit = false) : d ≠ c := by
    rintro rfl
    exact absurd hdigit (by simp [hc])
  refine ⟨1, ?_⟩
  rw [evalCat, evalFactor_text env 0 rfl, htok]
  dsimp only
  rw [peek_text, hd]
  dsimp only [Option.getD_some]
  rw [if_neg (hne (by decide)), if_neg (hne (by decide)), if_neg (hne (by decide)), if_pos hdigit,
    Scan.drop]
  dsimp only
  rw [drop_token h]

theorem not_isDigit_of_isNameStart {c : Char} (h : isNameStart c = true) : c.isDigit = false := by
  rw [Bool.eq_false_iff]
  intro hdigit
  have hnumber := toNat_of_isDigit hdigit
  simp only [isNameStart, Bool.or_eq_true, beq_iff_eq] at h
  rcases h with (h | rfl) | rfl
  · have hletter := toNat_of_isAlpha h
    omega
  · exact absurd hdigit (by decide)
  · exact absurd hdigit (by decide)

/-- A token that starts a name. -/
theorem evals_symbol {tok : List Char} (h : skipBlanks s = tok ++ r)
    (htok : (skipBlanks s).takeWhile isNameChar = tok)
    (hstart : (skipBlanks s).head?.any isNameStart) :
    Evals env .factor ⟨s ++ NUL :: z, ok, refs⟩
      (match env.syms.find ((tok.take 31).map Char.toUpper) with
        | none => (0, ⟨r ++ NUL :: z, false, refs ++ [(tok.take 31).map Char.toUpper]⟩)
        | some v => (v, ⟨r ++ NUL :: z, ok, refs ++ [(tok.take 31).map Char.toUpper]⟩)) := by
  obtain ⟨d, hd, hname⟩ := (Option.any_eq_true _ _).mp hstart
  have hne {c : Char} (hc : isNameStart c = false) : d ≠ c := by
    rintro rfl
    exact absurd hname (by simp [hc])
  refine ⟨1, ?_⟩
  rw [evalCat, evalFactor_text env 0 rfl]
  dsimp only
  rw [peek_text, hd]
  dsimp only [Option.getD_some]
  rw [if_neg (hne (by decide)), if_neg (hne (by decide)), if_neg (hne (by decide)),
    if_neg (by simp [not_isDigit_of_isNameStart hname]), if_pos hname, evalSymbol_text env h htok]

/-- Where no factor starts. -/
theorem evals_nothing (h : (skipBlanks s).head?.all (!startsFactor ·)) :
    Evals env .factor ⟨s ++ NUL :: z, ok, refs⟩ (0, ⟨skipBlanks s ++ NUL :: z, false, refs⟩) := by
  refine ⟨1, ?_⟩
  rw [evalCat, evalFactor_text env 0 rfl]
  dsimp only
  rw [peek_text]
  cases hs : skipBlanks s with
  | nil => rfl
  | cons c t =>
    rw [hs] at h
    simp [startsFactor] at h
    simp [h, Scan.bad]

/-! ### Terms and sums -/

theorem evals_not (h : isNot (skipBlanks s) = true)
    (hterm : Evals env .term ⟨(skipBlanks s).drop 3 ++ NUL :: z, ok, refs⟩ res) :
    Evals env .term ⟨s ++ NUL :: z, ok, refs⟩ (toLong (-res.1 - 1), res.2) := by
  obtain ⟨n, hn⟩ := hterm
  refine ⟨n + 1, ?_⟩
  rw [evalCat, evalTerm_text env n rfl]
  dsimp only
  rw [if_pos h, show evalTerm env n _ = _ from hn]
  rfl

theorem not_isNot_cons {c : Char} (hc : c ≠ 'N') : isNot (c :: t) = false := by
  rw [isNot, Bool.and_eq_false_iff]
  refine Or.inl (beq_eq_false_iff_ne.mpr fun h => hc ?_)
  exact Option.some.inj (congrArg (fun l : List Char => l[0]?) h)

theorem evals_neg (h : skipBlanks s = '-' :: t)
    (hterm : Evals env .term ⟨t ++ NUL :: z, ok, refs⟩ res) :
    Evals env .term ⟨s ++ NUL :: z, ok, refs⟩ (toLong (-res.1), res.2) := by
  obtain ⟨n, hn⟩ := hterm
  refine ⟨n + 1, ?_⟩
  rw [evalCat, evalTerm_text env n h, not_isNot_cons (by decide)]
  change (evalTerm env n ⟨t ++ NUL :: z, ok, refs⟩).map _ = _
  rw [show evalTerm env n _ = _ from hn]
  rfl

theorem evals_pos (h : skipBlanks s = '+' :: t)
    (hterm : Evals env .term ⟨t ++ NUL :: z, ok, refs⟩ res) :
    Evals env .term ⟨s ++ NUL :: z, ok, refs⟩ res := by
  obtain ⟨n, hn⟩ := hterm
  refine ⟨n + 1, ?_⟩
  rw [evalCat, evalTerm_text env n h, not_isNot_cons (by decide)]
  exact hn

theorem evals_factor (hnot : isNot (skipBlanks s) = false)
    (hsign : ∀ c ∈ (skipBlanks s).head?, c ≠ '+' ∧ c ≠ '-')
    (hfactor : Evals env .factor ⟨s ++ NUL :: z, ok, refs⟩ res) :
    Evals env .term ⟨s ++ NUL :: z, ok, refs⟩ res := by
  obtain ⟨n, hn⟩ := hfactor
  refine ⟨n + 1, ?_⟩
  rw [evalCat, evalTerm_text env n rfl, hnot]
  dsimp only
  rw [peek_text]
  cases hs : skipBlanks s with
  | nil => exact hn
  | cons c t =>
    obtain ⟨hplus, hminus⟩ := hsign c (by simp [hs])
    simp [hplus, hminus]
    exact hn

/-- A term and what goes on behind it, with the same fuel. -/
theorem evals_bind {u : ℤ × Scan} {p : Scan} {f : ℤ → ℤ} (hterm : Evals env .term p u)
    (hmore : Evals env (.more (f u.1)) u.2 res) :
    ∃ n, ((evalTerm env n p).bind fun r => evalMore env n (f r.1) r.2) = some res := by
  obtain ⟨n, hn⟩ := hterm
  obtain ⟨m, hm⟩ := hmore
  have hn' := evalCat_mono (Nat.le_max_left n m) hn
  have hm' := evalCat_mono (Nat.le_max_right n m) hm
  refine ⟨max n m, ?_⟩
  rw [show evalTerm env (max n m) p = _ from hn']
  exact hm'

theorem evals_expr {u : ℤ × Scan} {p : Scan} (hterm : Evals env .term p u)
    (hmore : Evals env (.more u.1) u.2 res) : Evals env .expr p res := by
  obtain ⟨n, hn⟩ := evals_bind (f := id) hterm hmore
  refine ⟨n + 1, ?_⟩
  rw [evalCat, evalExpr]
  exact hn

theorem evals_plus {u : ℤ × Scan} (h : skipBlanks s = '+' :: t)
    (hterm : Evals env .term ⟨t ++ NUL :: z, ok, refs⟩ u)
    (hmore : Evals env (.more (toLong (v + u.1))) u.2 res) :
    Evals env (.more v) ⟨s ++ NUL :: z, ok, refs⟩ res := by
  obtain ⟨n, hn⟩ := evals_bind (f := fun w => toLong (v + w)) hterm hmore
  refine ⟨n + 1, ?_⟩
  dsimp only [evalCat]
  rw [evalMore_text env n v h]
  exact hn

theorem evals_minus {u : ℤ × Scan} (h : skipBlanks s = '-' :: t)
    (hterm : Evals env .term ⟨t ++ NUL :: z, ok, refs⟩ u)
    (hmore : Evals env (.more (toLong (v - u.1))) u.2 res) :
    Evals env (.more v) ⟨s ++ NUL :: z, ok, refs⟩ res := by
  obtain ⟨n, hn⟩ := evals_bind (f := fun w => toLong (v - w)) hterm hmore
  refine ⟨n + 1, ?_⟩
  dsimp only [evalCat]
  rw [evalMore_text env n v h]
  exact hn

/-! ### Derivations -/

/-- A factor starts with no operator. -/
theorem Parses.factor_start (h : Parses env .factor s v r) :
    isNot (skipBlanks s) = false ∧ ∀ c ∈ (skipBlanks s).head?, c ≠ '+' ∧ c ≠ '-' := by
  have hcons {c : Char} {t : List Char} (hs : skipBlanks s = c :: t)
      (hc : c ≠ 'N' ∧ c ≠ '+' ∧ c ≠ '-') :
      isNot (skipBlanks s) = false ∧ ∀ c ∈ (skipBlanks s).head?, c ≠ '+' ∧ c ≠ '-' := by
    rw [hs]
    refine ⟨not_isNot_cons hc.1, fun d hd => ?_⟩
    cases hd
    exact hc.2
  have hdigit (hstart : (skipBlanks s).head?.any Char.isDigit) :
      isNot (skipBlanks s) = false ∧ ∀ c ∈ (skipBlanks s).head?, c ≠ '+' ∧ c ≠ '-' := by
    obtain ⟨d, hd, hdig⟩ := (Option.any_eq_true _ _).mp hstart
    obtain ⟨t, ht⟩ := List.head?_eq_some_iff.mp hd
    refine hcons ht ⟨?_, ?_, ?_⟩
    all_goals
      rintro rfl
      exact absurd hdig (by decide)
  have hname (hstart : (skipBlanks s).head?.any isNameStart) :
      ∀ c ∈ (skipBlanks s).head?, c ≠ '+' ∧ c ≠ '-' := by
    obtain ⟨d, hd, hnam⟩ := (Option.any_eq_true _ _).mp hstart
    intro c hc
    obtain rfl : d = c := Option.some.inj (by rw [← hd, hc])
    refine ⟨?_, ?_⟩
    all_goals
      rintro rfl
      exact absurd hnam (by decide)
  cases h with
  | pc h => exact hcons h (by decide)
  | paren h _ _ => exact hcons h (by decide)
  | literal h _ => exact hcons h (by decide)
  | number _ _ hstart _ => exact hdigit hstart
  | symbol _ _ hstart hnot _ => exact ⟨hnot, hname hstart⟩

/-- A well-formed number in a base is what `strtol` reads. -/
theorem strtol_of_numeral {base : ℕ} {digits : List Char} (hbase : base ≤ 16)
    (h : numeral base digits = some v) : digits ≠ [] ∧
      (∀ c ∈ digits, digitValue c < base) ∧ strtol base digits = v := by
  rw [numeral] at h
  split at h
  · rename_i hand
    obtain ⟨hne, hall, hmax⟩ := hand
    have hall' : ∀ c ∈ digits, digitValue c < base := by simpa using hall
    have hprefix : skipPrefix base digits = digits := by
      refine if_neg fun hand => ?_
      have hx {c : Char} (hc : c ∈ digits.take 2) : digitValue c < 16 :=
        (hall' c (List.mem_of_mem_take hc)).trans_le hbase
      rcases hand.2.1 with htake | htake
      · exact absurd (hx (c := 'x') (by simp [htake])) (by decide)
      · exact absurd (hx (c := 'X') (by simp [htake])) (by decide)
    refine ⟨hne, hall', ?_⟩
    rw [strtol, hprefix, readDigits, List.takeWhile_eq_self_iff.mpr fun c hc => by
      simpa using hall' c hc]
    rw [← Option.some.inj h]
    exact Int.min_eq_left (Int.ofNat_le.mpr hmax)
  · cases h

theorem binary_of_digitValue {c : Char} (h : digitValue c < 2) : c = '0' ∨ c = '1' := by
  unfold digitValue at h
  split at h
  · rename_i hdigit
    have hnumber := toNat_of_isDigit hdigit
    have hcase : c.toNat = 48 ∨ c.toNat = 49 := by omega
    rcases hcase with hc | hc
    · exact Or.inl (Char.toNat_inj.mp hc)
    · exact Or.inr (Char.toNat_inj.mp hc)
  split at h
  · rename_i hletter
    have hupper : ∀ n : Fin 128, (Char.ofNat n).isAlpha = true →
        65 ≤ (Char.ofNat n).toUpper.toNat := by decide
    have hrange := toNat_of_isAlpha hletter
    have hc := hupper ⟨c.toNat, by omega⟩
    rw [Char.ofNat_toNat] at hc
    have := hc hletter
    omega
  · omega

/-- A well-formed number has the value that the evaluator reads. -/
theorem number_of_constant {tok : List Char} (hv : constant tok = some v) :
    number (tok.take 63) = v := by
  rw [constant] at hv
  split at hv
  · cases hv
  rename_i hlen
  rw [List.take_of_length_le (by omega), number]
  have hlong (hne : tok.dropLast ≠ []) : 1 < tok.length := by
    have := List.length_pos_of_ne_nil hne
    rw [List.length_dropLast] at this
    omega
  split at hv
  · rename_i hH
    obtain ⟨hne, -, hstrtol⟩ := strtol_of_numeral (by decide) hv
    rw [if_pos ⟨hlong hne, hH⟩, hstrtol]
  rename_i hH
  rw [if_neg fun hand => hH hand.2]
  split at hv
  · rename_i hB
    obtain ⟨hne, hall, hstrtol⟩ := strtol_of_numeral (by decide) hv
    have hbinary : tok.dropLast.all (fun c => c == '0' || c == '1') = true := by
      rw [List.all_eq_true]
      intro c hc
      simpa using binary_of_digitValue (hall c hc)
    rw [if_pos ⟨hlong hne, hB, hbinary⟩, hstrtol]
  rename_i hB
  rw [if_neg fun hand => hB hand.2.1]
  split at hv
  · rename_i hD
    obtain ⟨hne, -, hstrtol⟩ := strtol_of_numeral (by decide) hv
    rw [if_pos ⟨hlong hne, hD⟩, hstrtol]
  · rename_i hD
    rw [if_neg fun hand => hD hand.2]
    exact (strtol_of_numeral (by decide) hv).2.2

/-- **The evaluator follows every derivation** of the grammar. -/
theorem Parses.follows {cat : Cat} (h : Parses env cat s v r) (z : Ptr) :
    Follows env z cat s v r := by
  induction h with
  | pc h =>
    intro ok refs
    refine ⟨refs, 1, ?_⟩
    rw [evalCat, evalFactor_text env 0 h]
    rfl
  | paren h _ hclose ih =>
    intro ok refs
    obtain ⟨refs', hexpr⟩ := ih ok refs
    have hparen := evals_paren h hexpr (stops_of_cons hclose (by decide) (by decide))
    rw [hclose] at hparen
    exact ⟨refs', hparen⟩
  | literal h hc =>
    intro ok refs
    exact ⟨refs, evals_literal h⟩
  | number h htok hstart hv =>
    intro ok refs
    refine ⟨refs, ?_⟩
    rw [← number_of_constant hv]
    exact evals_number h htok hstart
  | symbol h htok hstart hnot hv =>
    intro ok refs
    have hsymbol := @evals_symbol _ z ok refs env _ _ h htok hstart
    rw [hv] at hsymbol
    exact ⟨_, hsymbol⟩
  | not h _ ih =>
    intro ok refs
    obtain ⟨refs', hterm⟩ := ih ok refs
    exact ⟨refs', evals_not h hterm⟩
  | neg h _ ih =>
    intro ok refs
    obtain ⟨refs', hterm⟩ := ih ok refs
    exact ⟨refs', evals_neg h hterm⟩
  | pos h _ ih =>
    intro ok refs
    obtain ⟨refs', hterm⟩ := ih ok refs
    exact ⟨refs', evals_pos h hterm⟩
  | factor hfactor ih =>
    intro ok refs
    obtain ⟨refs', hterm⟩ := ih ok refs
    exact ⟨refs', evals_factor hfactor.factor_start.1 hfactor.factor_start.2 hterm⟩
  | expr _ _ ih ih' =>
    intro ok refs
    obtain ⟨refs', hterm⟩ := ih ok refs
    obtain ⟨refs'', hmore⟩ := ih' ok refs'
    exact ⟨refs'', fun res hres => evals_expr hterm (hmore res hres)⟩
  | done =>
    intro ok refs
    exact ⟨refs, fun res hres => hres⟩
  | plus h _ _ ih ih' =>
    intro ok refs
    obtain ⟨refs', hterm⟩ := ih ok refs
    obtain ⟨refs'', hmore⟩ := ih' ok refs'
    exact ⟨refs'', fun res hres => evals_plus h hterm (hmore res hres)⟩
  | minus h _ _ ih ih' =>
    intro ok refs
    obtain ⟨refs', hterm⟩ := ih ok refs
    obtain ⟨refs'', hmore⟩ := ih' ok refs'
    exact ⟨refs'', fun res hres => evals_minus h hterm (hmore res hres)⟩

/-! ## Flaws -/

/-- What can be wrong with an operand. -/
inductive Flaw
  /-- no factor where there has to be one -/
  | missing
  /-- a symbol without a value -/
  | undefined
  /-- a parenthesis that is not closed -/
  | unclosed
  /-- a character literal that is not closed, or is a quote -/
  | literal
  /-- a constant that is no number -/
  | constant
  /-- a text behind the expression -/
  | trailing
  /-- a quote that is the last character -/
  | bareQuote
deriving DecidableEq

/-- The flaws that the evaluator reports. -/
def Flaw.reported : Flaw → Bool
  | .missing | .undefined => true
  | _ => false

/-- What stands at the place of a term, and what is behind it. -/
inductive Head
  /-- a sign, or NOT -/
  | operator (rest : List Char)
  | paren (rest : List Char)
  | factor (flaw : Option Flaw) (rest : List Char)
  | bareQuote

/-- A character literal, behind the quote that opens it. -/
def literalHead : List Char → Head
  | [] => .bareQuote
  | c :: r => .factor (if c ≠ QUOTE ∧ r.head? = some QUOTE then none else some .literal)
      (if r.head? = some QUOTE then r.tail else r)

/-- The head of a text that does not start with a blank. -/
def headOf (syms : Symbols) (s : List Char) : Head :=
  if isNot s then .operator (s.drop 3)
  else match s with
    | [] => .factor (some .missing) []
    | c :: t =>
      if c = '+' ∨ c = '-' then .operator t
      else if c = '$' then .factor none t
      else if c = '(' then .paren t
      else if c = QUOTE then literalHead t
      else if c.isDigit then
        .factor (if (constant (s.takeWhile Char.isAlphanum)).isNone then some .constant else none)
          (s.dropWhile Char.isAlphanum)
      else if isNameStart c then
        .factor (if (syms.find (((s.takeWhile isNameChar).take 31).map Char.toUpper)).isNone then
          some .undefined else none) (s.dropWhile isNameChar)
      else .factor (some .missing) s

/-- What is behind a head, from `n` characters. -/
def Head.Within (n : ℕ) : Head → Prop
  | .operator t | .paren t => t.length < n
  | .factor _ t => t.length ≤ n
  | .bareQuote => True

theorem headOf_within (syms : Symbols) (s : List Char) : (headOf syms s).Within s.length := by
  unfold headOf
  split
  · rename_i hnot
    have hthree := three_le_of_isNot hnot
    simp only [Head.Within, List.length_drop]
    omega
  cases s with
  | nil => exact Nat.le_refl 0
  | cons c t =>
    have hcons : t.length < (c :: t).length := Nat.lt_succ_self _
    dsimp only
    split
    · exact hcons
    split
    · exact hcons.le
    split
    · exact hcons
    split
    · cases t with
      | nil => trivial
      | cons d r =>
        have hrest : (if r.head? = some QUOTE then r.tail else r).length ≤ r.length := by
          split
          · exact (List.tail_suffix r).length_le
          · exact Nat.le_refl _
        simp only [literalHead, Head.Within, List.length_cons]
        omega
    split
    · exact (List.dropWhile_suffix _).length_le
    split
    · exact (List.dropWhile_suffix _).length_le
    · exact Nat.le_refl _

mutual

/-- **The flaws of a text** at the place of a term, with `depth` parentheses open. -/
def flaws (syms : Symbols) (depth : ℕ) (s : List Char) : List Flaw :=
  match h : headOf syms (skipBlanks s) with
  | .operator t => flaws syms depth t
  | .paren t => flaws syms (depth + 1) t
  | .factor flaw t => flaw.toList ++ flawsBehind syms depth t
  | .bareQuote => [.bareQuote]
termination_by 2 * s.length + 1
decreasing_by
  all_goals
    have hhead := headOf_within syms (skipBlanks s)
    have hblanks := (skipBlanks_suffix s).length_le
    rw [h, Head.Within] at hhead
    omega

/-- The flaws of a text behind a term. -/
def flawsBehind (syms : Symbols) (depth : ℕ) (s : List Char) : List Flaw :=
  match h : skipBlanks s with
  | [] => List.replicate depth .unclosed
  | c :: t =>
    if c = '+' ∨ c = '-' then flaws syms depth t
    else if c = ')' ∧ 0 < depth then flawsBehind syms (depth - 1) t
    else List.replicate depth .unclosed ++ [.trailing]
termination_by 2 * s.length
decreasing_by
  all_goals
    have hblanks := (skipBlanks_suffix s).length_le
    rw [h, List.length_cons] at hblanks
    omega

end

/-- The flaws of a text at the place of a category. -/
def flawsAt (syms : Symbols) (depth : ℕ) : Cat → List Char → List Flaw
  | .more _ => flawsBehind syms depth
  | _ => flaws syms depth

section Flaws

variable {syms : Symbols} {d : ℕ}

theorem flaws_operator (h : headOf syms (skipBlanks s) = .operator t) :
    flaws syms d s = flaws syms d t := by
  rw [flaws]
  split
  all_goals simp_all

theorem flaws_paren (h : headOf syms (skipBlanks s) = .paren t) :
    flaws syms d s = flaws syms (d + 1) t := by
  rw [flaws]
  split
  all_goals simp_all

theorem flaws_factor {flaw : Option Flaw} (h : headOf syms (skipBlanks s) = .factor flaw t) :
    flaws syms d s = flaw.toList ++ flawsBehind syms d t := by
  rw [flaws]
  split
  all_goals simp_all

theorem flaws_bareQuote (h : headOf syms (skipBlanks s) = .bareQuote) :
    flaws syms d s = [.bareQuote] := by
  rw [flaws]
  split
  all_goals simp_all

theorem flawsBehind_nil (h : skipBlanks s = []) :
    flawsBehind syms d s = List.replicate d .unclosed := by
  rw [flawsBehind]
  split
  all_goals simp_all

theorem flawsBehind_cons {c : Char} (h : skipBlanks s = c :: t) : flawsBehind syms d s =
    if c = '+' ∨ c = '-' then flaws syms d t
    else if c = ')' ∧ 0 < d then flawsBehind syms (d - 1) t
    else List.replicate d .unclosed ++ [.trailing] := by
  rw [flawsBehind]
  split
  all_goals simp_all

theorem flawsBehind_skip (s : List Char) :
    flawsBehind syms d (skipBlanks s) = flawsBehind syms d s := by
  cases hs : skipBlanks s with
  | nil => rw [flawsBehind_nil hs, flawsBehind_nil rfl]
  | cons c t => rw [flawsBehind_cons hs, flawsBehind_cons (hs ▸ skipBlanks_idem s)]

/-- A closing parenthesis. -/
theorem flawsBehind_close (h : skipBlanks s = ')' :: t) :
    flawsBehind syms (d + 1) s = flawsBehind syms d t := by
  rw [flawsBehind_cons h, if_neg (by decide), if_pos ⟨rfl, Nat.succ_pos d⟩, Nat.add_sub_cancel]

/-- Where no operator and no parenthesis goes on, all that are open stay so. -/
theorem flawsBehind_unclosed (hstop : Stops s) (hclose : (skipBlanks s).head? ≠ some ')') :
    flawsBehind syms (d + 1) s = .unclosed :: flawsBehind syms d s := by
  cases hs : skipBlanks s with
  | nil => rw [flawsBehind_nil hs, flawsBehind_nil hs, List.replicate_succ]
  | cons c t =>
    obtain ⟨hplus, hminus⟩ := hstop c (by simp [hs])
    have hc : c ≠ ')' := fun h => hclose (by simp [hs, h])
    rw [flawsBehind_cons hs, flawsBehind_cons hs]
    simp [hplus, hminus, hc, List.replicate_succ]

theorem headOf_of_isNot (h : isNot s = true) : headOf syms s = .operator (s.drop 3) := if_pos h

theorem headOf_cons {c : Char} (hnot : isNot (c :: t) = false) : headOf syms (c :: t) =
    if c = '+' ∨ c = '-' then .operator t
    else if c = '$' then .factor none t
    else if c = '(' then .paren t
    else if c = QUOTE then literalHead t
    else if c.isDigit then
      .factor (if (constant ((c :: t).takeWhile Char.isAlphanum)).isNone then some .constant
        else none) ((c :: t).dropWhile Char.isAlphanum)
    else if isNameStart c then
      .factor (if (syms.find ((((c :: t).takeWhile isNameChar).take 31).map Char.toUpper)).isNone
        then some .undefined else none) ((c :: t).dropWhile isNameChar)
    else .factor (some .missing) (c :: t) := by
  rw [headOf, hnot, if_neg Bool.false_ne_true]

theorem headOf_sign {c : Char} (hc : c = '+' ∨ c = '-') :
    headOf syms (c :: t) = .operator t := by
  rcases hc with rfl | rfl
  · rw [headOf_cons (not_isNot_cons (by decide)), if_pos (Or.inl rfl)]
  · rw [headOf_cons (not_isNot_cons (by decide)), if_pos (Or.inr rfl)]

theorem headOf_pc : headOf syms ('$' :: t) = .factor none t := by
  rw [headOf_cons (not_isNot_cons (by decide))]
  rfl

theorem headOf_open : headOf syms ('(' :: t) = .paren t := by
  rw [headOf_cons (not_isNot_cons (by decide))]
  rfl

theorem headOf_quote : headOf syms (QUOTE :: t) = literalHead t := by
  rw [headOf_cons (not_isNot_cons (by decide))]
  rfl

theorem headOf_number (h : s.head?.any Char.isDigit) : headOf syms s =
    .factor (if (constant (s.takeWhile Char.isAlphanum)).isNone then some .constant else none)
      (s.dropWhile Char.isAlphanum) := by
  obtain ⟨c, hc, hdigit⟩ := (Option.any_eq_true _ _).mp h
  obtain ⟨t, rfl⟩ := List.head?_eq_some_iff.mp hc
  have hne {e : Char} (he : e.isDigit = false) : c ≠ e := by
    rintro rfl
    exact absurd hdigit (by simp [he])
  rw [headOf_cons (not_isNot_cons (hne (by decide))),
    if_neg (not_or.mpr ⟨hne (by decide), hne (by decide)⟩), if_neg (hne (by decide)),
    if_neg (hne (by decide)), if_neg (hne (by decide)), if_pos hdigit]

theorem headOf_name (h : s.head?.any isNameStart) (hnot : isNot s = false) : headOf syms s =
    .factor (if (syms.find (((s.takeWhile isNameChar).take 31).map Char.toUpper)).isNone then
      some .undefined else none) (s.dropWhile isNameChar) := by
  obtain ⟨c, hc, hname⟩ := (Option.any_eq_true _ _).mp h
  obtain ⟨t, rfl⟩ := List.head?_eq_some_iff.mp hc
  have hne {e : Char} (he : isNameStart e = false) : c ≠ e := by
    rintro rfl
    exact absurd hname (by simp [he])
  rw [headOf_cons hnot, if_neg (not_or.mpr ⟨hne (by decide), hne (by decide)⟩),
    if_neg (hne (by decide)), if_neg (hne (by decide)), if_neg (hne (by decide)),
    if_neg (by simp [not_isDigit_of_isNameStart hname]), if_pos hname]

theorem headOf_nothing (h : s.head?.all (!startsFactor ·)) :
    headOf syms s = .factor (some .missing) s := by
  cases s with
  | nil => rfl
  | cons c t =>
    have hc : startsFactor c = false := by simpa using h
    have hne {e : Char} (he : startsFactor e = true) : c ≠ e := by
      rintro rfl
      exact absurd hc (by simp [he])
    rw [headOf_cons (not_isNot_cons (hne (by decide))),
      if_neg (not_or.mpr ⟨hne (by decide), hne (by decide)⟩), if_neg (hne (by decide)),
      if_neg (hne (by decide)), if_neg (hne (by decide))]
    simp only [startsFactor, Bool.or_eq_false_iff] at hc
    simp [hc]

end Flaws

/-! ## Every run, against the flaws of its text -/

/-- The evaluator goes from `s` to `r`, and `fs` are the flaws on the way. -/
structure Reads (env : Env) (d : ℕ) (cat : Cat) (s : List Char) (ok : Bool) (res : ℤ × Scan)
    (fs : List Flaw) (r : List Char) : Prop where
  flaws : flawsAt env.syms d cat s = fs ++ flawsBehind env.syms d r
  within : .bareQuote ∉ fs
  ok : res.2.ok = (ok && fs.all (!·.reported))
  parses : fs = [] → Parses env cat s res.1 r

/-- The evaluator reads on behind the NUL, and this is a flaw of the text. -/
structure Leaves (env : Env) (z : Ptr) (d : ℕ) (cat : Cat) (s : List Char) (res : ℤ × Scan) :
    Prop where
  bareQuote : .bareQuote ∈ flawsAt env.syms d cat s
  beyond : res.2.ep.length ≤ z.length

/-- The evaluator goes on to a rest of the text, or leaves it. -/
def GoesOn (env : Env) (z : Ptr) (d : ℕ) (cat : Cat) (s : List Char) (ok : Bool)
    (res : ℤ × Scan) : Prop :=
  Leaves env z d cat s res ∨ ∃ fs r, res.2.ep = r ++ NUL :: z ∧ Reads env d cat s ok res fs r

/-- The same for what ends with blanks, where no operator goes on. -/
def Ends (env : Env) (z : Ptr) (d : ℕ) (cat : Cat) (s : List Char) (ok : Bool)
    (res : ℤ × Scan) : Prop :=
  Leaves env z d cat s res ∨ ∃ fs r, res.2.ep = skipBlanks r ++ NUL :: z ∧ Stops r ∧
    Reads env d cat s ok res fs r

section Runs

variable {d : ℕ} {cat cat' : Cat} {u : ℤ × Scan}

/-- A factor that is no parenthesised expression has at most one flaw. -/
theorem goesOn_head {flaw : Option Flaw} (h : headOf env.syms (skipBlanks s) = .factor flaw t)
    (hne : flaw ≠ some .bareQuote) (hep : res.2.ep = t ++ NUL :: z)
    (hok : res.2.ok = (ok && flaw.all (!·.reported)))
    (hparses : flaw = none → Parses env .factor s res.1 t) : GoesOn env z d .factor s ok res := by
  refine Or.inr ⟨flaw.toList, t, hep, flaws_factor h, ?_, ?_, ?_⟩
  · intro hmem
    exact hne (Option.mem_toList.mp hmem)
  · rw [hok]
    cases flaw with
    | none => rfl
    | some f => rw [Option.toList_some, List.all_cons, List.all_nil, Bool.and_true, Option.all_some]
  · intro hnil
    cases flaw with
    | none => exact hparses rfl
    | some f => exact absurd hnil (List.cons_ne_nil _ _)

/-- Something in front, without a flaw of its own. -/
theorem GoesOn.prepend (h : GoesOn env z d cat t ok u)
    (hflaws : flawsAt env.syms d cat' s = flawsAt env.syms d cat t) (hres : res.2 = u.2)
    (hparses : ∀ r, Parses env cat t u.1 r → Parses env cat' s res.1 r) :
    GoesOn env z d cat' s ok res := by
  rcases h with hleave | ⟨fs, r, hep, hread⟩
  · exact Or.inl ⟨hflaws ▸ hleave.bareQuote, hres ▸ hleave.beyond⟩
  · exact Or.inr ⟨fs, r, hres ▸ hep, hflaws ▸ hread.flaws, hread.within, hres ▸ hread.ok,
      fun hnil => hparses r (hread.parses hnil)⟩

/-- A term, and what goes on behind it. -/
theorem GoesOn.more {w : ℤ} (hterm : GoesOn env z d .term t ok u)
    (hmore : ∀ r, u.2.ep = r ++ NUL :: z → Ends env z d (.more w) r u.2.ok res)
    (hflaws : flawsAt env.syms d cat s = flawsAt env.syms d .term t)
    (hle : res.2.ep.length ≤ u.2.ep.length)
    (hparses : ∀ r r', Parses env .term t u.1 r → Parses env (.more w) r res.1 r' →
      Parses env cat s res.1 r') : Ends env z d cat s ok res := by
  rcases hterm with hleave | ⟨fs, r, hep, hread⟩
  · exact Or.inl ⟨hflaws ▸ hleave.bareQuote, hle.trans hleave.beyond⟩
  have hfirst : flawsAt env.syms d cat s = fs ++ flawsBehind env.syms d r := by
    rw [hflaws, hread.flaws]
  rcases hmore r hep with hleave | ⟨fs', r', hep', hstop, hread'⟩
  · refine Or.inl ⟨?_, hleave.beyond⟩
    rw [hfirst]
    exact List.mem_append_right _ hleave.bareQuote
  · refine Or.inr ⟨fs ++ fs', r', hep', hstop, ?_, ?_, ?_, ?_⟩
    · rw [hfirst, List.append_assoc]
      exact congrArg (fs ++ ·) hread'.flaws
    · rw [List.mem_append]
      exact not_or.mpr ⟨hread.within, hread'.within⟩
    · rw [hread'.ok, hread.ok, List.all_append, Bool.and_assoc]
    · intro hnil
      obtain ⟨hnil, hnil'⟩ := List.append_eq_nil_iff.mp hnil
      exact hparses r r' (hread.parses hnil) (hread'.parses hnil')

/-- A parenthesis, closed or not. -/
theorem Ends.paren (hs : skipBlanks s = '(' :: t) (h : Ends env z (d + 1) .expr t ok u) :
    GoesOn env z d .factor s ok
      (u.1, if u.2.skip.peek = ')' then u.2.skip.drop 1 else u.2.skip) := by
  have hlen := moves_length env
  have hflaws : flawsAt env.syms d .factor s = flawsAt env.syms (d + 1) .expr t :=
    flaws_paren (hs ▸ headOf_open)
  rcases h with hleave | ⟨fs, r, hep, hstop, hread⟩
  · exact Or.inl ⟨hflaws ▸ hleave.bareQuote,
      ((hlen.dropIf _ _).trans (hlen.skip _)).trans hleave.beyond⟩
  obtain ⟨v, p, ok', refs'⟩ := u
  dsimp only at hep hread ⊢
  subst hep
  rw [skip_append, skipBlanks_idem, peek_text]
  by_cases hclose : (skipBlanks r).head? = some ')'
  · obtain ⟨r', hr⟩ := List.head?_eq_some_iff.mp hclose
    rw [hr]
    refine Or.inr ⟨fs, r', rfl, ?_, hread.within, hread.ok, fun hnil =>
      .paren hs (hread.parses hnil) hr⟩
    rw [hflaws, hread.flaws, flawsBehind_close hr]
  · have hif : ((skipBlanks r).head?.getD NUL = ')') = False := by
      cases hr : (skipBlanks r).head? with
      | none => exact eq_false (by decide)
      | some c =>
        rw [hr] at hclose
        exact eq_false fun hc => hclose (congrArg some hc)
    simp only [hif, if_false]
    refine Or.inr ⟨fs ++ [.unclosed], skipBlanks r, rfl, ?_, ?_, ?_, ?_⟩
    · rw [hflaws, hread.flaws, flawsBehind_unclosed hstop hclose, flawsBehind_skip,
        List.append_assoc, List.singleton_append]
    · rw [List.mem_append]
      exact not_or.mpr ⟨hread.within, by decide⟩
    · rw [hread.ok, List.all_append]
      simp [Flaw.reported]
    · intro hnil
      exact absurd hnil (List.append_ne_nil_of_right_ne_nil _ (List.cons_ne_nil _ _))

/-- A factor that is no parenthesised expression. -/
theorem goesOn_factor (hnot : isNot (skipBlanks s) = false) (hstops : Stops s)
    (hparen : (skipBlanks s).head? ≠ some '(')
    (hres : Evals env .factor ⟨s ++ NUL :: z, ok, refs⟩ res) : GoesOn env z d .factor s ok res := by
  have hlen := moves_length env
  by_cases hdigit : (skipBlanks s).head?.any Char.isDigit
  · have hsplit := (@List.takeWhile_append_dropWhile _ Char.isAlphanum (skipBlanks s)).symm
    rw [hres.unique (evals_number hsplit rfl hdigit)]
    refine goesOn_head (headOf_number hdigit) (by split <;> decide) rfl ?_ fun hnone => ?_
    · split
      all_goals simp [Flaw.reported]
    · cases hv : constant ((skipBlanks s).takeWhile Char.isAlphanum) with
      | none =>
        rw [hv] at hnone
        cases hnone
      | some v =>
        dsimp only
        rw [number_of_constant hv]
        exact .number hsplit rfl hdigit hv
  by_cases hname : (skipBlanks s).head?.any isNameStart
  · have hsplit := (@List.takeWhile_append_dropWhile _ isNameChar (skipBlanks s)).symm
    rw [hres.unique (evals_symbol hsplit rfl hname)]
    refine goesOn_head (headOf_name hname hnot) (by split <;> decide) ?_ ?_ fun hnone => ?_
    · split
      all_goals rfl
    · cases hv : env.syms.find
          ((((skipBlanks s).takeWhile isNameChar).take 31).map Char.toUpper) with
      | none => simp [Flaw.reported]
      | some v => simp
    · cases hv : env.syms.find
          ((((skipBlanks s).takeWhile isNameChar).take 31).map Char.toUpper) with
      | none =>
        rw [hv] at hnone
        cases hnone
      | some v => exact .symbol hsplit rfl hname hnot hv
  cases hs : skipBlanks s with
  | nil =>
    have hnothing : (skipBlanks s).head?.all (!startsFactor ·) := by rw [hs]; rfl
    rw [hres.unique (evals_nothing hnothing)]
    refine goesOn_head (headOf_nothing hnothing) (by decide) rfl ?_ nofun
    simp [Flaw.reported]
  | cons c t =>
    by_cases hpc : c = '$'
    · subst hpc
      obtain ⟨refs', hpc⟩ := (@Parses.pc env s t hs).follows z ok refs
      have hhead : headOf env.syms (skipBlanks s) = .factor none t := hs ▸ headOf_pc
      rw [hres.unique hpc]
      exact goesOn_head hhead nofun rfl (Bool.and_true ok).symm fun _ => .pc hs
    by_cases hquote : c = QUOTE
    · subst hquote
      cases t with
      | nil =>
        have hbare : headOf env.syms (skipBlanks s) = .bareQuote := hs ▸ headOf_quote
        have hfactor : Evals env .factor ⟨s ++ NUL :: z, ok, refs⟩ (0,
            if (Scan.mk z ok refs).peek = QUOTE then (Scan.mk z ok refs).drop 1
            else ⟨z, ok, refs⟩) := by
          refine ⟨1, ?_⟩
          rw [evalCat, evalFactor_text env 0 hs]
          rfl
        rw [hres.unique hfactor]
        refine Or.inl ⟨?_, hlen.dropIf _ ⟨z, ok, refs⟩⟩
        rw [show flawsAt env.syms d .factor s = [.bareQuote] from flaws_bareQuote hbare]
        exact List.mem_singleton_self _
      | cons e t =>
        have hhead : headOf env.syms (skipBlanks s) = literalHead (e :: t) := hs ▸ headOf_quote
        rw [hres.unique (evals_literal hs)]
        by_cases hliteral : e ≠ QUOTE ∧ t.head? = some QUOTE
        · rw [literalHead, if_pos hliteral] at hhead
          refine goesOn_head hhead nofun rfl (Bool.and_true ok).symm fun _ => ?_
          obtain ⟨t', rfl⟩ := List.head?_eq_some_iff.mp hliteral.2
          exact .literal hs hliteral.1
        · rw [literalHead, if_neg hliteral] at hhead
          exact goesOn_head hhead (by decide) rfl (Bool.and_true ok).symm nofun
    · have hsign := hstops c (by simp [hs])
      have hne : c ≠ '(' := fun h => hparen (by simp [hs, h])
      have hnothing : (skipBlanks s).head?.all (!startsFactor ·) := by
        rw [hs] at hdigit hname ⊢
        simp only [List.head?_cons, Option.any_some] at hdigit hname
        simp [startsFactor, hpc, hne, hquote, hdigit, hname, hsign]
      rw [hres.unique (evals_nothing hnothing)]
      refine goesOn_head (headOf_nothing hnothing) (by decide) rfl ?_ nofun
      simp [Flaw.reported]

end Runs

/-- **Every run goes along the flaws of its text.** Where it reports one it is not in order, where
it finds none it is a derivation, and it leaves the text exactly where a quote is at its end. -/
theorem reads (env : Env) (z : Ptr) (n : ℕ) :
    (∀ d s ok refs res, isNot (skipBlanks s) = false → Stops s →
      evalFactor env n ⟨s ++ NUL :: z, ok, refs⟩ = some res → GoesOn env z d .factor s ok res) ∧
    (∀ d s ok refs res, evalTerm env n ⟨s ++ NUL :: z, ok, refs⟩ = some res →
      GoesOn env z d .term s ok res) ∧
    (∀ d v s ok refs res, evalMore env n v ⟨s ++ NUL :: z, ok, refs⟩ = some res →
      Ends env z d (.more v) s ok res) ∧
    (∀ d s ok refs res, evalExpr env n ⟨s ++ NUL :: z, ok, refs⟩ = some res →
      Ends env z d .expr s ok res) := by
  induction n with
  | zero => exact ⟨nofun, nofun, nofun, nofun⟩
  | succ n ih =>
    obtain ⟨hfactor, hterm, hmore, hexpr⟩ := ih
    have hlen := (moves_length env).eval n
    have hoperator {d : ℕ} {s t : List Char} {c : Char} (hs : skipBlanks s = c :: t)
        (hc : c = '+' ∨ c = '-') : flawsAt env.syms d .term s = flawsAt env.syms d .term t :=
      flaws_operator (hs ▸ headOf_sign hc)
    have hbehind {d : ℕ} {v : ℤ} {s t : List Char} {c : Char} (hs : skipBlanks s = c :: t)
        (hc : c = '+' ∨ c = '-') : flawsAt env.syms d (.more v) s = flawsAt env.syms d .term t :=
      (flawsBehind_cons hs).trans (if_pos hc)
    have hend {d : ℕ} {v : ℤ} {s : List Char} {ok : Bool} {refs : List Name} (hstop : Stops s) :
        Ends env z d (.more v) s ok (v, ⟨skipBlanks s ++ NUL :: z, ok, refs⟩) :=
      Or.inr ⟨[], s, rfl, hstop, rfl, List.not_mem_nil, (Bool.and_true ok).symm, fun _ => .done⟩
    refine ⟨?_, ?_, ?_, ?_⟩
    · intro d s ok refs res hnot hstops hres
      by_cases hparen : (skipBlanks s).head? = some '('
      · obtain ⟨t, hs⟩ := List.head?_eq_some_iff.mp hparen
        rw [evalFactor_text env n hs] at hres
        change (evalExpr env n ⟨t ++ NUL :: z, ok, refs⟩).map _ = _ at hres
        obtain ⟨u, hu, rfl⟩ := Option.map_eq_some_iff.mp hres
        exact (hexpr (d + 1) t ok refs u hu).paren hs
      · exact goesOn_factor hnot hstops hparen ⟨n + 1, hres⟩
    · intro d s ok refs res hres
      rw [evalTerm_text env n rfl] at hres
      dsimp only at hres
      split at hres
      · rename_i hnot
        obtain ⟨u, hu, rfl⟩ := Option.map_eq_some_iff.mp hres
        exact (hterm d _ ok refs u hu).prepend (flaws_operator (headOf_of_isNot hnot)) rfl
          fun r => .not hnot
      rename_i hnot
      cases hs : skipBlanks s with
      | nil =>
        rw [hs] at hres
        replace hres : evalFactor env n ⟨s ++ NUL :: z, ok, refs⟩ = some res := hres
        exact (hfactor d s ok refs res (by rw [hs]; rfl) (stops_of_nil hs) hres).prepend rfl rfl
          fun r => .factor
      | cons c t =>
        rw [hs] at hres
        by_cases hminus : c = '-'
        · subst hminus
          change (evalTerm env n ⟨t ++ NUL :: z, ok, refs⟩).map _ = _ at hres
          obtain ⟨u, hu, rfl⟩ := Option.map_eq_some_iff.mp hres
          exact (hterm d t ok refs u hu).prepend (hoperator hs (Or.inr rfl)) rfl fun r => .neg hs
        by_cases hplus : c = '+'
        · subst hplus
          change evalTerm env n ⟨t ++ NUL :: z, ok, refs⟩ = _ at hres
          exact (hterm d t ok refs res hres).prepend (hoperator hs (Or.inl rfl)) rfl
            fun r => .pos hs
        · rw [peek_text, List.head?_cons, Option.getD_some, if_neg hminus, if_neg hplus] at hres
          have hstops := stops_of_cons hs hplus hminus
          exact (hfactor d s ok refs res (Bool.eq_false_iff.mpr hnot) hstops hres).prepend rfl rfl
            fun r => .factor
    · intro d v s ok refs res hres
      rw [evalMore_text env n v rfl] at hres
      dsimp only at hres
      cases hs : skipBlanks s with
      | nil =>
        rw [hs] at hres
        cases hres
        have hnil : Ends env z d (.more v) s ok (v, ⟨skipBlanks s ++ NUL :: z, ok, refs⟩) :=
          hend (stops_of_nil hs)
        rw [hs] at hnil
        exact hnil
      | cons c t =>
        rw [hs] at hres
        by_cases hplus : c = '+'
        · subst hplus
          change (evalTerm env n ⟨t ++ NUL :: z, ok, refs⟩).bind _ = _ at hres
          obtain ⟨⟨w, p, ok', refs'⟩, hu, hres⟩ := Option.bind_eq_some_iff.mp hres
          refine (hterm d t ok refs _ hu).more (fun r hep => ?_) (hbehind hs (Or.inl rfl))
            (hlen.2.2.1 _ _ _ hres) fun r r' => .plus hs
          dsimp only at hep
          subst hep
          exact hmore d _ r ok' refs' res hres
        by_cases hminus : c = '-'
        · subst hminus
          change (evalTerm env n ⟨t ++ NUL :: z, ok, refs⟩).bind _ = _ at hres
          obtain ⟨⟨w, p, ok', refs'⟩, hu, hres⟩ := Option.bind_eq_some_iff.mp hres
          refine (hterm d t ok refs _ hu).more (fun r hep => ?_) (hbehind hs (Or.inr rfl))
            (hlen.2.2.1 _ _ _ hres) fun r r' => .minus hs
          dsimp only at hep
          subst hep
          exact hmore d _ r ok' refs' res hres
        · rw [peek_text, List.head?_cons, Option.getD_some, if_neg hplus, if_neg hminus] at hres
          cases hres
          have hcons : Ends env z d (.more v) s ok (v, ⟨skipBlanks s ++ NUL :: z, ok, refs⟩) :=
            hend (stops_of_cons hs hplus hminus)
          rw [hs] at hcons
          exact hcons
    · intro d s ok refs res hres
      rw [evalExpr] at hres
      obtain ⟨⟨v, p, ok', refs'⟩, hu, hres⟩ := Option.bind_eq_some_iff.mp hres
      refine (hterm d s ok refs _ hu).more (fun r hep => ?_) rfl (hlen.2.2.1 _ _ _ hres)
        fun r r' => .expr
      dsimp only at hep
      subst hep
      exact hmore d v r ok' refs' res hres

/-! ## Operands -/

/-- **What derives from the grammar** is evaluated to its value, and to its end. -/
theorem Derives.evaluate (h : Derives env s v) (z : Ptr) :
    ∃ refs, evaluate env (s ++ NUL :: z) = (v, ⟨NUL :: z, true, refs⟩) := by
  obtain ⟨r, hr, hend⟩ := h
  obtain ⟨refs, hexpr⟩ := hr.follows z true []
  have hstop := @evals_stop z true refs env r v (stops_of_nil hend)
  rw [hend] at hstop
  exact ⟨refs, (evals_evaluate env _).unique (hexpr _ hstop)⟩

example : flaws [] 0 "NOT (5X + 'A".toList = [.constant, .literal, .unclosed] := by
  decide +kernel

end Umk80
