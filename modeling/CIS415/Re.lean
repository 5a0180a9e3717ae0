import CIS415.Lib.CString

/-!
# The matching engine: re.c

`regcomp` and `regexec` are the library's. A call of `regexec` that succeeds fills the array of offsets it
is given: entry 0 for the whole match, entry `i` for the `i`-th parenthesised group, with `rm_so` -1 for a
group that took no part in the match. `re_match` copies the entries up to the first -1 only.
-/

namespace CIS415.Re

def npatterns : ℕ := 50

structure RegMatch where
  rm_so : ℤ
  rm_eo : ℤ
deriving DecidableEq

/-- What re.c uses of the library. `regcomp` gives its error code, 0 for none, and `regexec` its result
with the array of `NPATTERNS` offsets. -/
structure Library (P : Type) where
  regcomp : CString → ℤ × P
  re_nsub : P → ℕ
  regexec : P → CString → ℤ × List RegMatch
  length_regexec : ∀ preg buf, (regexec preg buf).2.length = npatterns

structure RegExpMatch where
  re_sindex : ℤ
  re_eindex : ℤ
deriving DecidableEq

inductive Status where
  | allocated
  | compiled
deriving DecidableEq

structure RegExp (P : Type) where
  preg : P
  status : Status
  compSts : ℤ
  execSts : ℤ
  nMatch : ℕ
  pMatch : List RegExpMatch
  length_pMatch : pMatch.length = npatterns

variable {P : Type} (lib : Library P)

/-- `re_create` when the allocation succeeds; the other fields are not initialized. -/
def reCreate (re : RegExp P) : RegExp P :=
  { re with status := .allocated, compSts := 0, nMatch := 0 }

def reCompile (re : RegExp P) (pattern : CString) : ℤ × RegExp P :=
  let (compSts, preg) := lib.regcomp pattern
  let status := if compSts = 0 then .compiled else .allocated
  (if compSts = 0 then 1 else 0, { re with preg, status, compSts, execSts := 0 })

/-- The loop that looks for the first -1. -/
def countMatched : List RegMatch → ℕ
  | [] => 0
  | m :: pmatch => if m.rm_so = -1 then 0 else countMatched pmatch + 1

def copyMatched : ℕ → List RegMatch → List RegExpMatch → List RegExpMatch
  | n + 1, m :: pmatch, _ :: pMatch => ⟨m.rm_so, m.rm_eo⟩ :: copyMatched n pmatch pMatch
  | _, _, pMatch => pMatch

theorem length_copyMatched (n : ℕ) (pmatch : List RegMatch) (pMatch : List RegExpMatch) :
    (copyMatched n pmatch pMatch).length = pMatch.length := by
  induction n generalizing pmatch pMatch with
  | zero => cases pmatch <;> rfl
  | succ n ih =>
    cases pmatch with
    | nil => rfl
    | cons m pmatch =>
      cases pMatch with
      | nil => rfl
      | cons old pMatch => exact congrArg (· + 1) (ih pmatch pMatch)

def reMatch (re : RegExp P) (buf : CString) : ℤ × RegExp P :=
  if re.status = .compiled then
    let (execSts, pmatch) := lib.regexec re.preg buf
    if execSts ≠ 0 then (0, { re with execSts })
    else
      (1, { re with
        execSts
        nMatch := countMatched pmatch
        pMatch := copyMatched (countMatched pmatch) pmatch re.pMatch
        length_pMatch := (length_copyMatched _ _ _).trans re.length_pMatch })
  else (0, re)

def reRegmatch (re : RegExp P) : ℕ × List RegExpMatch :=
  (re.nMatch, re.pMatch)

inductive Call where
  | compile (pattern : CString)
  | exec (buf : CString)

/-- The engine after a call of `re_compile` or `re_match`. -/
def step (re : RegExp P) : Call → RegExp P
  | .compile pattern => (reCompile lib re pattern).2
  | .exec buf => (reMatch lib re buf).2

def run (re : RegExp P) (calls : List Call) : RegExp P :=
  calls.foldl (step lib) re

def patternAfter (compiled : Option CString) : Call → Option CString
  | .compile pattern => if (lib.regcomp pattern).1 = 0 then some pattern else none
  | .exec _ => compiled

def Holds (re : RegExp P) : Option CString → Prop
  | none => re.status = .allocated
  | some pattern => re.status = .compiled ∧ re.preg = (lib.regcomp pattern).2

theorem reMatch_keeps (re : RegExp P) (buf : CString) :
    (reMatch lib re buf).2.status = re.status ∧ (reMatch lib re buf).2.preg = re.preg := by
  unfold reMatch
  by_cases hst : re.status = .compiled
  · rw [if_pos hst]
    obtain ⟨execSts, pmatch⟩ := lib.regexec re.preg buf
    by_cases hexec : execSts ≠ 0
    · simp only [if_pos hexec, and_self]
    · simp only [if_neg hexec, and_self]
  · rw [if_neg hst]
    exact ⟨rfl, rfl⟩

theorem step_holds {re : RegExp P} {compiled : Option CString} (h : Holds lib re compiled)
    (c : Call) : Holds lib (step lib re c) (patternAfter lib compiled c) := by
  cases c with
  | compile pattern =>
    rw [step, reCompile, patternAfter]
    by_cases hok : (lib.regcomp pattern).1 = 0
    · rw [if_pos hok]
      exact ⟨if_pos hok, rfl⟩
    · rw [if_neg hok]
      exact if_neg hok
  | exec buf =>
    obtain ⟨hstatus, hpreg⟩ := reMatch_keeps lib re buf
    cases compiled with
    | none => exact hstatus.trans h
    | some pattern => exact ⟨hstatus.trans h.1, hpreg.trans h.2⟩

theorem run_holds {re : RegExp P} {compiled : Option CString} (h : Holds lib re compiled)
    (calls : List Call) : Holds lib (run lib re calls) (calls.foldl (patternAfter lib) compiled) := by
  induction calls generalizing re compiled with
  | nil => exact h
  | cons c calls ih => exact ih (step_holds lib h c)

theorem lt_countMatched_iff (pmatch : List RegMatch) (i : ℕ) :
    i < countMatched pmatch ↔
      i < pmatch.length ∧ ∀ j ≤ i, ∀ m, pmatch[j]? = some m → m.rm_so ≠ -1 := by
  induction pmatch generalizing i with
  | nil => exact iff_of_false (Nat.not_lt_zero i) fun h => Nat.not_lt_zero i h.1
  | cons m pmatch ih =>
    rw [countMatched]
    by_cases hm : m.rm_so = -1
    · rw [if_pos hm]
      refine iff_of_false (Nat.not_lt_zero i) ?_
      rintro ⟨-, hall⟩
      exact hall 0 (Nat.zero_le i) m rfl hm
    · rw [if_neg hm]
      cases i with
      | zero =>
        refine iff_of_true (Nat.succ_pos _) ⟨Nat.succ_pos _, ?_⟩
        intro j hj m' hget
        obtain rfl := Nat.le_zero.mp hj
        obtain rfl := Option.some.inj hget
        exact hm
      | succ i =>
        rw [Nat.succ_lt_succ_iff, ih, List.length_cons, Nat.succ_lt_succ_iff]
        apply and_congr_right
        intro _
        constructor
        · intro hall j hj m' hget
          cases j with
          | zero =>
            obtain rfl := Option.some.inj hget
            exact hm
          | succ j => exact hall j (Nat.le_of_succ_le_succ hj) m' hget
        · intro hall j hj m' hget
          exact hall (j + 1) (Nat.succ_le_succ hj) m' hget

theorem getElem?_copyMatched {i n : ℕ} {pmatch : List RegMatch} {pMatch : List RegExpMatch}
    (hi : i < n) (hlen : pmatch.length = pMatch.length) :
    (copyMatched n pmatch pMatch)[i]? = pmatch[i]?.map fun m => ⟨m.rm_so, m.rm_eo⟩ := by
  induction n generalizing i pmatch pMatch with
  | zero => exact absurd hi (Nat.not_lt_zero i)
  | succ n ih =>
    cases pmatch with
    | nil =>
      cases pMatch with
      | nil => rfl
      | cons old pMatch => cases hlen
    | cons m pmatch =>
      cases pMatch with
      | nil => cases hlen
      | cons old pMatch =>
        cases i with
        | zero => rfl
        | succ i => exact ih (Nat.lt_of_succ_lt_succ hi) (Nat.succ.inj hlen)

/-- Entry 0 and the entry of every group are there, and those that took part are reported. -/
def Reports (groups : ℕ) (pmatch : List RegMatch) (reported : ℕ × List RegExpMatch) : Prop :=
  ∀ i ≤ groups, ∃ m, pmatch[i]? = some m ∧
    (m.rm_so ≠ -1 → i < reported.1 ∧ reported.2[i]? = some ⟨m.rm_so, m.rm_eo⟩)

/-- No group that took part comes after one that took no part. -/
def NoGap (groups : ℕ) (pmatch : List RegMatch) : Prop :=
  ∀ i j m m', i < j → j ≤ groups → pmatch[i]? = some m → pmatch[j]? = some m' →
    m.rm_so = -1 → m'.rm_so = -1

theorem reports_iff {groups : ℕ} {pmatch : List RegMatch} {pMatch : List RegExpMatch}
    (hgroups : groups < pmatch.length) (hlen : pmatch.length = pMatch.length) :
    Reports groups pmatch (countMatched pmatch, copyMatched (countMatched pmatch) pmatch pMatch) ↔
      NoGap groups pmatch := by
  constructor
  · intro hreports i j m m' hij hj hi hj' hm
    by_contra hm'
    obtain ⟨m'', hget, hreport⟩ := hreports j hj
    obtain rfl := Option.some.inj (hj'.symm.trans hget)
    have hlt := (hreport hm').1
    exact ((lt_countMatched_iff pmatch j).mp hlt).2 i hij.le m hi hm
  · intro hgap i hi
    have hlength : i < pmatch.length := Nat.lt_of_le_of_lt hi hgroups
    refine ⟨pmatch[i], List.getElem?_eq_getElem hlength, fun hm => ?_⟩
    have hget : pmatch[i]? = some pmatch[i] := List.getElem?_eq_getElem hlength
    have hlt : i < countMatched pmatch := by
      refine (lt_countMatched_iff pmatch i).mpr ⟨hlength, ?_⟩
      intro j hj m' hget' hm'
      rcases Nat.lt_or_eq_of_le hj with hlt | rfl
      · exact hm (hgap j i m' _ hlt hi hget' hget hm')
      · exact hm (Option.some.inj (hget.symm.trans hget') ▸ hm')
    refine ⟨hlt, ?_⟩
    rw [getElem?_copyMatched hlt hlen, hget]
    rfl

theorem reMatch_eq_one {re re' : RegExp P} {buf : CString} (h : reMatch lib re buf = (1, re')) :
    re.status = .compiled ∧
      reRegmatch re' = (countMatched (lib.regexec re.preg buf).2,
        copyMatched (countMatched (lib.regexec re.preg buf).2) (lib.regexec re.preg buf).2
          re.pMatch) := by
  unfold reMatch at h
  by_cases hst : re.status = .compiled
  · rw [if_pos hst] at h
    generalize lib.regexec re.preg buf = result at h ⊢
    obtain ⟨execSts, pmatch⟩ := result
    by_cases hexec : execSts ≠ 0
    · simp only [if_pos hexec] at h
      cases h
    · simp only [if_neg hexec] at h
      obtain rfl := (Prod.mk.inj h).2
      exact ⟨hst, rfl⟩
  · rw [if_neg hst] at h
    cases h

/-- After any history of calls that leaves `pattern` compiled, a call of `re_match` that returns 1 makes
`re_regmatch` report every sub-expression that took part in the match exactly when none of them comes
after a group that took no part. -/
theorem regmatch_complete_iff (re₀ re : RegExp P) (calls : List Call) (pattern buf : CString)
    (hpattern : calls.foldl (patternAfter lib) none = some pattern)
    (hgroups : lib.re_nsub (lib.regcomp pattern).2 ≤ 49)
    (hmatch : reMatch lib (run lib (reCreate re₀) calls) buf = (1, re)) :
    Reports (lib.re_nsub (lib.regcomp pattern).2) (lib.regexec (lib.regcomp pattern).2 buf).2
        (reRegmatch re) ↔
      NoGap (lib.re_nsub (lib.regcomp pattern).2)
        (lib.regexec (lib.regcomp pattern).2 buf).2 := by
  have hholds := run_holds lib (show Holds lib (reCreate re₀) none from rfl) calls
  rw [hpattern] at hholds
  obtain ⟨-, hreport⟩ := reMatch_eq_one lib hmatch
  have hlen := lib.length_regexec (lib.regcomp pattern).2 buf
  rw [hholds.2] at hreport
  rw [hreport]
  apply reports_iff
  · rw [hlen]
    exact Nat.lt_succ_of_le hgroups
  · rw [hlen, RegExp.length_pMatch]

def eitherPattern : CString := ⟨[40, 97, 41, 124, 40, 98, 41], by decide⟩

/-- The offsets of the leftmost `a` or `b` and of the group that it matches. -/
def eitherOffsets : ℕ → List UInt8 → Option (List RegMatch)
  | _, [] => none
  | k, b :: buf =>
    if b = 97 then some [⟨k, k + 1⟩, ⟨k, k + 1⟩, ⟨-1, -1⟩]
    else if b = 98 then some [⟨k, k + 1⟩, ⟨-1, -1⟩, ⟨k, k + 1⟩]
    else eitherOffsets (k + 1) buf

def eitherLibrary : Library Unit where
  regcomp pattern := (if pattern = eitherPattern then 0 else 1, ())
  re_nsub _ := 2
  regexec _ buf :=
    match eitherOffsets 0 buf.bytes with
    | none => (1, List.replicate npatterns ⟨-1, -1⟩)
    | some pmatch => (0, List.take npatterns (pmatch ++ List.replicate npatterns ⟨-1, -1⟩))
  length_regexec _ buf := by
    cases eitherOffsets 0 buf.bytes <;> simp

def uninitialized : RegExp Unit where
  preg := ()
  status := .compiled
  compSts := -1
  execSts := -1
  nMatch := 7
  pMatch := List.replicate npatterns ⟨0, 0⟩
  length_pMatch := List.length_replicate

def either : RegExp Unit :=
  run eitherLibrary (reCreate uninitialized) [.compile eitherPattern]

theorem regmatch_complete_iff_a :
    Reports 2 (eitherLibrary.regexec () ⟨[97], by decide⟩).2
        (reRegmatch (reMatch eitherLibrary either ⟨[97], by decide⟩).2) ↔
      NoGap 2 (eitherLibrary.regexec () ⟨[97], by decide⟩).2 :=
  regmatch_complete_iff eitherLibrary uninitialized _ [.compile eitherPattern] eitherPattern
    ⟨[97], by decide⟩ rfl (by decide) rfl

/-- On `b` the second group takes part after the first one did not, and is not reported. -/
theorem second_not_reported :
    (reMatch eitherLibrary either ⟨[98], by decide⟩).1 = 1 ∧
      (reMatch eitherLibrary either ⟨[98], by decide⟩).2.nMatch = 1 ∧
      ¬ Reports 2 (eitherLibrary.regexec () ⟨[98], by decide⟩).2
        (reRegmatch (reMatch eitherLibrary either ⟨[98], by decide⟩).2) := by
  refine ⟨rfl, rfl, ?_⟩
  intro hreports
  obtain ⟨m, hget, hreport⟩ := hreports 2 (Nat.le_refl 2)
  obtain rfl : ⟨0, 1⟩ = m := Option.some.inj hget
  have hlt : 2 < 1 := (hreport (by decide)).1
  omega

end CIS415.Re
