import CIS415.ThvCommand
import CIS415.ThvReport

/-!
# What thv1.c, thv2.c and thv3.c make of their arguments

Before they launch anything the three programs read their options, build the argument vector of the
command and take what is not given from the environment. `command` is not initialized, so without an
option that gives the command the program has no meaning. The code at the end of `main`, for a run that
comes there, prints the command and the numbers.
-/

namespace CIS415

namespace Thv

open P1Fxns Decimal

def ascii (s : String) : List UInt8 :=
  s.toList.map fun c => UInt8.ofNat c.toNat

def readOptions : Options → List CString → Option Options
  | o, [] => some o
  | o, argv_i :: argv => do
    let o ← readOption o argv_i
    readOptions o argv

structure Environment where
  th_nprocesses : Option CString
  th_nprocessors : Option CString

/-- `main` exits with a message of `p1perror`, or it comes to the loop that launches the command. -/
inductive Outcome where
  | exits (status : ℤ) (fd : ℕ) (str : List UInt8)
  | launches (command : CString) (arg : List Arg) (nprocesses nprocessors : ℤ)
deriving DecidableEq

/-- A number that is not set is read from the environment; the inner `none` is `getenv`'s NULL. -/
def fallback (set : Option ℤ) (x : Option CString) : Option (Option ℤ) :=
  match set with
  | some v => some (some v)
  | none =>
    match x with
    | some x => (p1atoi x).map some
    | none => some none

/-- `main` on `argv[1..]` up to the launching loop. `limit` is the number of arguments that `argc` may
reach, where the program checks it. -/
def prepare (limit : Option ℕ) (env : Environment) (argv : List CString) : Option Outcome := do
  let o ← readOptions ⟨none, none, none⟩ argv
  let command ← o.command
  if limit.any (· < argv.length + 1) then some (.exits 0 2 (ascii "Too many arguments"))
  else do
    let arg ← buildArg command
    match ← fallback o.nprocessors env.th_nprocessors with
    | none => some (.exits 1 1 (ascii "No value found for nprocessors"))
    | some nprocessors =>
      match ← fallback o.nprocesses env.th_nprocesses with
      | none => some (.exits 1 1 (ascii "No value found for nprocesses"))
      | some nprocesses => some (.launches command arg nprocesses nprocessors)

/-- What the code after the loop of `waitpid` prints. -/
def report (command : CString) (nprocesses nprocessors : ℤ) (start stop : Timeval) :
    Option (List UInt8) := do
  let copies ← p1putint nprocesses
  let processors ← p1putint nprocessors
  let time ← printElapsed start stop
  some (ascii "The elapsed time to execute " ++ copies ++ ascii " copies of \"" ++ command.bytes ++
    ascii "\" on " ++ processors ++ ascii " processors is: " ++ time)

end Thv

def Thv1.prepare : Thv.Environment → List CString → Option Thv.Outcome :=
  Thv.prepare (some 4)

def Thv2.prepare : Thv.Environment → List CString → Option Thv.Outcome :=
  Thv.prepare none

def Thv3.prepare : Thv.Environment → List CString → Option Thv.Outcome :=
  Thv.prepare none

namespace Thv

open P1Fxns Decimal

/-- What follows `pre` in an argument that begins with it. -/
def after (pre s : CString) : Option CString :=
  if pre.bytes.isPrefixOf s.bytes then
    some ⟨s.bytes.drop pre.bytes.length, fun h => s.noNul (List.mem_of_mem_drop h)⟩
  else none

def last (pre : CString) (argv : List CString) : Option CString :=
  (argv.filterMap (after pre)).getLast?

def amount (s : CString) : ℕ :=
  value (s.bytes.takeWhile isDigit)

/-- The number that the last option of a kind gives, or else the environment. -/
def choice (pre : CString) (argv : List CString) (x : Option CString) : Option ℕ :=
  ((last pre argv).or x).map amount

def fits (s : CString) : Bool :=
  amount s < 2 ^ 31

def optionFits (s : CString) : Bool :=
  (after numberPrefix s).all fits && (after processorsPrefix s).all fits

variable {pre s t : CString} {argv : List CString}

theorem eq_append_of_after (h : after pre s = some t) : s = pre ++ t := by
  unfold after at h
  split_ifs at h with hpre
  obtain rfl := Option.some.inj h
  apply CString.ext_bytes
  exact (List.prefix_iff_eq_append.mp (List.isPrefixOf_iff_prefix.mp hpre)).symm

theorem last_cons (pre s : CString) (argv : List CString) :
    last pre (s :: argv) = (last pre argv).or (after pre s) := by
  rw [last, last]
  cases hs : after pre s with
  | none => rw [List.filterMap_cons_none hs, Option.or_none]
  | some t =>
    rw [List.filterMap_cons_some hs, List.getLast?_cons]
    cases (argv.filterMap (after pre)).getLast? <;> rfl

theorem strneqFrom_prefix {p : List UInt8} (hp : 0 ∉ p) (s : List UInt8) :
    strneqFrom p.length (s ++ [0]) (p ++ [0]) = some (if p.isPrefixOf s then 1 else 0) := by
  induction p generalizing s with
  | nil => rfl
  | cons b p ih =>
    obtain ⟨hb, hrest⟩ := not_or.mp fun h => hp (List.mem_cons.mpr h)
    cases s with
    | nil =>
      rw [List.length_cons, List.nil_append, List.cons_append, strneqFrom, if_pos hb]
      rfl
    | cons a s =>
      rw [List.length_cons, List.cons_append, List.cons_append, strneqFrom]
      by_cases hab : a = b
      · subst hab
        rw [if_neg (not_not.mpr rfl), ih hrest, List.isPrefixOf, BEq.rfl, Bool.true_and]
      · rw [if_pos hab, List.isPrefixOf, beq_eq_false_iff_ne.mpr (Ne.symm hab)]
        rfl

theorem p1strneq_of_after_none (h : after pre s = none) : p1strneq s pre (p1strlen pre) = some 0 := by
  have hpre : ¬ pre.bytes.isPrefixOf s.bytes := by
    intro hpre
    rw [after, if_pos hpre] at h
    cases h
  rw [p1strneq, p1strlen, strneqFrom_prefix pre.noNul, if_neg hpre]

theorem p1strneq_of_after (h : after pre s = some t) : p1strneq s pre (p1strlen pre) = some 1 := by
  rw [eq_append_of_after h, p1strneq_append]

theorem int_overflow {n : ℕ} (h : 2 ^ 31 ≤ n) : int n = none :=
  if_neg fun hn => by omega

theorem atoiFrom_overflow {ds : List UInt8} (hds : ∀ b ∈ ds, isDigit b) {v : ℕ} (hv : v < 2 ^ 31)
    (h : 2 ^ 31 ≤ ds.foldl (fun v b => 10 * v + digit b) v) (rest : List UInt8) :
    atoiFrom v (ds ++ rest) = none := by
  induction ds generalizing v with
  | nil => exact absurd h (Nat.not_le.mpr hv)
  | cons b ds ih =>
    obtain ⟨hb, hds⟩ := List.forall_mem_cons.mp hds
    have hrange := isDigit_iff.mp hb
    rw [List.cons_append, atoiFrom, if_pos (of_decide_eq_true hb)]
    by_cases htens : 10 * v < 2 ^ 31
    · have hint : int (10 * (v : ℤ)) = some ((10 * v : ℕ) : ℤ) := by
        rw [← int_of_nat htens]
        push_cast
        rfl
      have hsum : ((10 * v : ℕ) : ℤ) + ((b.toNat : ℤ) - 48) = ((10 * v + digit b : ℕ) : ℤ) := by
        unfold digit
        omega
      rw [hint]
      simp only [Option.bind_eq_bind, Option.bind_some, hsum]
      by_cases hnext : 10 * v + digit b < 2 ^ 31
      · rw [int_of_nat hnext]
        exact ih hds hnext h
      · rw [int_overflow (Nat.le_of_not_lt hnext)]
        rfl
    · have hint : int (10 * (v : ℤ)) = none := by
        rw [← int_overflow (Nat.le_of_not_lt htens)]
        push_cast
        rfl
      rw [hint]
      rfl

theorem p1atoi_eq (s : CString) :
    p1atoi s = if fits s then some (amount s : ℤ) else none := by
  have hsplit : s.bytes = s.bytes.takeWhile isDigit ++ s.bytes.dropWhile isDigit :=
    List.takeWhile_append_dropWhile.symm
  have hds : ∀ b ∈ s.bytes.takeWhile isDigit, isDigit b := fun b hb => List.mem_takeWhile_imp hb
  by_cases h : amount s < 2 ^ 31
  · rw [fits, decide_eq_true h, if_pos rfl]
    refine p1atoi_value hsplit hds ?_ h
    intro b hb
    have hhead := List.head?_dropWhile_not isDigit s.bytes
    rw [Option.mem_def.mp hb] at hhead
    exact Bool.eq_false_iff.mp hhead
  · rw [fits, decide_eq_false h, if_neg Bool.false_ne_true, p1atoi, hsplit]
    exact atoiFrom_overflow (v := 0) hds (by decide) (Nat.le_of_not_lt h) _

variable {o : Options}

theorem readOption_number (h : after numberPrefix s = some t) :
    readOption o s = (p1atoi t).map fun v => { o with nprocesses := some v } := by
  have hcommand : p1strneq s commandPrefix (p1strlen commandPrefix) = some 0 := by
    rw [eq_append_of_after h]
    rfl
  have hadvance : advance s (p1strlen numberPrefix) = some t := by
    rw [eq_append_of_after h, advance_append]
  rw [readOption, hcommand, p1strneq_of_after h]
  simp only [Option.bind_eq_bind, Option.bind_some, ne_eq, not_true_eq_false, if_false, one_ne_zero,
    not_false_eq_true, if_true, hadvance]
  cases p1atoi t <;> rfl

theorem readOption_processors (h : after processorsPrefix s = some t) :
    readOption o s = (p1atoi t).map fun v => { o with nprocessors := some v } := by
  have hcommand : p1strneq s commandPrefix (p1strlen commandPrefix) = some 0 := by
    rw [eq_append_of_after h]
    rfl
  have hnumber : p1strneq s numberPrefix (p1strlen numberPrefix) = some 0 := by
    rw [eq_append_of_after h]
    rfl
  have hadvance : advance s (p1strlen processorsPrefix) = some t := by
    rw [eq_append_of_after h, advance_append]
  rw [readOption, hcommand, hnumber, p1strneq_of_after h]
  simp only [Option.bind_eq_bind, Option.bind_some, ne_eq, not_true_eq_false, if_false, one_ne_zero,
    not_false_eq_true, if_true, hadvance]
  cases p1atoi t <;> rfl

theorem readOption_other (hcommand : after commandPrefix s = none)
    (hnumber : after numberPrefix s = none) (hprocessors : after processorsPrefix s = none) :
    readOption o s = some o := by
  rw [readOption, p1strneq_of_after_none hcommand, p1strneq_of_after_none hnumber,
    p1strneq_of_after_none hprocessors]
  rfl

def chosen (o : Options) (argv : List CString) : Options where
  command := (last commandPrefix argv).or o.command
  nprocesses := ((last numberPrefix argv).map fun t => (amount t : ℤ)).or o.nprocesses
  nprocessors := ((last processorsPrefix argv).map fun t => (amount t : ℤ)).or o.nprocessors

inductive Kind (s : CString) : Prop
  | command (t : CString) (command : after commandPrefix s = some t)
      (number : after numberPrefix s = none) (processors : after processorsPrefix s = none)
  | number (t : CString) (command : after commandPrefix s = none)
      (number : after numberPrefix s = some t) (processors : after processorsPrefix s = none)
  | processors (t : CString) (command : after commandPrefix s = none)
      (number : after numberPrefix s = none) (processors : after processorsPrefix s = some t)
  | other (command : after commandPrefix s = none) (number : after numberPrefix s = none)
      (processors : after processorsPrefix s = none)

theorem kind (s : CString) : Kind s := by
  cases hcommand : after commandPrefix s with
  | some t =>
    obtain rfl := eq_append_of_after hcommand
    exact .command t hcommand rfl rfl
  | none =>
    cases hnumber : after numberPrefix s with
    | some t =>
      obtain rfl := eq_append_of_after hnumber
      exact .number t hcommand hnumber rfl
    | none =>
      cases hprocessors : after processorsPrefix s with
      | some t => exact .processors t hcommand hnumber hprocessors
      | none => exact .other hcommand hnumber hprocessors

theorem chosen_cons (o : Options) (s : CString) (argv : List CString) :
    chosen o (s :: argv) = chosen (chosen o [s]) argv := by
  have hor : ∀ {α β : Type} (f : α → β) (x y : Option α) (z : Option β),
      ((x.or y).map f).or z = (x.map f).or ((y.map f).or z) := by
    intro α β f x y z
    cases x <;> rfl
  have hnil : ∀ pre, last pre [] = none := fun _ => rfl
  rw [chosen, chosen, chosen]
  simp only [last_cons, hnil, Option.none_or, hor, Option.or_assoc]

theorem chosen_single (o : Options) (s : CString) :
    chosen o [s] = ⟨(after commandPrefix s).or o.command,
      ((after numberPrefix s).map fun t => (amount t : ℤ)).or o.nprocesses,
      ((after processorsPrefix s).map fun t => (amount t : ℤ)).or o.nprocessors⟩ := by
  have hlast : ∀ pre, last pre [s] = after pre s := fun pre => last_cons pre s []
  rw [chosen, hlast, hlast, hlast]

theorem readOption_eq (o : Options) (s : CString) :
    readOption o s = if optionFits s then some (chosen o [s]) else none := by
  rw [chosen_single, optionFits]
  rcases kind s with ⟨t, hcommand, hnumber, hprocessors⟩ | ⟨t, hcommand, hnumber, hprocessors⟩ |
    ⟨t, hcommand, hnumber, hprocessors⟩ | ⟨hcommand, hnumber, hprocessors⟩
  · rw [hcommand, hnumber, hprocessors, eq_append_of_after hcommand]
    exact readOption_command o t
  · rw [readOption_number hnumber, hcommand, hnumber, hprocessors, p1atoi_eq, Option.all_some,
      Option.all_none, Bool.and_true]
    cases fits t <;> rfl
  · rw [readOption_processors hprocessors, hcommand, hnumber, hprocessors, p1atoi_eq,
      Option.all_some, Option.all_none, Bool.true_and]
    cases fits t <;> rfl
  · rw [readOption_other hcommand hnumber hprocessors, hcommand, hnumber, hprocessors]
    rfl

/-- The loop sets what the last option of each kind gives, if no number overflows. -/
theorem readOptions_eq (o : Options) (argv : List CString) :
    readOptions o argv = if argv.all optionFits then some (chosen o argv) else none := by
  induction argv generalizing o with
  | nil => rfl
  | cons s argv ih =>
    rw [readOptions, readOption_eq, List.all_cons, chosen_cons o s argv]
    cases optionFits s with
    | true => exact ih (chosen o [s])
    | false => rfl

theorem fits_of_last (h : argv.all optionFits) (hpre : pre ∈ [numberPrefix, processorsPrefix])
    (hlast : last pre argv = some t) : fits t := by
  obtain ⟨s, hs, ht⟩ := List.mem_filterMap.mp (List.mem_of_getLast? hlast)
  obtain ⟨hnumber, hprocessors⟩ := (Bool.and_eq_true _ _).mp (List.all_eq_true.mp h s hs)
  rcases List.mem_pair.mp hpre with rfl | rfl
  · rwa [ht] at hnumber
  · rwa [ht] at hprocessors

theorem fallback_iff (h : argv.all optionFits) (hpre : pre ∈ [numberPrefix, processorsPrefix])
    {x : Option CString} {v : ℤ} :
    fallback (((last pre argv).map fun t => (amount t : ℤ)).or none) x = some (some v) ↔
      ∃ n : ℕ, choice pre argv x = some n ∧ n < 2 ^ 31 ∧ v = n := by
  rw [choice, Option.or_none]
  cases hlast : last pre argv with
  | some t =>
    have hfits : amount t < 2 ^ 31 := of_decide_eq_true (fits_of_last h hpre hlast)
    constructor
    · intro hv
      exact ⟨amount t, rfl, hfits, (Option.some.inj (Option.some.inj hv)).symm⟩
    · rintro ⟨n, hn, -, rfl⟩
      rw [← Option.some.inj hn]
      rfl
  | none =>
    cases x with
    | none =>
      refine ⟨fun hv => (by cases hv), ?_⟩
      rintro ⟨n, hn, -⟩
      cases hn
    | some x =>
      rw [Option.map_none, fallback, p1atoi_eq]
      by_cases hfits : amount x < 2 ^ 31
      · rw [fits, decide_eq_true hfits, if_pos rfl]
        constructor
        · intro hv
          exact ⟨amount x, rfl, hfits, (Option.some.inj (Option.some.inj hv)).symm⟩
        · rintro ⟨n, hn, -, rfl⟩
          rw [← Option.some.inj hn]
          rfl
      · rw [fits, decide_eq_false hfits, if_neg Bool.false_ne_true]
        refine ⟨fun hv => (by cases hv), ?_⟩
        rintro ⟨n, hn, hlt, -⟩
        rw [← Option.some.inj hn] at hlt
        exact absurd hlt hfits

/-- What the options and the environment ask for. -/
structure Asked (limit : Option ℕ) (env : Environment) (argv : List CString) (command : CString)
    (nprocesses nprocessors : ℕ) : Prop where
  command_given : last commandPrefix argv = some command
  within_limit : ∀ k ∈ limit, argv.length + 1 ≤ k
  short : Short (shell.split command.bytes)
  options_fit : argv.all optionFits
  processors_given : choice processorsPrefix argv env.th_nprocessors = some nprocessors
  processors_fit : nprocessors < 2 ^ 31
  processes_given : choice numberPrefix argv env.th_nprocesses = some nprocesses
  processes_fit : nprocesses < 2 ^ 31

def vector (command : CString) : List Arg :=
  (shell.split command.bytes).map (fun word => .slot (some word)) ++
    .null :: List.replicate (p1strlen command - (shell.split command.bytes).length) (.slot none)

/-- What is printed when the run took `d` microseconds, with the digits `frac` of the milliseconds. -/
def line (command : CString) (nprocesses nprocessors d : ℕ) (frac : List UInt8) : List UInt8 :=
  ascii "The elapsed time to execute " ++ text nprocesses ++ ascii " copies of \"" ++ command.bytes ++
    ascii "\" on " ++ text nprocessors ++ ascii " processors is: " ++
    (text (d / 1000000) ++ point :: frac ++ secText)

variable {limit : Option ℕ} {env : Environment} {command : CString} {arg : List Arg}
  {nprocesses nprocessors : ℤ} {n m d : ℕ} {start stop : Timeval}

theorem limit_iff : limit.any (· < argv.length + 1) = true ↔ ¬ ∀ k ∈ limit, argv.length + 1 ≤ k := by
  cases limit with
  | none => simp
  | some k => simp

theorem prepare_of_asked (h : Asked limit env argv command n m) :
    prepare limit env argv = some (.launches command (vector command) n m) := by
  have hoptions : readOptions ⟨none, none, none⟩ argv = some (chosen ⟨none, none, none⟩ argv) := by
    rw [readOptions_eq, if_pos h.options_fit]
  have hcommand : (chosen ⟨none, none, none⟩ argv).command = some command := by
    rw [chosen, h.command_given]
    rfl
  have hlimit : ¬ limit.any (· < argv.length + 1) = true :=
    fun hany => limit_iff.mp hany h.within_limit
  have hprocessors := (fallback_iff h.options_fit (List.mem_pair.mpr (Or.inr rfl))).mpr
    ⟨m, h.processors_given, h.processors_fit, rfl⟩
  have hprocesses := (fallback_iff h.options_fit (List.mem_pair.mpr (Or.inl rfl))).mpr
    ⟨n, h.processes_given, h.processes_fit, rfl⟩
  have harg : buildArg command = some (vector command) := buildArg_short h.short
  simp only [prepare, hoptions, hcommand, harg, Option.bind_eq_bind, Option.bind_some, if_neg hlimit]
  change (fallback (((last processorsPrefix argv).map _).or none) _).bind _ = _
  rw [hprocessors]
  change (fallback (((last numberPrefix argv).map _).or none) _).bind _ = _
  rw [hprocesses]
  rfl

theorem asked_of_prepare
    (h : prepare limit env argv = some (.launches command arg nprocesses nprocessors)) :
    ∃ n m : ℕ, Asked limit env argv command n m ∧ arg = vector command ∧ nprocesses = n ∧
      nprocessors = m := by
  obtain ⟨o, ho, h⟩ := Option.bind_eq_some_iff.mp h
  obtain ⟨text, htext, h⟩ := Option.bind_eq_some_iff.mp h
  rw [readOptions_eq] at ho
  split_ifs at ho with hfit
  obtain rfl := Option.some.inj ho
  split_ifs at h with hlimit
  · cases h
  · obtain ⟨slots, hslots, h⟩ := Option.bind_eq_some_iff.mp h
    obtain ⟨p, hp, h⟩ := Option.bind_eq_some_iff.mp h
    cases p with
    | none => cases h
    | some p =>
      obtain ⟨q, hq, h⟩ := Option.bind_eq_some_iff.mp h
      cases q with
      | none => cases h
      | some q =>
        cases h
        obtain ⟨m, hm, hmfits, rfl⟩ := (fallback_iff hfit (by decide)).mp hp
        obtain ⟨n, hn, hnfits, rfl⟩ := (fallback_iff hfit (by decide)).mp hq
        have hshort : Short (shell.split command.bytes) :=
          (buildArg_isSome_iff command).mp (Option.isSome_of_eq_some hslots)
        have hvector : vector command = arg := Option.some.inj ((buildArg_short hshort).symm.trans hslots)
        have hlast : last commandPrefix argv = some command := Option.or_none.symm.trans htext
        have hwithin : ∀ k ∈ limit, argv.length + 1 ≤ k :=
          not_not.mp fun hnot => hlimit (limit_iff.mpr hnot)
        exact ⟨n, m, ⟨hlast, hwithin, hshort, hfit, hm, hmfits, hn, hnfits⟩, hvector.symm, rfl, rfl⟩

theorem prepare_iff :
    prepare limit env argv = some (.launches command arg nprocesses nprocessors) ↔
      ∃ n m : ℕ, Asked limit env argv command n m ∧ arg = vector command ∧ nprocesses = n ∧
        nprocessors = m := by
  refine ⟨asked_of_prepare, ?_⟩
  rintro ⟨n, m, h, rfl, rfl, rfl⟩
  exact prepare_of_asked h

theorem report_of_asked (h : Asked limit env argv command n m) (hd : stop.micros - start.micros = d)
    (hfits : d / 1000000 < 2 ^ 31) :
    ∃ frac, report command n m start stop = some (line command n m d frac) ∧ frac.length = 3 ∧
      (∀ b ∈ frac, isDigit b) ∧ value frac = d / 1000 % 1000 := by
  obtain ⟨frac, hprint, hfrac⟩ := printElapsed_eq hd hfits
  refine ⟨frac, ?_, hfrac⟩
  simp only [report, p1putint_nat h.processes_fit, p1putint_nat h.processors_fit, hprint,
    Option.bind_eq_bind, Option.bind_some]
  rfl

/-- The three programs come to launch a command exactly when their options and the environment ask for
it: of each kind of option the last one counts, the environment only where there is none, and the words of
the command are the argument vector. The code at the end of `main` prints the same command and numbers. -/
theorem main_iff_asked (env : Environment) (argv : List CString) (command : CString) (arg : List Arg)
    (nprocesses nprocessors : ℤ) :
    (Thv1.prepare env argv = some (.launches command arg nprocesses nprocessors) ↔
      ∃ n m : ℕ, Asked (some 4) env argv command n m ∧ arg = vector command ∧ nprocesses = n ∧
        nprocessors = m) ∧
    (Thv2.prepare env argv = some (.launches command arg nprocesses nprocessors) ↔
      ∃ n m : ℕ, Asked none env argv command n m ∧ arg = vector command ∧ nprocesses = n ∧
        nprocessors = m) ∧
    (Thv3.prepare env argv = some (.launches command arg nprocesses nprocessors) ↔
      ∃ n m : ℕ, Asked none env argv command n m ∧ arg = vector command ∧ nprocesses = n ∧
        nprocessors = m) ∧
    ∀ (limit : Option ℕ) (n m d : ℕ) (start stop : Timeval), Asked limit env argv command n m →
      stop.micros - start.micros = d → d / 1000000 < 2 ^ 31 →
      ∃ frac, report command n m start stop = some (line command n m d frac) ∧ frac.length = 3 ∧
        (∀ b ∈ frac, isDigit b) ∧ value frac = d / 1000 % 1000 :=
  ⟨prepare_iff, prepare_iff, prepare_iff, fun _ _ _ _ _ _ => report_of_asked⟩

def ls : CString := ⟨[108, 115], by decide⟩

/-- `--number=7 --command=ls --number=2`. -/
def listing : List CString :=
  [numberPrefix ++ ⟨[55], by decide⟩, commandPrefix ++ ls, numberPrefix ++ ⟨[50], by decide⟩]

/-- These arguments with the number of processors from the environment, and two and a half seconds. -/
theorem main_iff_asked_ls :
    Thv1.prepare ⟨none, some ⟨[51], by decide⟩⟩ listing =
      some (.launches ls [.slot (some ls.bytes), .null, .slot none] 2 3) ∧
    ∃ frac, report ls 2 3 ⟨1, 0, by decide⟩ ⟨3, 500000, by decide⟩ =
        some (line ls 2 3 2500000 frac) ∧
      frac.length = 3 ∧ (∀ b ∈ frac, isDigit b) ∧ value frac = 500 := by
  have hprepare : Thv1.prepare ⟨none, some ⟨[51], by decide⟩⟩ listing =
      some (.launches ls [.slot (some ls.bytes), .null, .slot none] 2 3) := by
    decide
  have hmain := main_iff_asked ⟨none, some ⟨[51], by decide⟩⟩ listing ls
    [.slot (some ls.bytes), .null, .slot none] 2 3
  obtain ⟨n, m, hasked, -, hn, hm⟩ := hmain.1.mp hprepare
  obtain rfl : 2 = n := by omega
  obtain rfl : 3 = m := by omega
  exact ⟨hprepare, hmain.2.2.2 _ _ _ 2500000 ⟨1, 0, by decide⟩ ⟨3, 500000, by decide⟩ hasked (by decide)
    (by decide)⟩

end Thv

end CIS415
