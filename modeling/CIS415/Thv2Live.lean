import CIS415.Thv2Spec

/-!
# The launch of thv2 comes to its report

Where no process is left waiting for ever and every pending SIGUSR1 comes to be delivered, the original
gets from one stage to the next. In its last loop the child it waits for gets nearer to its end with
each of its own steps, once it has received its signal.
-/

namespace CIS415.Thv2

open System System.Trace
open Launch (maxPids)

variable {n k j r c : ℕ} {pool pool' : List Process} {a : Action} {p q q' : Process}
  {cs : List Process} {pid : ℕ → ℤ}

/-- The steps of process `k` other than the delivery of a signal; the end of its command is one. -/
def Action.Own (k : ℕ) : Action → Prop
  | .proceed j => j = k
  | .fork j _ => j = k
  | .execvp j _ => j = k
  | .waitpid j _ => j = k
  | .exit j => j = k
  | .deliver _ _ => False

structure Fair (tr : Trace (step n)) : Prop where
  own : ∀ k, tr.WeaklyFair (Action.Own k)
  usr1 : ∀ k, tr.WeaklyFair (· = .deliver k .usr1)

def Place.rank : Place → ℕ
  | .sleep => 4
  | .test => 3
  | .execvp => 2
  | .command => 1
  | _ => 0

def Process.rank (q : Process) : ℕ :=
  if q.received = 0 then 5 else q.place.rank

def nextRank (p : Process) (cs : List Process) : ℕ :=
  (cs[p.i]?).elim 0 Process.rank

def Process.left (n : ℕ) (p : Process) (r : ℕ) : ℕ :=
  6 * ((5 - p.place.stage) * (n + 1) + (n - p.i)) + r

theorem rank_le_five (q : Process) : q.rank ≤ 5 := by
  rw [Process.rank]
  split
  · exact Nat.le_refl 5
  · cases q.place <;> exact Nat.le_of_ble_eq_true rfl

theorem nextRank_le_five (p : Process) (cs : List Process) : nextRank p cs ≤ 5 := by
  rw [nextRank]
  cases cs[p.i]? with
  | none => exact Nat.zero_le 5
  | some q => exact rank_le_five q

theorem rank_move {place : Place} (h : place.rank < q.place.rank) :
    ({ q with place := place } : Process).rank < q.rank ∨
      ({ q with place := place } : Process).rank = q.rank ∧ q.received = 0 := by
  by_cases hr : q.received = 0
  · exact Or.inr ⟨by simp only [Process.rank, if_pos hr], hr⟩
  · exact Or.inl (by simp only [Process.rank, if_neg hr, h])

/-- A step brings a child nearer to its end, unless it is one of the waiting loop or a stop. -/
theorem ChildStep.rank {u s c w : Prop} (h : ChildStep k q a q') (hq : Child u s c w q) :
    q'.rank < q.rank ∨
      q'.rank = q.rank ∧ (q.received = 0 ∧ a.Own k ∨ a = .deliver k .stop) := by
  cases h with
  | test hpl =>
    by_cases hr : q.received = 0
    · refine Or.inr ⟨?_, Or.inl ⟨hr, rfl⟩⟩
      simp only [Process.rank, if_pos hr]
    · rw [if_neg hr]
      refine (rank_move ?_).imp_right fun hmove => ⟨hmove.1, Or.inl ⟨hmove.2, rfl⟩⟩
      rw [hpl]
      exact Nat.lt_succ_self 2
  | sleep hpl =>
    refine (rank_move ?_).imp_right fun hmove => ⟨hmove.1, Or.inl ⟨hmove.2, rfl⟩⟩
    rw [hpl]
    exact Nat.lt_succ_self 3
  | execvp hpl =>
    refine (rank_move ?_).imp_right fun hmove => ⟨hmove.1, Or.inl ⟨hmove.2, rfl⟩⟩
    rw [hpl]
    exact Nat.lt_succ_self 1
  | exit hpl =>
    refine (rank_move ?_).imp_right fun hmove => ⟨hmove.1, Or.inl ⟨hmove.2, rfl⟩⟩
    rw [hpl]
    exact Nat.lt_succ_self 0
  | usr1 hpend =>
    left
    obtain ⟨hr, hpl⟩ := hq.pending hpend
    have husr1 : q.usr1.received = 1 ∧ q.usr1.place = .test := by
      rcases hpl with hpl | hpl
      · simp only [Process.usr1, hpl, hr, and_self]
      · simp only [Process.usr1, hpl, hr, and_self]
    rw [Process.rank, Process.rank, husr1.1, husr1.2, if_pos hr]
    decide
  | stop hpend => exact Or.inr ⟨rfl, Or.inr rfl⟩

/-- The steps that bring the original `p` on when the child it turns to next has rank `r`. -/
def Helps (p : Process) (r : ℕ) (a : Action) : Prop :=
  if p.place = .wait ∧ r ≠ 0 then
    if r = 5 then a = .deliver (p.i + 1) .usr1 else a.Own (p.i + 1)
  else a.Own 0

theorem Fair.helps {tr : Trace (step n)} (hfair : Fair tr) (p : Process) (r : ℕ) :
    tr.WeaklyFair (Helps p r) := by
  by_cases hw : p.place = .wait ∧ r ≠ 0
  · by_cases hr : r = 5
    · have heq : Helps p r = (· = .deliver (p.i + 1) .usr1) := by
        funext a
        rw [Helps, if_pos hw, if_pos hr]
      rw [heq]
      exact hfair.usr1 (p.i + 1)
    · have heq : Helps p r = Action.Own (p.i + 1) := by
        funext a
        rw [Helps, if_pos hw, if_neg hr]
      rw [heq]
      exact hfair.own (p.i + 1)
  · have heq : Helps p r = Action.Own 0 := by
      funext a
      rw [Helps, if_neg hw]
    rw [heq]
    exact hfair.own 0

theorem Action.Own.process (h : a.Own k) : a.process = k := by
  cases a with
  | deliver => exact h.elim
  | _ => exact h

def At (n : ℕ) (p : Process) (r : ℕ) (pool : List Process) : Prop :=
  ∃ cs, pool = p :: cs ∧ Family n p cs ∧ nextRank p cs = r

/-- The original has less than `c` left to do. -/
def Nearer (n c : ℕ) (pool : List Process) : Prop :=
  ∃ p cs, pool = p :: cs ∧ Family n p cs ∧ p.left n (nextRank p cs) < c

theorem Process.Before.left_lt {p' : Process} (h : p.Before p') (hp : p'.place.stage ≤ 5)
    (hi : p.i ≤ n) (hi' : p'.i ≤ n) {r' : ℕ} (hr : r' ≤ 5) : p'.left n r' < p.left n r := by
  have hlt : (5 - p'.place.stage) * (n + 1) + (n - p'.i) <
      (5 - p.place.stage) * (n + 1) + (n - p.i) := by
    rcases h with hlt | ⟨heq, hlt⟩
    · have hmul : (5 - p'.place.stage + 1) * (n + 1) ≤ (5 - p.place.stage) * (n + 1) :=
        Nat.mul_le_mul_right _ (by omega)
      rw [Nat.succ_mul] at hmul
      omega
    · rw [heq]
      omega
  rw [Process.left, Process.left]
  omega

theorem nextRank_set (hq : cs[j]? = some q) :
    nextRank p (cs.set j q') = if p.i = j then q'.rank else nextRank p cs := by
  obtain ⟨hlt, -⟩ := List.getElem?_eq_some_iff.mp hq
  rw [nextRank, nextRank]
  by_cases hj : p.i = j
  · rw [if_pos hj, hj, List.getElem?_set_self hlt]
    rfl
  · rw [if_neg hj, List.getElem?_set_ne (Ne.symm hj)]

theorem until_nearer :
    Until (restrict (step n) Action.Succeeds) (At n p r) (Nearer n (p.left n r)) := by
  intro pool a pool' h hs
  obtain ⟨ha, hs⟩ := restrict_eq_some.mp hs
  obtain ⟨cs, rfl, hfam, rfl⟩ := h
  rcases hfam.step_cases ha hs with
    ⟨p', cs', rfl, hfam', hbefore⟩ | ⟨j, q, q', -, hq, rfl, hfam', hstep⟩
  · right
    exact ⟨p', cs', rfl, hfam', hbefore.left_lt hfam'.original.place hfam.original.bound
      hfam'.original.bound (nextRank_le_five p' cs')⟩
  · by_cases hj : p.i = j
    · subst hj
      have hnext : nextRank p cs = q.rank := by
        rw [nextRank, hq]
        rfl
      have hnext' : nextRank p (cs.set p.i q') = q'.rank := by
        rw [nextRank_set hq, if_pos rfl]
      rcases hstep.rank (hfam.child p.i q hq) with hlt | ⟨heq, -⟩
      · right
        refine ⟨p, _, rfl, hfam', ?_⟩
        rw [hnext, hnext', Process.left, Process.left]
        omega
      · left
        exact ⟨_, rfl, hfam', by rw [hnext, hnext', heq]⟩
    · left
      exact ⟨_, rfl, hfam', by rw [nextRank_set hq, if_neg hj]⟩

theorem nearer_of_helps (h : At n p r pool) (hhelps : Helps p r a)
    (hs : restrict (step n) Action.Succeeds pool a = some pool') :
    Nearer n (p.left n r) pool' := by
  obtain ⟨ha, hs⟩ := restrict_eq_some.mp hs
  obtain ⟨cs, rfl, hfam, rfl⟩ := h
  by_cases hw : p.place = .wait ∧ nextRank p cs ≠ 0
  · rw [Helps, if_pos hw] at hhelps
    have hproc : a.process = p.i + 1 := by
      split at hhelps
      · rw [hhelps, Action.process]
      · exact hhelps.process
    obtain ⟨q, q', hq, rfl, hstep⟩ := hfam.child_step ha hproc hs
    have hnext : nextRank p cs = q.rank := by
      rw [nextRank, hq]
      rfl
    have hnext' : nextRank p (cs.set p.i q') = q'.rank := by
      rw [nextRank_set hq, if_pos rfl]
    refine ⟨p, _, rfl, hfam.set_child hq fun _ _ _ _ hc => hstep.child hc, ?_⟩
    have hlt : q'.rank < q.rank := by
      refine (hstep.rank (hfam.child p.i q hq)).resolve_right ?_
      rintro ⟨-, ⟨hr, hown⟩ | hstop⟩
      · rw [if_pos (hnext.trans (if_pos hr))] at hhelps
        rw [hhelps] at hown
        exact hown
      · rw [hstop] at hhelps
        split at hhelps
        · cases hhelps
        · exact hhelps
    rw [hnext, hnext', Process.left, Process.left]
    omega
  · rw [Helps, if_neg hw] at hhelps
    obtain ⟨p', cs', rfl, hfam', hbefore⟩ := hfam.original_step ha hhelps.process hs
    exact ⟨p', cs', rfl, hfam', hbefore.left_lt hfam'.original.place hfam.original.bound
      hfam'.original.bound (nextRank_le_five p' cs')⟩

theorem enabled_of_isSome {acts : Action → Prop} (hacts : acts a) (ha : a.Succeeds)
    (hs : (step n pool a).isSome = true) :
    Enabled (restrict (step n) Action.Succeeds) acts pool := by
  refine ⟨a, hacts, ?_⟩
  rw [System.restrict, if_pos ha]
  exact hs

/-- The child that the original waits for can take a step. -/
theorem child_enabled (h : Family n p cs) (hpl : p.place = .wait) (hi : p.i < n)
    (hr : nextRank p cs ≠ 0) :
    Enabled (restrict (step n) Action.Succeeds) (Helps p (nextRank p cs)) (p :: cs) := by
  obtain ⟨q, hq⟩ : ∃ q, cs[p.i]? = some q := by
    refine ⟨_, List.getElem?_eq_getElem ?_⟩
    rw [h.original.children (by rw [hpl]; exact fun heq => by cases heq)]
    exact hi
  have hnext : nextRank p cs = q.rank := by
    rw [nextRank, hq]
    rfl
  have hchild : Child True True True False q := by
    have hold := h.next_child hq
    rw [hpl] at hold
    simpa [Place.stage] using hold
  have hrun : q.stopped = false := by
    by_contra hstop
    exact (hchild.held (Or.inr (Bool.not_eq_false _ ▸ hstop))).2 trivial
  have hget : (p :: cs)[p.i + 1]? = some q := hq
  by_cases hzero : q.received = 0
  · have hfive : nextRank p cs = 5 := hnext.trans (if_pos hzero)
    have hpend : q.usr1Pending = true := by
      rcases hchild.usr1 with ⟨-, hu⟩ | ⟨hone, -⟩
      · exact hu.mpr trivial
      · cases hzero.symm.trans hone
    have halive : q.place.alive = true := by
      rcases (hchild.pending hpend).2 with hpl | hpl
      all_goals rw [hpl]; rfl
    refine enabled_of_isSome (a := .deliver (p.i + 1) .usr1) ?_ trivial ?_
    · rw [Helps, if_pos ⟨hpl, hr⟩, if_pos hfive]
    · simp [step, hget, hrun, hpend, halive]
  · have hrank : nextRank p cs = q.place.rank := hnext.trans (if_neg hzero)
    have hown : ∀ b : Action, b.Own (p.i + 1) → Helps p (nextRank p cs) b := by
      intro b hb
      have hfive : nextRank p cs ≠ 5 := by
        rw [hrank]
        cases q.place <;> exact fun heq => by cases heq
      rw [Helps, if_pos ⟨hpl, hr⟩, if_neg hfive]
      exact hb
    rw [hrank] at hr
    rcases hchild.place with hq | hq | hq | hq | hq | hq
    · refine enabled_of_isSome (hown (.proceed (p.i + 1)) rfl) trivial ?_
      simp [step, hget, hrun, Thv2.proceed, hq]
    · refine enabled_of_isSome (hown (.proceed (p.i + 1)) rfl) trivial ?_
      simp [step, hget, hrun, Thv2.proceed, hq]
    · refine enabled_of_isSome (hown (.execvp (p.i + 1) true) rfl) rfl ?_
      simp [step, hget, hrun, hq]
    · refine enabled_of_isSome (hown (.exit (p.i + 1)) rfl) trivial ?_
      simp [step, hget, hrun, hq]
    · rw [hq] at hr
      exact absurd rfl hr
    · rw [hq] at hr
      exact absurd rfl hr

theorem waitpid_enabled (h : Family n p cs) (hpl : p.place = .wait) (hi : p.i < n)
    (hr : nextRank p cs = 0) : (step n (p :: cs) (.waitpid 0 (some (p.i + 1)))).isSome = true := by
  have ho := h.original
  have hlen : cs.length = n := ho.children (by rw [hpl]; exact fun heq => by cases heq)
  obtain ⟨q, hq⟩ : ∃ q, cs[p.i]? = some q := ⟨_, List.getElem?_eq_getElem (hlen ▸ hi)⟩
  have hrank : q.rank = 0 := by
    rw [nextRank, hq] at hr
    exact hr
  have hchild : Child True True True False q := by
    have hold := h.next_child hq
    rw [hpl] at hold
    simpa [Place.stage] using hold
  have hexited : q.place = .zombie .exited := by
    rw [Process.rank] at hrank
    split at hrank
    · cases hrank
    · rcases hchild.place with hplace | hplace | hplace | hplace | hplace | hplace
      · rw [hplace] at hrank
        cases hrank
      · rw [hplace] at hrank
        cases hrank
      · rw [hplace] at hrank
        cases hrank
      · rw [hplace] at hrank
        cases hrank
      · exact hplace
      · exact (hchild.reaped.mpr hplace).elim
  have haw : awaits (p.pid p.i) (p.i + 1) = true := by
    simp [awaits, ho.pid p.i (hlen ▸ hi)]
  simp [step, ho.running, hpl, hi, waitpid, hq, hexited, hchild.parent, haw]

theorem helps_enabled (hn : n ≤ maxPids) (h : Family n p cs) (hpl : p.place ≠ .report) :
    Enabled (restrict (step n) Action.Succeeds) (Helps p (nextRank p cs)) (p :: cs) := by
  have ho := h.original
  have hplace := ho.place
  by_cases hw : p.place = .wait ∧ nextRank p cs ≠ 0
  · by_cases hi : p.i < n
    · exact child_enabled h hw.1 hi hw.2
    · refine absurd ?_ hw.2
      have hlen : cs.length = n := ho.children (by rw [hw.1]; exact fun heq => by cases heq)
      rw [nextRank, List.getElem?_eq_none (by omega)]
      rfl
  · have hown : ∀ b : Action, b.Own 0 → Helps p (nextRank p cs) b := by
      intro b hb
      rw [Helps, if_neg hw]
      exact hb
    cases hp : p.place with
    | launch =>
      by_cases hi : p.i < n
      · refine enabled_of_isSome (hown (.fork 0 true) rfl) rfl ?_
        simp [step, ho.running, hp, hi, lt_of_lt_of_le hi hn]
      · refine enabled_of_isSome (hown (.proceed 0) rfl) trivial ?_
        simp [step, ho.running, hp, hi, Thv2.proceed]
    | kill sig =>
      refine enabled_of_isSome (hown (.proceed 0) rfl) trivial ?_
      by_cases hi : p.i < n
      · simp [step, ho.running, hp, hi, Thv2.proceed]
      · simp [step, ho.running, hp, hi, Thv2.proceed]
    | wait =>
      by_cases hi : p.i < n
      · have hr : nextRank p cs = 0 := by
          by_contra hr
          exact hw ⟨hp, hr⟩
        exact enabled_of_isSome (hown (.waitpid 0 (some (p.i + 1))) rfl) trivial
          (waitpid_enabled h hp hi hr)
      · refine enabled_of_isSome (hown (.proceed 0) rfl) trivial ?_
        simp [step, ho.running, hp, hi, Thv2.proceed]
    | report => exact absurd hp hpl
    | _ =>
      rw [hp] at hplace
      exact absurd hplace (by simp [Place.stage])

def toDo (n : ℕ) : List Process → ℕ
  | [] => 0
  | p :: cs => p.left n (nextRank p cs)

/-- Under fair scheduling the original comes to its report, and by then every child has received its
signal, has run its command and has been waited for. -/
theorem launch_reports (tr : Trace (step n)) (h0 : tr.state 0 = initial pid) (hn : n ≤ maxPids)
    (ha : ∀ m a, tr.act m = some a → a.Succeeds) (hfair : Fair tr) :
    ∃ m p cs, tr.state m = p :: cs ∧ p.place = .report ∧ cs.length = n ∧
      ∀ q ∈ cs, q.place = .reaped .exited ∧ q.received = 1 := by
  have hleads : (tr.restrict Action.Succeeds ha).Leads (Inv n) fun pool =>
      ∃ p cs, pool = p :: cs ∧ Family n p cs ∧ p.place = .report := by
    apply leads_of_rank (toDo n)
    rintro c m ⟨⟨p, cs, hm, hfam⟩, hc⟩
    by_cases hpl : p.place = .report
    · exact ⟨m, Nat.le_refl m, Or.inl ⟨p, cs, hm, hfam, hpl⟩⟩
    · have hnearer : (tr.restrict Action.Succeeds ha).Leads (At n p (nextRank p cs))
          (Nearer n (p.left n (nextRank p cs))) := by
        refine leads_of_weaklyFair ((hfair.helps p (nextRank p cs)).restrict ha) until_nearer
          (fun pool a pool' => nearer_of_helps) ?_
        rintro pool ⟨cs', rfl, hfam', hr⟩
        rw [← hr]
        exact helps_enabled hn hfam' hpl
      obtain ⟨l, hl, p', cs', hl', hfam', hlt⟩ := hnearer m ⟨cs, hm, hfam, rfl⟩
      have hleft : p.left n (nextRank p cs) = c := by
        rw [← hc, hm]
        rfl
      refine ⟨l, hl, Or.inr ⟨⟨p', cs', hl', hfam'⟩, ?_⟩⟩
      rw [hl', ← hleft]
      exact hlt
  obtain ⟨m, -, p, cs, hm, hfam, hpl⟩ := hleads 0 (by
    change Inv n (tr.state 0)
    rw [h0]
    exact inv_initial)
  refine ⟨m, p, cs, hm, hpl, hfam.original.children ?_, fun q hq => hfam.of_report hpl hq⟩
  rw [hpl]
  exact fun heq => by cases heq

/-- Nothing is left to do where the original is at its report and no other process is left. -/
theorem not_enabled_of_report {acts : Action → Prop} (hacts : ∀ a, acts a → ∀ i, a ≠ .deliver i .stop)
    (h : ∀ q ∈ pool, q.usr1Pending = false ∧ (q.place = .report ∨ q.place = .reaped .exited)) :
    ¬ Enabled (step n) acts pool := by
  rintro ⟨a, ha, hen⟩
  obtain ⟨pool', hs⟩ := Option.isSome_iff_exists.mp hen
  have hget : ∀ {i : ℕ} {q : Process}, pool[i]? = some q → q.usr1Pending = false ∧
      (q.place = .report ∨ q.place = .reaped .exited) := fun hq => h _ (List.mem_of_getElem? hq)
  cases a with
  | proceed i =>
    obtain ⟨q, hq, hs⟩ := Option.bind_eq_some_iff.mp hs
    split_ifs at hs
    rcases (hget hq).2 with hpl | hpl
    · rw [Thv2.proceed, hpl] at hs
      cases hs
    · rw [Thv2.proceed, hpl] at hs
      cases hs
  | fork i succeeds =>
    obtain ⟨q, hq, hs⟩ := Option.bind_eq_some_iff.mp hs
    split at hs
    · rename_i hcond
      rcases (hget hq).2 with hpl | hpl
      all_goals cases hcond.2.1.symm.trans hpl
    · cases hs
  | execvp i succeeds =>
    obtain ⟨q, hq, hs⟩ := Option.bind_eq_some_iff.mp hs
    split_ifs at hs with hcond
    rcases (hget hq).2 with hpl | hpl
    all_goals cases hcond.2.symm.trans hpl
  | waitpid i child =>
    obtain ⟨q, hq, hs⟩ := Option.bind_eq_some_iff.mp hs
    split_ifs at hs with hcond
    rcases (hget hq).2 with hpl | hpl
    all_goals cases hcond.2.1.symm.trans hpl
  | exit i =>
    obtain ⟨q, hq, hs⟩ := Option.bind_eq_some_iff.mp hs
    split_ifs at hs with hcond
    rcases (hget hq).2 with hpl | hpl
    all_goals cases hcond.2.symm.trans hpl
  | deliver i sig =>
    cases sig with
    | usr1 =>
      obtain ⟨q, hq, hs⟩ := Option.bind_eq_some_iff.mp hs
      split_ifs at hs with hcond
      exact absurd ((hget hq).1.symm.trans hcond.2.1) Bool.false_ne_true
    | stop => exact hacts _ ha i rfl
    | cont => cases hs

theorem launch_reports_two :
    ∃ tr : Trace (step 2), tr.state 0 = initial (fun _ => 0) ∧ Fair tr ∧
      ∃ m p cs, tr.state m = p :: cs ∧ p.place = .report ∧ cs.length = 2 ∧
        ∀ q ∈ cs, q.place = .reaped .exited ∧ q.received = 1 := by
  have hrun : (exec (step 2) (initial fun _ => 0) runTwo).any (fun pool => pool.all fun q =>
      q.usr1Pending = false && (q.place = .report || q.place = .reaped .exited)) = true := by
    decide
  obtain ⟨pool, hpool, hdone⟩ := (Option.any_eq_true ..).mp hrun
  have hdone : ∀ q ∈ pool, q.usr1Pending = false ∧
      (q.place = .report ∨ q.place = .reaped .exited) := by
    simpa using hdone
  have hfair : Fair (resting hpool) := by
    refine ⟨fun k => StronglyFair.weaklyFair ?_, fun k => StronglyFair.weaklyFair ?_⟩
    · refine resting_stronglyFair hpool (not_enabled_of_report (fun a ha i heq => ?_) hdone)
      rw [heq] at ha
      exact ha
    · refine resting_stronglyFair hpool (not_enabled_of_report (fun a ha i heq => ?_) hdone)
      rw [heq] at ha
      cases ha
  refine ⟨resting hpool, rfl, hfair, launch_reports (resting hpool) rfl (by decide) ?_ hfair⟩
  intro m a ha
  have hall : ∀ b ∈ runTwo, b.Succeeds := by decide
  exact hall a (List.mem_of_getElem? ha)

end CIS415.Thv2
