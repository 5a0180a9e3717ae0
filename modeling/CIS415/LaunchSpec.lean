import CIS415.Launch
import Mathlib.Algebra.BigOperators.Group.List.Basic
import Mathlib.Algebra.Order.BigOperators.Group.List
import Mathlib.Tactic.Positivity

/-!
# What the launching loop does

Every run ends, with every process past the loop or replaced. It has forked exactly `nprocesses` times,
all by the original process, if and only if no `execvp` has failed: a process whose `execvp` fails goes
on in the loop as the original does. When all of them fail the number of processes doubles with every
iteration.
-/

namespace CIS415.Launch

open System

variable {n k : ℕ} {pool pool' : List Process} {a : Action} {acts : List Action} {p q : Process}
  {pid : ℕ → ℤ} {es : List Event}

@[simp]
theorem Process.forked_zero (p : Process) :
    p.forked 0 = { p with pid := Function.update p.pid p.i 0, place := .execvp } := by
  simp [Process.forked]

theorem Process.forked_pos (p : Process) {r : ℤ} (hr : 0 < r) :
    p.forked r = ⟨p.i + 1, Function.update p.pid p.i r, .condition⟩ := by
  simp [Process.forked, Process.next, hr.ne']

theorem step_cases (h : step n pool a = some pool') :
    (∃ k p, a = .condition k ∧ pool[k]? = some p ∧ p.place = .condition ∧
      pool' = pool.set k (p.condition n)) ∨
    (∃ k child p, a = .fork k child ∧ pool[k]? = some p ∧ p.place = .fork ∧ 0 < child ∧
      pool' = pool.set k (p.forked child) ++ [p.forked 0]) ∨
    (∃ k ok p, a = .execvp k ok ∧ pool[k]? = some p ∧ p.place = .execvp ∧
      pool' = pool.set k (p.execvp ok)) := by
  cases a with
  | condition k =>
    obtain ⟨p, hp, hstep⟩ := Option.bind_eq_some_iff.mp h
    obtain ⟨hpl, heq⟩ := Option.ite_none_right_eq_some.mp hstep
    exact Or.inl ⟨k, p, rfl, hp, hpl, (Option.some.inj heq).symm⟩
  | fork k child =>
    obtain ⟨p, hp, hstep⟩ := Option.bind_eq_some_iff.mp h
    obtain ⟨⟨hpl, _, hc⟩, heq⟩ := Option.ite_none_right_eq_some.mp hstep
    exact Or.inr (Or.inl ⟨k, child, p, rfl, hp, hpl, hc, (Option.some.inj heq).symm⟩)
  | execvp k ok =>
    obtain ⟨p, hp, hstep⟩ := Option.bind_eq_some_iff.mp h
    obtain ⟨hpl, heq⟩ := Option.ite_none_right_eq_some.mp hstep
    exact Or.inr (Or.inr ⟨k, ok, p, rfl, hp, hpl, (Option.some.inj heq).symm⟩)

def InLoop (n : ℕ) (pool : List Process) : Prop :=
  ∀ p ∈ pool, p.place = .fork → p.i < n

theorem inLoop_step (hI : InLoop n pool) (h : step n pool a = some pool') : InLoop n pool' := by
  obtain ⟨k, p, -, hp, hpl, rfl⟩ | ⟨k, child, p, -, hp, hpl, hc, rfl⟩ | ⟨k, ok, p, -, hp, hpl, rfl⟩ :=
    step_cases h
  · intro q hq hf
    rcases List.mem_or_eq_of_mem_set hq with hq | rfl
    · exact hI q hq hf
    · unfold Process.condition at hf ⊢
      split
      · assumption
      · simp_all
  · intro q hq hf
    rcases List.mem_append.mp hq with hq | hq
    · rcases List.mem_or_eq_of_mem_set hq with hq | rfl
      · exact hI q hq hf
      · rw [p.forked_pos hc] at hf
        cases hf
    · rw [List.mem_singleton.mp hq, p.forked_zero] at hf
      cases hf
  · intro q hq hf
    rcases List.mem_or_eq_of_mem_set hq with hq | rfl
    · exact hI q hq hf
    · cases ok with
      | false => cases hf
      | true => cases hf

theorem inLoop_initial : InLoop n (initial pid) := by
  intro p hp hf
  rw [List.mem_singleton.mp hp] at hf
  cases hf

/-- The number of steps that a process with `d` iterations left and its descendants can take. -/
def turns : ℕ → ℕ
  | 0 => 1
  | d + 1 => 3 + 2 * turns d

def Process.stepsLeft (n : ℕ) (p : Process) : ℕ :=
  match p.place with
  | .condition => turns (n - p.i)
  | .fork => 2 + 2 * turns (n - p.i - 1)
  | .execvp => 1 + turns (n - p.i - 1)
  | .past => 0
  | .replaced => 0

theorem turns_pos (d : ℕ) : 0 < turns d := by
  cases d with
  | zero => exact Nat.one_pos
  | succ d =>
    rw [turns]
    omega

theorem turns_of_lt {i : ℕ} (h : i < n) : turns (n - i) = 3 + 2 * turns (n - i - 1) := by
  have hd : n - i = (n - i - 1) + 1 := by omega
  rw [hd, turns, Nat.add_sub_cancel]

theorem Process.stepsLeft_condition (hp : p.place = .condition) :
    (p.condition n).stepsLeft n < p.stepsLeft n := by
  have hpos := turns_pos (n - p.i)
  unfold Process.condition
  split
  · have hturns := turns_of_lt (n := n) (i := p.i) ‹_›
    simp only [Process.stepsLeft, hp]
    omega
  · simp only [Process.stepsLeft, hp]
    exact hpos

theorem Process.stepsLeft_forked (hp : p.place = .fork) {r : ℤ} (hr : 0 < r) :
    (p.forked r).stepsLeft n + (p.forked 0).stepsLeft n < p.stepsLeft n := by
  rw [p.forked_pos hr, p.forked_zero]
  simp only [Process.stepsLeft, hp, ← Nat.sub_sub]
  omega

theorem Process.stepsLeft_execvp (hp : p.place = .execvp) (ok : Bool) :
    (p.execvp ok).stepsLeft n < p.stepsLeft n := by
  cases ok with
  | true =>
    simp only [Process.stepsLeft, Process.execvp, hp, if_true]
    omega
  | false =>
    simp only [Process.stepsLeft, Process.execvp, Process.next, hp, Bool.false_eq_true, if_false,
      ← Nat.sub_sub]
    omega

theorem stepsLeft_step (h : step n pool a = some pool') :
    (pool'.map (Process.stepsLeft n)).sum < (pool.map (Process.stepsLeft n)).sum := by
  obtain ⟨k, p, -, hp, hpl, rfl⟩ | ⟨k, child, p, -, hp, hpl, hc, rfl⟩ | ⟨k, ok, p, -, hp, hpl, rfl⟩ :=
    step_cases h
  · have hset := sum_map_set (Process.stepsLeft n) hp (p.condition n)
    have hlt := Process.stepsLeft_condition (n := n) hpl
    omega
  · have hset := sum_map_set (Process.stepsLeft n) hp (p.forked child)
    have hlt := Process.stepsLeft_forked (n := n) hpl hc
    rw [List.map_append, List.sum_append, List.map_singleton, List.sum_singleton]
    omega
  · have hset := sum_map_set (Process.stepsLeft n) hp (p.execvp ok)
    have hlt := Process.stepsLeft_execvp (n := n) hpl ok
    omega

theorem run_length_le (h : exec (step n) (initial pid) acts = some pool) :
    acts.length ≤ turns n := by
  have hle := exec_length_le (m := fun s => (s.map (Process.stepsLeft n)).sum)
    (fun _ _ _ hs => stepsLeft_step hs) h
  have hinit : ((initial pid).map (Process.stepsLeft n)).sum = turns n := rfl
  omega

/-- With `nprocesses` in the range of `pid` a process that is not done can go on, whatever the
outcome of its `execvp` and the pid of its child. -/
theorem Process.enabled (hn : n ≤ maxPids) (hI : InLoop n pool) (hp : pool[k]? = some p)
    (hd : ¬ p.Done) (ok : Bool) {child : ℤ} (hc : 0 < child) :
    ∃ b ∈ [Action.condition k, .fork k child, .execvp k ok], (step n pool b).isSome := by
  cases hpl : p.place with
  | condition => exact ⟨.condition k, by simp, by simp [step, hp, hpl]⟩
  | fork =>
    have hi : p.i < maxPids := (hI p (List.mem_of_getElem? hp) hpl).trans_le hn
    exact ⟨.fork k child, by simp, by simp [step, hp, hpl, hi, hc]⟩
  | execvp => exact ⟨.execvp k ok, by simp, by simp [step, hp, hpl]⟩
  | past => exact absurd (Or.inl hpl) hd
  | replaced => exact absurd (Or.inr hpl) hd

theorem settled_or_enabled (hn : n ≤ maxPids) (h : exec (step n) (initial pid) acts = some pool) :
    Settled pool ∨ ∃ b, (step n pool b).isSome := by
  have hI : InLoop n pool := exec_invariant (fun _ _ _ hI hs => inLoop_step hI hs) inLoop_initial h
  by_cases hs : Settled pool
  · exact Or.inl hs
  · right
    simp only [Settled, not_forall] at hs
    obtain ⟨p, hp, hd⟩ := hs
    obtain ⟨k, hk⟩ := List.mem_iff_getElem?.mp hp
    obtain ⟨b, -, hb⟩ := Process.enabled hn hI hk hd true Int.one_pos
    exact ⟨b, hb⟩

def Event.process : Event → ℕ
  | .iterates k => k
  | .leaves k => k

theorem event_condition (hp : pool[k]? = some p) :
    ∃ e, event n pool (.condition k) = some e ∧ e.process = k := by
  by_cases hi : p.i < n
  · exact ⟨.iterates k, by simp [event, hp, hi], rfl⟩
  · exact ⟨.leaves k, by simp [event, hp, hi], rfl⟩

def Process.Original (n size : ℕ) (p : Process) : Prop :=
  match p.place with
  | .condition => size = p.i + 1 ∧ p.i ≤ n
  | .fork => size = p.i + 1 ∧ p.i < n
  | .execvp => False
  | .past => size = n + 1
  | .replaced => False

structure Launching (n : ℕ) (pool : List Process) (es : List Event) : Prop where
  original : ∃ p, pool[0]? = some p ∧ p.Original n pool.length
  copies : ∀ k p, 0 < k → pool[k]? = some p → p.place = .execvp ∨ p.place = .replaced
  events : ∀ e ∈ es, e.process = 0

theorem launching_initial : Launching n (initial pid) [] where
  original := ⟨_, rfl, rfl, Nat.zero_le n⟩
  copies k p hk hp := by
    cases k with
    | zero => exact absurd hk (lt_irrefl 0)
    | succ k => cases hp
  events _ he := by cases he

theorem Process.Original.condition {size : ℕ} (hp : p.Original n size)
    (hpl : p.place = .condition) : (p.condition n).Original n size := by
  obtain ⟨hsize, hi⟩ : size = p.i + 1 ∧ p.i ≤ n := by simpa only [Process.Original, hpl] using hp
  unfold Process.condition
  split
  · exact ⟨hsize, ‹_›⟩
  · have hin : p.i = n := by omega
    exact hsize.trans (by rw [hin])

theorem Process.Original.forked {size : ℕ} (hp : p.Original n size) (hpl : p.place = .fork) {r : ℤ}
    (hr : 0 < r) : (p.forked r).Original n (size + 1) := by
  obtain ⟨hsize, hi⟩ : size = p.i + 1 ∧ p.i < n := by simpa only [Process.Original, hpl] using hp
  rw [p.forked_pos hr]
  exact ⟨by rw [hsize], hi⟩

theorem Launching.eq_zero (h : Launching n pool es) (hp : pool[k]? = some p)
    (hpl : p.place = .condition ∨ p.place = .fork) : k = 0 := by
  by_contra hk
  have hplace := h.copies k p (Nat.pos_of_ne_zero hk) hp
  rcases hpl with hpl | hpl <;> rw [hpl] at hplace <;> simp at hplace

theorem Launching.copies_set (h : Launching n pool es) (hq : 0 < k → q.place = .execvp ∨
    q.place = .replaced) : ∀ j r, 0 < j → (pool.set k q)[j]? = some r →
      r.place = .execvp ∨ r.place = .replaced := by
  intro j r hj hr
  rw [List.getElem?_set] at hr
  split at hr
  · subst k
    split at hr
    · obtain rfl := Option.some.inj hr
      exact hq hj
    · cases hr
  · exact h.copies j r hj hr

theorem launching_step (h : Launching n pool es) (hok : ∀ k, a ≠ .execvp k false)
    (hs : step n pool a = some pool') : Launching n pool' (es ++ (event n pool a).toList) := by
  obtain ⟨r, hr, horig⟩ := h.original
  obtain ⟨k, p, rfl, hp, hpl, rfl⟩ | ⟨k, child, p, rfl, hp, hpl, hc, rfl⟩ |
    ⟨k, ok, p, rfl, hp, hpl, rfl⟩ := step_cases hs
  · obtain rfl := h.eq_zero hp (Or.inl hpl)
    obtain rfl : p = r := Option.some.inj (hp.symm.trans hr)
    have hlt : 0 < pool.length := (List.getElem?_eq_some_iff.mp hp).1
    refine ⟨⟨p.condition n, ?_, ?_⟩, h.copies_set fun h0 => absurd h0 (lt_irrefl 0), ?_⟩
    · rw [List.getElem?_set_self hlt]
    · rw [List.length_set]
      exact horig.condition hpl
    · intro e he
      rcases List.mem_append.mp he with he | he
      · exact h.events e he
      · obtain ⟨e', he', hek⟩ := event_condition (n := n) hp
        rw [he'] at he
        obtain rfl := List.mem_singleton.mp he
        exact hek
  · obtain rfl := h.eq_zero hp (Or.inr hpl)
    obtain rfl : p = r := Option.some.inj (hp.symm.trans hr)
    have hlt : 0 < (pool.set 0 (p.forked child)).length := by
      rw [List.length_set]
      exact (List.getElem?_eq_some_iff.mp hp).1
    refine ⟨⟨p.forked child, ?_, ?_⟩, ?_, ?_⟩
    · rw [List.getElem?_append_left hlt, List.getElem?_set_self (by rwa [List.length_set] at hlt)]
    · rw [List.length_append, List.length_set, List.length_singleton]
      exact horig.forked hpl hc
    · intro j q hj hq
      have hmem := List.mem_of_getElem? hq
      rcases Nat.lt_or_ge j (pool.set 0 (p.forked child)).length with hjlt | hjge
      · rw [List.getElem?_append_left hjlt] at hq
        exact h.copies_set (fun h0 => absurd h0 (lt_irrefl 0)) j q hj hq
      · rw [List.getElem?_append_right hjge] at hq
        rw [List.mem_singleton.mp (List.mem_of_getElem? hq), p.forked_zero]
        exact Or.inl rfl
    · rw [show (event n pool (.fork 0 child)).toList = [] from rfl, List.append_nil]
      exact h.events
  · have hk : k ≠ 0 := by
      rintro rfl
      obtain rfl : p = r := Option.some.inj (hp.symm.trans hr)
      simp only [Process.Original, hpl] at horig
    obtain rfl : ok = true := by
      cases ok with
      | true => rfl
      | false => exact absurd rfl (hok k)
    refine ⟨⟨r, ?_, ?_⟩, h.copies_set fun _ => Or.inr rfl, ?_⟩
    · rw [List.getElem?_set_ne hk, hr]
    · rw [List.length_set]
      exact horig
    · rw [show (event n pool (.execvp k true)).toList = [] from rfl, List.append_nil]
      exact h.events

theorem launching_run (h : exec (step n) (initial pid) acts = some pool)
    (hok : ∀ k, Action.execvp k false ∉ acts) :
    Launching n pool (observe (step n) (event n) (initial pid) acts) :=
  observe_invariant_of_mem (fun _ _ _ _ ha hI hs => launching_step hI
    (fun k heq => hok k (heq ▸ ha)) hs) launching_initial h

theorem Launching.length_le (h : Launching n pool es) : pool.length ≤ n + 1 := by
  obtain ⟨p, -, horig⟩ := h.original
  unfold Process.Original at horig
  split at horig
  · omega
  · omega
  · exact horig.elim
  · omega
  · exact horig.elim

theorem Launching.length_eq (h : Launching n pool es) (hs : Settled pool) : pool.length = n + 1 := by
  obtain ⟨p, hp, horig⟩ := h.original
  rcases hs p (List.mem_of_getElem? hp) with hpl | hpl
  · simpa only [Process.Original, hpl] using horig
  · simp only [Process.Original, hpl] at horig

/-- A forked process has gone on in the loop or is about to. -/
def Strayed (pool : List Process) (es : List Event) : Prop :=
  ∃ k, 0 < k ∧ ((∃ e ∈ es, e.process = k) ∨ ∃ p, pool[k]? = some p ∧ p.place = .condition)

def Rooted (pool : List Process) : Prop :=
  ∀ p, pool[0]? = some p → p.place ≠ .execvp

theorem rooted_initial : Rooted (initial pid) := by
  intro p hp
  obtain rfl := Option.some.inj hp
  exact Place.noConfusion

theorem Process.condition_ne_execvp : (p.condition n).place ≠ .execvp := by
  unfold Process.condition
  split <;> exact Place.noConfusion

theorem Process.execvp_ne_execvp (ok : Bool) : (p.execvp ok).place ≠ .execvp := by
  cases ok <;> exact Place.noConfusion

theorem rooted_step (h : Rooted pool) (hs : step n pool a = some pool') : Rooted pool' := by
  have hset {k : ℕ} {q : Process} (hq : q.place ≠ .execvp) : Rooted (pool.set k q) := by
    intro r hr
    rw [List.getElem?_set] at hr
    split at hr
    · split at hr
      · obtain rfl := Option.some.inj hr
        exact hq
      · cases hr
    · exact h r hr
  obtain ⟨k, p, -, -, -, rfl⟩ | ⟨k, child, p, -, hp, -, hc, rfl⟩ | ⟨k, ok, p, -, -, -, rfl⟩ :=
    step_cases hs
  · exact hset Process.condition_ne_execvp
  · intro r hr
    have hk : k < pool.length := (List.getElem?_eq_some_iff.mp hp).1
    rw [List.getElem?_append_left (by rw [List.length_set]; omega)] at hr
    exact hset (by rw [p.forked_pos hc]; exact Place.noConfusion) r hr
  · exact hset (Process.execvp_ne_execvp ok)

theorem strayed_of_failure (h : Rooted pool) (hs : step n pool (.execvp k false) = some pool') :
    Strayed pool' es := by
  obtain ⟨p, hp, hstep⟩ := Option.bind_eq_some_iff.mp hs
  obtain ⟨hpl, heq⟩ := Option.ite_none_right_eq_some.mp hstep
  obtain rfl := Option.some.inj heq
  have hk : k ≠ 0 := by
    rintro rfl
    exact h p hp hpl
  exact ⟨k, Nat.pos_of_ne_zero hk, Or.inr ⟨_, List.getElem?_set_self
    (List.getElem?_eq_some_iff.mp hp).1, rfl⟩⟩

theorem strayed_step (h : Strayed pool es) (hs : step n pool a = some pool') :
    Strayed pool' (es ++ (event n pool a).toList) := by
  obtain ⟨k, hk, ⟨e, he, hek⟩ | ⟨p, hp, hpl⟩⟩ := h
  · exact ⟨k, hk, Or.inl ⟨e, List.mem_append_left _ he, hek⟩⟩
  · refine ⟨k, hk, ?_⟩
    have hlt : k < pool.length := (List.getElem?_eq_some_iff.mp hp).1
    have hne {j : ℕ} {q : Process} (hq : pool[j]? = some q) (hql : q.place ≠ .condition) : j ≠ k := by
      rintro rfl
      obtain rfl : q = p := Option.some.inj (hq.symm.trans hp)
      exact hql hpl
    obtain ⟨j, q, rfl, hq, -, rfl⟩ | ⟨j, child, q, rfl, hq, hql, -, rfl⟩ |
      ⟨j, ok, q, rfl, hq, hql, rfl⟩ := step_cases hs
    · by_cases hj : j = k
      · subst hj
        obtain ⟨e, he, hek⟩ := event_condition (n := n) hq
        exact Or.inl ⟨e, List.mem_append_right _ (by rw [he]; exact List.mem_singleton_self e), hek⟩
      · exact Or.inr ⟨p, by rw [List.getElem?_set_ne hj, hp], hpl⟩
    · have hj : j ≠ k := hne hq (by rw [hql]; exact Place.noConfusion)
      refine Or.inr ⟨p, ?_, hpl⟩
      rw [List.getElem?_append_left (by rwa [List.length_set]), List.getElem?_set_ne hj, hp]
    · have hj : j ≠ k := hne hq (by rw [hql]; exact Place.noConfusion)
      exact Or.inr ⟨p, by rw [List.getElem?_set_ne hj, hp], hpl⟩

theorem strayed_run (h : exec (step n) pool acts = some pool') (hr : Rooted pool)
    (hbad : Action.execvp k false ∈ acts ∨ Strayed pool es) :
    Strayed pool' (es ++ observe (step n) (event n) pool acts) := by
  induction acts generalizing pool es with
  | nil =>
    obtain rfl := Option.some.inj h
    rw [observe, List.append_nil]
    exact hbad.resolve_left List.not_mem_nil
  | cons b acts ih =>
    obtain ⟨u, hu, hrest⟩ := exec_cons_eq_some h
    rw [observe_cons hu, ← List.append_assoc]
    refine ih hrest (rooted_step hr hu) ?_
    rcases hbad with hmem | hstr
    · rcases List.mem_cons.mp hmem with rfl | hmem
      · exact Or.inr (strayed_of_failure hr hu)
      · exact Or.inl hmem
    · exact Or.inr (strayed_step hstr hu)

/-- Once every process is done, one that strayed has iterated or left the loop. -/
theorem Strayed.event (h : Strayed pool es) (hs : Settled pool) : ∃ e ∈ es, e.process ≠ 0 := by
  obtain ⟨k, hk, ⟨e, he, rfl⟩ | ⟨p, hp, hpl⟩⟩ := h
  · exact ⟨e, he, hk.ne'⟩
  · have hd := hs p (List.mem_of_getElem? hp)
    rw [Process.Done, hpl] at hd
    simp at hd

/-- `nprocesses` processes are created, and only the original one iterates or leaves the loop. -/
def Launched (n : ℕ) (pool : List Process) (es : List Event) : Prop :=
  pool.length = n + 1 ∧ ∀ e ∈ es, e.process = 0

/-- Every run of the launching loop ends, and it has launched `nprocesses` processes from the original
one if and only if no `execvp` failed; up to a failure nothing else has been forked either. -/
theorem launched_iff_no_execvp_fails (hn : n ≤ maxPids)
    (h : exec (step n) (initial pid) acts = some pool) :
    acts.length ≤ turns n ∧ (Settled pool ∨ ∃ b, (step n pool b).isSome) ∧
      ((∀ k, Action.execvp k false ∉ acts) → pool.length ≤ n + 1 ∧
        ∀ e ∈ observe (step n) (event n) (initial pid) acts, e.process = 0) ∧
      (Settled pool → (Launched n pool (observe (step n) (event n) (initial pid) acts) ↔
        ∀ k, Action.execvp k false ∉ acts)) := by
  refine ⟨run_length_le h, settled_or_enabled hn h, ?_, ?_⟩
  · intro hok
    have hl := launching_run h hok
    exact ⟨hl.length_le, hl.events⟩
  · intro hs
    constructor
    · intro hl k hk
      have hstrayed : Strayed pool ([] ++ observe (step n) (event n) (initial pid) acts) :=
        strayed_run h rooted_initial (Or.inl hk)
      obtain ⟨e, he, hne⟩ := hstrayed.event hs
      exact hne (hl.2 e he)
    · intro hok
      have hl := launching_run h hok
      exact ⟨hl.length_eq hs, hl.events⟩

def launchTwo : List Action :=
  [.condition 0, .fork 0 101, .execvp 1 true, .condition 0, .fork 0 102, .condition 0, .execvp 2 true]

theorem launched_iff_no_execvp_fails_two : 2 ≤ maxPids ∧
    Launched 2 [⟨2, Function.update (Function.update (fun _ => 0) 0 101) 1 102, .past⟩,
      ⟨0, Function.update (fun _ => 0) 0 0, .replaced⟩,
      ⟨1, Function.update (Function.update (fun _ => 0) 0 101) 1 0, .replaced⟩]
      (observe (step 2) (event 2) (initial fun _ => 0) launchTwo) :=
  ⟨by decide, ((launched_iff_no_execvp_fails (by decide) rfl).2.2.2 (by decide)).mpr
    (by simp [launchTwo])⟩

def failTwo : List Action :=
  [.condition 0, .fork 0 101, .execvp 1 false, .condition 1, .fork 1 102, .execvp 2 false,
    .condition 2, .condition 1, .condition 0, .fork 0 103, .execvp 3 false, .condition 3, .condition 0]

/-- Three processes are created, one of them by a forked process, and all four leave the loop. -/
theorem failures_stay_in_loop : ∃ pool, exec (step 2) (initial fun _ => 0) failTwo = some pool ∧
    Settled pool ∧ pool.length = 4 ∧
    Event.iterates 1 ∈ observe (step 2) (event 2) (initial fun _ => 0) failTwo ∧
    Event.leaves 2 ∈ observe (step 2) (event 2) (initial fun _ => 0) failTwo ∧
    ¬ Launched 2 pool (observe (step 2) (event 2) (initial fun _ => 0) failTwo) := by
  refine ⟨_, rfl, by decide, rfl, by decide, by decide, ?_⟩
  intro h
  exact absurd h.1 (by decide)

/-- The number of processes that stem from `p`, with itself, when every `execvp` fails. -/
def Process.heirs (n : ℕ) (p : Process) : ℕ :=
  match p.place with
  | .condition => 2 ^ (n - p.i)
  | .fork => 2 ^ (n - p.i)
  | .execvp => 2 ^ (n - p.i - 1)
  | .past => 1
  | .replaced => 1

theorem Process.heirs_pos (p : Process) : 0 < p.heirs n := by
  unfold Process.heirs
  split <;> positivity

theorem Process.heirs_condition (hp : p.place = .condition) :
    (p.condition n).heirs n = p.heirs n := by
  unfold Process.condition
  split
  · simp only [Process.heirs, hp]
  · have hi : n - p.i = 0 := by omega
    simp only [Process.heirs, hp, hi, Nat.pow_zero]

theorem Process.heirs_forked (hp : p.place = .fork) (hi : p.i < n) {r : ℤ} (hr : 0 < r) :
    (p.forked r).heirs n + (p.forked 0).heirs n = p.heirs n := by
  have hd : n - p.i = (n - p.i - 1) + 1 := by omega
  rw [p.forked_pos hr, p.forked_zero]
  simp only [Process.heirs, hp, ← Nat.sub_sub]
  rw [hd, Nat.add_sub_cancel, Nat.pow_succ, Nat.mul_two]

theorem Process.heirs_execvp_true (p : Process) : (p.execvp true).heirs n ≤ p.heirs n :=
  p.heirs_pos

theorem Process.heirs_execvp_false (hp : p.place = .execvp) :
    (p.execvp false).heirs n = p.heirs n := by
  simp only [Process.heirs, Process.execvp, Process.next, hp, Bool.false_eq_true, if_false,
    ← Nat.sub_sub]

/-- A step adds no heirs, and takes some away only where an `execvp` succeeds. -/
theorem heirs_step (hI : InLoop n pool) (hs : step n pool a = some pool') :
    (pool'.map (Process.heirs n)).sum ≤ (pool.map (Process.heirs n)).sum ∧
      ((∀ k, a ≠ .execvp k true) →
        (pool'.map (Process.heirs n)).sum = (pool.map (Process.heirs n)).sum) := by
  obtain ⟨k, p, -, hp, hpl, rfl⟩ | ⟨k, child, p, -, hp, hpl, hc, rfl⟩ | ⟨k, ok, p, rfl, hp, hpl, rfl⟩ :=
    step_cases hs
  · have hset := sum_map_set (Process.heirs n) hp (p.condition n)
    have heq := Process.heirs_condition (n := n) hpl
    exact ⟨by omega, fun _ => by omega⟩
  · have hset := sum_map_set (Process.heirs n) hp (p.forked child)
    have heq := Process.heirs_forked hpl (hI p (List.mem_of_getElem? hp) hpl) hc
    rw [List.map_append, List.sum_append, List.map_singleton, List.sum_singleton]
    exact ⟨by omega, fun _ => by omega⟩
  · have hset := sum_map_set (Process.heirs n) hp (p.execvp ok)
    cases ok with
    | true =>
      have hle := p.heirs_execvp_true (n := n)
      exact ⟨by omega, fun hno => absurd rfl (hno k)⟩
    | false =>
      have heq := Process.heirs_execvp_false (n := n) hpl
      exact ⟨by omega, fun _ => by omega⟩

theorem heirs_run (hI : InLoop n pool) (h : exec (step n) pool acts = some pool') :
    (pool'.map (Process.heirs n)).sum ≤ (pool.map (Process.heirs n)).sum ∧
      ((∀ k, Action.execvp k true ∉ acts) →
        (pool'.map (Process.heirs n)).sum = (pool.map (Process.heirs n)).sum) := by
  induction acts generalizing pool with
  | nil =>
    obtain rfl := Option.some.inj h
    exact ⟨le_rfl, fun _ => rfl⟩
  | cons b acts ih =>
    obtain ⟨u, hu, hrest⟩ := exec_cons_eq_some h
    have hhead := heirs_step hI hu
    have htail := ih (inLoop_step hI hu) hrest
    refine ⟨htail.1.trans hhead.1, fun hno => ?_⟩
    rw [htail.2 fun k hk => hno k (List.mem_cons_of_mem b hk)]
    exact hhead.2 fun k heq => hno k (heq ▸ List.mem_cons_self)

/-- Whatever fails, at most `2 ^ nprocesses` processes exist. -/
theorem pool_length_le (h : exec (step n) (initial pid) acts = some pool) :
    pool.length ≤ 2 ^ n := by
  have hsum := (heirs_run inLoop_initial h).1
  have hinit : ((initial pid).map (Process.heirs n)).sum = 2 ^ n := rfl
  have hlen := List.length_le_sum_of_one_le (pool.map (Process.heirs n)) fun m hm => by
    obtain ⟨p, -, rfl⟩ := List.mem_map.mp hm
    exact p.heirs_pos
  rw [List.length_map] at hlen
  omega

/-- With a command that cannot be executed the processes double with every iteration. -/
theorem pool_length_of_every_execvp_fails (h : exec (step n) (initial pid) acts = some pool)
    (hno : ∀ k, Action.execvp k true ∉ acts) (hs : ∀ p ∈ pool, p.place = .past) :
    pool.length = 2 ^ n := by
  have hsum := (heirs_run inLoop_initial h).2 hno
  have hone : pool.map (Process.heirs n) = pool.map fun _ => 1 :=
    List.map_congr_left fun p hp => by rw [Process.heirs, hs p hp]
  have hinit : ((initial pid).map (Process.heirs n)).sum = 2 ^ n := rfl
  rw [hone, hinit, List.map_const', List.sum_replicate_nat, Nat.mul_one] at hsum
  exact hsum

theorem place_ne_replaced (h : exec (step n) (initial pid) acts = some pool)
    (hno : ∀ k, Action.execvp k true ∉ acts) : ∀ p ∈ pool, p.place ≠ .replaced := by
  refine exec_invariant_of_mem (I := fun pool => ∀ p ∈ pool, p.place ≠ .replaced)
    (fun pool a pool' ha hI hs => ?_) (fun p hp => ?_) h
  · obtain ⟨k, p, rfl, hp, hpl, rfl⟩ | ⟨k, child, p, rfl, hp, hpl, hc, rfl⟩ |
      ⟨k, ok, p, rfl, hp, hpl, rfl⟩ := step_cases hs
    · intro q hq
      rcases List.mem_or_eq_of_mem_set hq with hq | rfl
      · exact hI q hq
      · unfold Process.condition
        split <;> exact fun heq => by cases heq
    · intro q hq
      rcases List.mem_append.mp hq with hq | hq
      · rcases List.mem_or_eq_of_mem_set hq with hq | rfl
        · exact hI q hq
        · rw [p.forked_pos hc]
          exact fun heq => by cases heq
      · rw [List.mem_singleton.mp hq, p.forked_zero]
        exact fun heq => by cases heq
    · cases ok with
      | true => exact absurd ha (hno k)
      | false =>
        intro q hq
        rcases List.mem_or_eq_of_mem_set hq with hq | rfl
        · exact hI q hq
        · exact fun heq => by cases heq
  · rw [List.mem_singleton.mp hp]
    exact fun heq => by cases heq

/-- Where no `execvp` succeeds, every run comes to an end, and it ends with `2 ^ nprocesses` processes
that all go on to wait and to report. -/
theorem failures_double (hn : n ≤ maxPids) (h : exec (step n) (initial pid) acts = some pool)
    (hno : ∀ k, Action.execvp k true ∉ acts) :
    acts.length ≤ turns n ∧ pool.length ≤ 2 ^ n ∧
      (Settled pool → pool.length = 2 ^ n ∧ ∀ p ∈ pool, p.place = .past) ∧
      (¬ Settled pool → ∃ b, (∀ k, b ≠ .execvp k true) ∧ (step n pool b).isSome) := by
  have hI : InLoop n pool := exec_invariant (fun _ _ _ hI hs => inLoop_step hI hs) inLoop_initial h
  refine ⟨run_length_le h, pool_length_le h, fun hs => ?_, fun hs => ?_⟩
  · have hpast : ∀ p ∈ pool, p.place = .past := fun p hp =>
      (hs p hp).resolve_right (place_ne_replaced h hno p hp)
    exact ⟨pool_length_of_every_execvp_fails h hno hpast, hpast⟩
  · simp only [Settled, not_forall] at hs
    obtain ⟨p, hp, hd⟩ := hs
    obtain ⟨k, hk⟩ := List.mem_iff_getElem?.mp hp
    obtain ⟨b, hb, henabled⟩ := Process.enabled hn hI hk hd false Int.one_pos
    refine ⟨b, fun j heq => ?_, henabled⟩
    subst heq
    simp at hb

theorem failures_double_two : ∃ pool, exec (step 2) (initial fun _ => 0) failTwo = some pool ∧
    pool.length = 2 ^ 2 ∧ ∀ p ∈ pool, p.place = .past := by
  have hsome : (exec (step 2) (initial fun _ => 0) failTwo).isSome := rfl
  have hsettled : (exec (step 2) (initial fun _ => 0) failTwo).all fun pool => Settled pool := by decide
  obtain ⟨pool, hpool⟩ := Option.isSome_iff_exists.mp hsome
  rw [hpool] at hsettled
  have hno : ∀ k, Action.execvp k true ∉ failTwo := by simp [failTwo]
  exact ⟨pool, hpool,
    (failures_double (by decide) hpool hno).2.2.1 (of_decide_eq_true hsettled)⟩

end CIS415.Launch
