import CIS415.Thv1

/-!
# Which processes thv1.c waits for

Every run ends. A process has each child that it has still to wait for in its array, at an index that its
loop of `waitpid` comes to, also where some `fork` or `execvp` has failed.
-/

namespace CIS415.Thv1

open System
open Launch (maxPids)
open Thv2 (awaits)

variable {n i j k m : ℕ} {p p' q : Process} {pool pool' : List Process} {a : Action}
  {acts : List Action} {pid : ℕ → ℤ}

theorem Process.forked_of_ne {r : ℤ} (hr : r ≠ 0) :
    p.forked r = ⟨p.i + 1, Function.update p.pid p.i r, p.parent, .condition⟩ := by
  simp [Process.forked, Process.next, hr]

theorem Process.child_eq (p : Process) (k : ℕ) :
    p.child k = ⟨p.i, Function.update p.pid p.i 0, some k, .execvp⟩ := by
  simp [Process.child, Process.forked]

inductive Move (n : ℕ) (pool : List Process) : Action → List Process → Prop
  | condition (k : ℕ) (p : Process) (hp : pool[k]? = some p) (hplace : p.place = .condition) :
    Move n pool (.condition k) (pool.set k (p.condition n))
  | forked (k : ℕ) (p : Process) (hp : pool[k]? = some p) (hplace : p.place = .fork)
      (hmax : p.i < maxPids) :
    Move n pool (.fork k true) (pool.set k (p.forked pool.length) ++ [p.child k])
  | refused (k : ℕ) (p : Process) (hp : pool[k]? = some p) (hplace : p.place = .fork) :
    Move n pool (.fork k false) (pool.set k (p.forked (-1)))
  | execvp (k : ℕ) (ok : Bool) (p : Process) (hp : pool[k]? = some p) (hplace : p.place = .execvp) :
    Move n pool (.execvp k ok) (pool.set k (p.execvp ok))
  | exit (k : ℕ) (p : Process) (hp : pool[k]? = some p) (hplace : p.place = .command) :
    Move n pool (.exit k) (pool.set k { p with place := .zombie .exited })
  | reaps (k j : ℕ) (p q : Process) (e : Ending) (hp : pool[k]? = some p) (hplace : p.place = .wait)
      (hi : p.i < n) (hq : pool[j]? = some q) (hzombie : q.place = .zombie e)
      (hparent : q.parent = some k) (hawaits : awaits (p.pid p.i) j) :
    Move n pool (.waitpid k (some j)) ((pool.set j { q with place := .reaped e }).set k p.waited)
  | noChild (k : ℕ) (p : Process) (hp : pool[k]? = some p) (hplace : p.place = .wait) (hi : p.i < n)
      (hnone : hasChild k (p.pid p.i) pool = false) :
    Move n pool (.waitpid k none) (pool.set k p.waited)
  | report (k : ℕ) (p : Process) (hp : pool[k]? = some p) (hplace : p.place = .wait) (hi : n ≤ p.i) :
    Move n pool (.report k) (pool.set k { p with place := .zombie .returned })

theorem move_of_step (h : step n pool a = some pool') : Move n pool a pool' := by
  cases a with
  | condition k =>
    obtain ⟨p, hp, h⟩ := Option.bind_eq_some_iff.mp h
    obtain ⟨hplace, heq⟩ := Option.ite_none_right_eq_some.mp h
    obtain rfl := Option.some.inj heq
    exact .condition k p hp hplace
  | fork k ok =>
    obtain ⟨p, hp, h⟩ := Option.bind_eq_some_iff.mp h
    obtain ⟨⟨hplace, hmax⟩, heq⟩ := Option.ite_none_right_eq_some.mp h
    obtain rfl := Option.some.inj heq
    cases ok with
    | true => exact .forked k p hp hplace hmax
    | false => exact .refused k p hp hplace
  | execvp k ok =>
    obtain ⟨p, hp, h⟩ := Option.bind_eq_some_iff.mp h
    obtain ⟨hplace, heq⟩ := Option.ite_none_right_eq_some.mp h
    obtain rfl := Option.some.inj heq
    exact .execvp k ok p hp hplace
  | exit k =>
    obtain ⟨p, hp, h⟩ := Option.bind_eq_some_iff.mp h
    obtain ⟨hplace, heq⟩ := Option.ite_none_right_eq_some.mp h
    obtain rfl := Option.some.inj heq
    exact .exit k p hp hplace
  | waitpid k child =>
    obtain ⟨p, hp, h⟩ := Option.bind_eq_some_iff.mp h
    obtain ⟨⟨hplace, hi⟩, h⟩ := Option.ite_none_right_eq_some.mp h
    cases child with
    | none =>
      rw [waitpid] at h
      split_ifs at h with hhas
      obtain rfl := Option.some.inj h
      exact .noChild k p hp hplace hi (Bool.eq_false_iff.mpr hhas)
    | some j =>
      obtain ⟨q, hq, h⟩ := Option.bind_eq_some_iff.mp h
      split at h
      · rename_i e hzombie
        obtain ⟨⟨hparent, hawaits⟩, heq⟩ := Option.ite_none_right_eq_some.mp h
        obtain rfl := Option.some.inj heq
        exact .reaps k j p q e hp hplace hi hq hzombie hparent hawaits
      · cases h
  | report k =>
    obtain ⟨p, hp, h⟩ := Option.bind_eq_some_iff.mp h
    obtain ⟨⟨hplace, hi⟩, heq⟩ := Option.ite_none_right_eq_some.mp h
    obtain rfl := Option.some.inj heq
    exact .report k p hp hplace (Nat.le_of_not_lt hi)

/-- The number of steps that a process with `d` iterations left and its descendants can take. -/
def turns (n : ℕ) : ℕ → ℕ
  | 0 => n + 2
  | d + 1 => 3 + 2 * turns n d

theorem turns_eq (n d : ℕ) : turns n d + 3 = (n + 5) * 2 ^ d := by
  induction d with
  | zero => rw [turns, Nat.pow_zero, Nat.mul_one]
  | succ d ih =>
    rw [turns, Nat.pow_succ, ← Nat.mul_assoc, ← ih]
    omega

theorem two_le_turns (n d : ℕ) : 2 ≤ turns n d := by
  cases d with
  | zero => exact Nat.le_add_left 2 n
  | succ d =>
    rw [turns]
    omega

theorem turns_of_lt (h : i < n) : turns n (n - i) = 3 + 2 * turns n (n - i - 1) := by
  obtain ⟨d, hd⟩ : ∃ d, n - i = d + 1 := Nat.exists_eq_succ_of_ne_zero (Nat.sub_ne_zero_of_lt h)
  rw [hd, turns, Nat.add_sub_cancel]

def Process.stepsLeft (n : ℕ) (p : Process) : ℕ :=
  match p.place with
  | .condition => turns n (n - p.i)
  | .fork => 2 + 2 * turns n (n - p.i - 1)
  | .execvp => 1 + turns n (n - p.i - 1)
  | .command => 1
  | .wait => n - p.i + 1
  | .zombie _ => 0
  | .reaped _ => 0

theorem Process.stepsLeft_condition (hplace : p.place = .condition) :
    (p.condition n).stepsLeft n < p.stepsLeft n := by
  unfold Process.condition
  split_ifs with hi
  · have hturns := turns_of_lt hi
    simp only [Process.stepsLeft, hplace]
    omega
  · have hd : n - p.i = 0 := Nat.sub_eq_zero_of_le (Nat.le_of_not_lt hi)
    simp only [Process.stepsLeft, hplace, hd, turns]
    omega

theorem stepsLeft_step (h : step n pool a = some pool') :
    (pool'.map (Process.stepsLeft n)).sum < (pool.map (Process.stepsLeft n)).sum := by
  have hless : ∀ {k : ℕ} {p p' : Process}, pool[k]? = some p → p'.stepsLeft n < p.stepsLeft n →
      ((pool.set k p').map (Process.stepsLeft n)).sum < (pool.map (Process.stepsLeft n)).sum := by
    intro k p p' hp hlt
    have hset := sum_map_set (Process.stepsLeft n) hp p'
    omega
  cases move_of_step h with
  | condition k p hp hplace => exact hless hp (Process.stepsLeft_condition hplace)
  | forked k p hp hplace hmax =>
    have hset := sum_map_set (Process.stepsLeft n) hp (p.forked pool.length)
    have hne : (pool.length : ℤ) ≠ 0 := by
      have hlt := (List.getElem?_eq_some_iff.mp hp).1
      omega
    rw [List.map_append, List.sum_append, List.map_singleton, List.sum_singleton]
    rw [Process.forked_of_ne hne] at hset ⊢
    rw [Process.child_eq]
    simp only [Process.stepsLeft, hplace, ← Nat.sub_sub] at hset ⊢
    omega
  | refused k p hp hplace =>
    refine hless hp ?_
    rw [Process.forked_of_ne (by decide)]
    simp only [Process.stepsLeft, hplace, ← Nat.sub_sub]
    omega
  | execvp k ok p hp hplace =>
    refine hless hp ?_
    have hturns := two_le_turns n (n - p.i - 1)
    cases ok with
    | true =>
      simp only [Process.stepsLeft, Process.execvp, hplace, if_true]
      omega
    | false =>
      simp only [Process.stepsLeft, Process.execvp, Process.next, hplace, Bool.false_eq_true, if_false,
        ← Nat.sub_sub]
      omega
  | exit k p hp hplace =>
    refine hless hp ?_
    simp only [Process.stepsLeft, hplace]
    omega
  | reaps k j p q e hp hplace hi hq hzombie hparent hawaits =>
    have hjk : j ≠ k := by
      rintro rfl
      obtain rfl := Option.some.inj (hp.symm.trans hq)
      cases hplace.symm.trans hzombie
    have hfirst := sum_map_set (Process.stepsLeft n) hq { q with place := .reaped e }
    have hp' : (pool.set j { q with place := .reaped e })[k]? = some p := by
      rwa [List.getElem?_set_ne hjk]
    have hset := sum_map_set (Process.stepsLeft n) hp' p.waited
    have hreaped : ({ q with place := .reaped e } : Process).stepsLeft n = q.stepsLeft n := by
      simp only [Process.stepsLeft, hzombie]
    have hwaited : p.waited.stepsLeft n < p.stepsLeft n := by
      simp only [Process.stepsLeft, Process.waited, hplace]
      omega
    omega
  | noChild k p hp hplace hi hnone =>
    refine hless hp ?_
    simp only [Process.stepsLeft, Process.waited, hplace]
    omega
  | report k p hp hplace hi =>
    refine hless hp ?_
    simp only [Process.stepsLeft, hplace]
    omega

theorem run_length_le (h : exec (step n) (initial pid) acts = some pool) :
    acts.length + 3 ≤ (n + 5) * 2 ^ n := by
  have hle := exec_length_le (m := fun s => (s.map (Process.stepsLeft n)).sum)
    (fun _ _ _ hs => stepsLeft_step hs) h
  have hinit : ((initial pid).map (Process.stepsLeft n)).sum = turns n n := rfl
  rw [← turns_eq n n]
  omega

def Process.InLoop (n : ℕ) (p : Process) : Prop :=
  match p.place with
  | .condition => p.i ≤ n
  | .fork => p.i < n
  | .execvp => p.i < n
  | _ => True

/-- The loop of `waitpid` has still to come to index `m`, which has been assigned. -/
def Process.Owes (n m : ℕ) (p : Process) : Prop :=
  match p.place with
  | .condition => m < p.i
  | .fork => m < p.i
  | .wait => p.i ≤ m ∧ m < n
  | _ => False

structure Family (n : ℕ) (pool : List Process) : Prop where
  inLoop : ∀ p ∈ pool, p.InLoop n
  lineage : ∀ (j : ℕ) (q : Process), pool[j]? = some q → q.parent.elim (j = 0) (· < j)
  owed : ∀ (j : ℕ) (q : Process) (k : ℕ), pool[j]? = some q → q.parent = some k →
    q.place.waitable → ∃ (p : Process) (m : ℕ), pool[k]? = some p ∧ p.Owes n m ∧ p.pid m = j

theorem Family.parent_lt (h : Family n pool) (hq : pool[j]? = some q) (hparent : q.parent = some k) :
    k < j := by
  have hline := h.lineage j q hq
  rwa [hparent] at hline

theorem eq_of_initial (h : (initial pid)[j]? = some q) :
    j = 0 ∧ q = ⟨0, pid, none, .condition⟩ := by
  rw [initial, List.getElem?_singleton] at h
  obtain ⟨hj, hq⟩ := Option.ite_none_right_eq_some.mp h
  exact ⟨hj, (Option.some.inj hq).symm⟩

theorem family_initial : Family n (initial pid) where
  inLoop p hp := by
    rw [List.mem_singleton.mp hp]
    exact Nat.zero_le n
  lineage j q hq := by
    obtain ⟨rfl, rfl⟩ := eq_of_initial hq
    rfl
  owed j q k hq hparent _ := by
    obtain ⟨rfl, rfl⟩ := eq_of_initial hq
    cases hparent

theorem Family.set (h : Family n pool) (hp : pool[k]? = some p) (hloop : p'.InLoop n)
    (hparent : p'.parent = p.parent) (hwait : p'.place.waitable → p.place.waitable)
    (howes : ∀ (j : ℕ) (q : Process) (m : ℕ), pool[j]? = some q → q.parent = some k →
      q.place.waitable → p.Owes n m → p.pid m = j → p'.Owes n m ∧ p'.pid m = j) :
    Family n (pool.set k p') := by
  have hlt := (List.getElem?_eq_some_iff.mp hp).1
  -- every process of the new pool has one of the old at its place
  have hold : ∀ (j : ℕ) (q : Process), (pool.set k p')[j]? = some q →
      ∃ q₀ : Process, pool[j]? = some q₀ ∧ q.parent = q₀.parent ∧
        (q.place.waitable → q₀.place.waitable) := by
    intro j q hq
    rw [List.getElem?_set] at hq
    split_ifs at hq with hkj
    · subst hkj
      rw [← Option.some.inj hq]
      exact ⟨p, hp, hparent, hwait⟩
    · exact ⟨q, hq, rfl, id⟩
  refine ⟨?_, ?_, ?_⟩
  · intro q hq
    rcases List.mem_or_eq_of_mem_set hq with hq | rfl
    · exact h.inLoop q hq
    · exact hloop
  · intro j q hq
    obtain ⟨q₀, hq₀, hpar, -⟩ := hold j q hq
    rw [hpar]
    exact h.lineage j q₀ hq₀
  · intro j q k' hq hq' hw
    obtain ⟨q₀, hq₀, hpar, hw₀⟩ := hold j q hq
    obtain ⟨r, m, hr, hrowes, hrpid⟩ := h.owed j q₀ k' hq₀ (hpar ▸ hq') (hw₀ hw)
    by_cases hkk : k = k'
    · subst hkk
      obtain rfl := Option.some.inj (hp.symm.trans hr)
      exact ⟨p', m, List.getElem?_set_self hlt,
        howes j q₀ m hq₀ (hpar ▸ hq') (hw₀ hw) hrowes hrpid⟩
    · exact ⟨r, m, by rwa [List.getElem?_set_ne hkk], hrowes, hrpid⟩

theorem Family.append (h : Family n pool) (hloop : q.InLoop n) (hparent : q.parent = some k)
    (hp : pool[k]? = some p) (howes : p.Owes n m) (hpid : p.pid m = pool.length) :
    Family n (pool ++ [q]) := by
  have hlt := (List.getElem?_eq_some_iff.mp hp).1
  have hkeep : ∀ {j : ℕ} {r : Process}, pool[j]? = some r → (pool ++ [q])[j]? = some r := by
    intro j r hr
    rwa [List.getElem?_append_left (List.getElem?_eq_some_iff.mp hr).1]
  refine ⟨?_, ?_, ?_⟩
  · intro r hr
    rcases List.mem_append.mp hr with hr | hr
    · exact h.inLoop r hr
    · rwa [List.mem_singleton.mp hr]
  · intro j r hr
    rcases getElem?_concat_eq_some hr with hr | ⟨rfl, rfl⟩
    · exact h.lineage j r hr
    · rw [hparent]
      exact hlt
  · intro j r k' hr hpar hw
    rcases getElem?_concat_eq_some hr with hr | ⟨rfl, rfl⟩
    · obtain ⟨p', m', hp', howes', hpid'⟩ := h.owed j r k' hr hpar hw
      exact ⟨p', m', hkeep hp', howes', hpid'⟩
    · obtain rfl := Option.some.inj (hparent.symm.trans hpar)
      exact ⟨p, m, hkeep hp, howes, hpid⟩

theorem hasChild_iff {r : ℤ} : hasChild k r pool = true ↔
    ∃ (j : ℕ) (q : Process), pool[j]? = some q ∧ q.parent = some k ∧ awaits r j = true ∧
      q.place.waitable := by
  rw [hasChild, List.any_eq_true]
  constructor
  · rintro ⟨⟨q, j⟩, hmem, hq⟩
    have hall : (q.parent = some k ∧ awaits r j = true) ∧ q.place.waitable := by
      simpa only [Bool.and_eq_true, decide_eq_true_eq] using hq
    exact ⟨j, q, List.mem_zipIdx_iff_getElem?.mp hmem, hall.1.1, hall.1.2, hall.2⟩
  · rintro ⟨j, q, hq, hparent, hawaits, hw⟩
    refine ⟨(q, j), List.mem_zipIdx_iff_getElem?.mpr hq, ?_⟩
    simp only [hparent, hawaits, hw, decide_true, Bool.and_self]

theorem eq_of_awaits {r : ℤ} (hr : r = j) (hj : 0 < j) (h : awaits r k = true) : k = j := by
  simp only [awaits, hr, Bool.or_eq_true, decide_eq_true_eq] at h
  omega

theorem awaits_self (j : ℕ) : awaits j j = true := by
  simp [awaits]

theorem Family.lt_of_fork (h : Family n pool) (hp : pool[k]? = some p) (hplace : p.place = .fork) :
    p.i < n := by
  simpa only [Process.InLoop, hplace] using h.inLoop p (List.mem_of_getElem? hp)

/-- A process that has no children to wait for moves. -/
theorem Family.set_free (h : Family n pool) (hp : pool[k]? = some p) (hfree : ∀ m, ¬ p.Owes n m)
    (hloop : p'.InLoop n) (hparent : p'.parent = p.parent)
    (hwait : p'.place.waitable → p.place.waitable) : Family n (pool.set k p') :=
  h.set hp hloop hparent hwait fun _ _ m _ _ _ hm _ => absurd hm (hfree m)

theorem Family.condition (h : Family n pool) (hp : pool[k]? = some p) (hplace : p.place = .condition) :
    Family n (pool.set k (p.condition n)) := by
  have hloop : p.i ≤ n := by
    simpa only [Process.InLoop, hplace] using h.inLoop p (List.mem_of_getElem? hp)
  have howes : ∀ m, p.Owes n m ↔ m < p.i := fun m => by simp only [Process.Owes, hplace]
  unfold Process.condition
  split_ifs with hi
  · refine h.set hp hi rfl (fun _ => by rw [hplace]; rfl) ?_
    intro j q m hq hparent hw hm hpid
    exact ⟨(howes m).mp hm, hpid⟩
  · refine h.set hp trivial rfl (fun _ => by rw [hplace]; rfl) ?_
    intro j q m hq hparent hw hm hpid
    exact ⟨⟨Nat.zero_le m, Nat.lt_of_lt_of_le ((howes m).mp hm) hloop⟩, hpid⟩

theorem Family.forked (h : Family n pool) (hp : pool[k]? = some p) (hplace : p.place = .fork) {r : ℤ}
    (hr : r ≠ 0) : Family n (pool.set k (p.forked r)) := by
  rw [p.forked_of_ne hr]
  refine h.set hp (h.lt_of_fork hp hplace) rfl (fun _ => by rw [hplace]; rfl) ?_
  intro j q m hq hparent hw hm hpid
  have hmi : m < p.i := by simpa only [Process.Owes, hplace] using hm
  exact ⟨Nat.lt_succ_of_lt hmi, (Function.update_of_ne (Nat.ne_of_lt hmi) _ _).trans hpid⟩

/-- A process goes on in its loop of `waitpid` when the pid there is that of no child left. -/
theorem Family.waited (h : Family n pool) (hp : pool[k]? = some p) (hplace : p.place = .wait)
    (hnone : ∀ (j : ℕ) (q : Process), pool[j]? = some q → q.parent = some k → q.place.waitable →
      p.pid p.i ≠ j) : Family n (pool.set k p.waited) := by
  refine h.set hp (by simp only [Process.InLoop, Process.waited, hplace]) rfl id ?_
  intro j q m hq hparent hw hm hpid
  obtain ⟨him, hmn⟩ : p.i ≤ m ∧ m < n := by simpa only [Process.Owes, hplace] using hm
  have hne : p.i ≠ m := by
    rintro rfl
    exact hnone j q hq hparent hw hpid
  have howes : p.i + 1 ≤ m ∧ m < n := ⟨Nat.lt_of_le_of_ne him hne, hmn⟩
  exact ⟨by simpa only [Process.Owes, Process.waited, hplace] using howes, hpid⟩

theorem family_step (h : Family n pool) (hs : step n pool a = some pool') : Family n pool' := by
  cases move_of_step hs with
  | condition k p hp hplace => exact h.condition hp hplace
  | forked k p hp hplace hmax =>
    have hlt := (List.getElem?_eq_some_iff.mp hp).1
    have hne : (pool.length : ℤ) ≠ 0 := by omega
    have hi : p.i < n := h.lt_of_fork hp hplace
    refine (h.forked hp hplace hne).append ?_ rfl (List.getElem?_set_self hlt) (m := p.i) ?_ ?_
    · rw [Process.child_eq]
      exact hi
    · rw [p.forked_of_ne hne]
      exact Nat.lt_succ_self p.i
    · rw [p.forked_of_ne hne, List.length_set]
      exact Function.update_self p.i _ p.pid
  | refused k p hp hplace => exact h.forked hp hplace (by decide)
  | execvp k ok p hp hplace =>
    have hi : p.i < n := by
      simpa only [Process.InLoop, hplace] using h.inLoop p (List.mem_of_getElem? hp)
    refine h.set_free hp (fun m => by simp only [Process.Owes, hplace, not_false_iff]) ?_
      (by cases ok <;> rfl) fun _ => by rw [hplace]; rfl
    cases ok with
    | true => trivial
    | false => exact hi
  | exit k p hp hplace =>
    exact h.set_free hp (fun m => by simp only [Process.Owes, hplace, not_false_iff]) trivial rfl
      fun _ => by rw [hplace]; rfl
  | reaps k j p q e hp hplace hi hq hzombie hparent hawaits =>
    have hjk : j ≠ k := Nat.ne_of_gt (h.parent_lt hq hparent)
    have hlt := (List.getElem?_eq_some_iff.mp hq).1
    have hreap : Family n (pool.set j { q with place := .reaped e }) :=
      h.set_free hq (fun m => by simp only [Process.Owes, hzombie, not_false_iff]) trivial rfl
        fun hw => by cases hw
    refine hreap.waited (by rwa [List.getElem?_set_ne hjk]) hplace ?_
    intro j' q' hq' hparent' hw hpid
    -- the child whose pid the call names is the one that has been waited for
    obtain rfl := eq_of_awaits hpid (Nat.zero_lt_of_lt (hreap.parent_lt hq' hparent')) hawaits
    rw [List.getElem?_set_self hlt] at hq'
    rw [← Option.some.inj hq'] at hw
    cases hw
  | noChild k p hp hplace hi hnone =>
    refine h.waited hp hplace fun j q hq hparent hw hpid => ?_
    have hhas : hasChild k (p.pid p.i) pool = true :=
      hasChild_iff.mpr ⟨j, q, hq, hparent, by rw [hpid]; exact awaits_self j, hw⟩
    exact Bool.false_ne_true (hnone.symm.trans hhas)
  | report k p hp hplace hi =>
    refine h.set_free hp (fun m hm => ?_) trivial rfl fun _ => by rw [hplace]; rfl
    have howes : p.i ≤ m ∧ m < n := by simpa only [Process.Owes, hplace] using hm
    omega

theorem family_run (h : exec (step n) (initial pid) acts = some pool) : Family n pool :=
  exec_invariant (fun _ _ _ hF hs => family_step hF hs) family_initial h

end CIS415.Thv1
