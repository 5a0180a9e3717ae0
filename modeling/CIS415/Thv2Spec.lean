import CIS415.Thv2
import CIS415.Lib.Fairness
import Mathlib.Order.Nat

/-!
# What thv2 guarantees when nothing fails

The loops of `main` are the stages 0 to 5 of the original process. Where it stands says which children
exist, which of them have been sent which signal, and which have been waited for.
-/

namespace CIS415.Thv2

open System

variable {n k j : ℕ} {pool pool' : List Process} {a : Action} {as : List Action} {p q : Process}
  {cs : List Process} {pid : ℕ → ℤ}

def Signal.stage : Signal → ℕ
  | .usr1 => 1
  | .stop => 2
  | .cont => 3

def Place.stage : Place → ℕ
  | .launch => 0
  | .kill sig => sig.stage
  | .wait => 4
  | .report => 5
  | _ => 6

/-- The original has done for child `j` what it does at stage `m`. -/
def Process.Did (p : Process) (m j : ℕ) : Prop :=
  m < p.place.stage ∨ p.place.stage = m ∧ j < p.i

def Process.Before (p p' : Process) : Prop :=
  p.place.stage < p'.place.stage ∨ p.place.stage = p'.place.stage ∧ p.i < p'.i

structure Original (n : ℕ) (p : Process) (children : ℕ) : Prop where
  place : p.place.stage ≤ 5
  bound : p.i ≤ n
  launched : if p.place = .launch then children = p.i else children = n
  pid : ∀ j, j < children → p.pid j = (j + 1 : ℕ)
  received : p.received = 0
  usr1 : p.usr1Pending = false
  stop : p.stopPending = false
  running : p.stopped = false
  parent : p.parent = none

/-- A child that has been sent SIGUSR1 (`u`), SIGSTOP (`s`) and SIGCONT (`c`) and has been waited for
(`w`), as far as these hold. -/
structure Child (u s c w : Prop) (q : Process) : Prop where
  parent : q.parent = some 0
  place : q.place = .test ∨ q.place = .sleep ∨ q.place = .execvp ∨ q.place = .command ∨
    q.place = .zombie .exited ∨ q.place = .reaped .exited
  usr1 : q.received = 0 ∧ (q.usr1Pending = true ↔ u) ∨ q.received = 1 ∧ q.usr1Pending = false ∧ u
  started : q.place = .test ∨ q.place = .sleep ∨ q.received = 1
  reaped : w ↔ q.place = .reaped .exited
  held : q.stopPending = true ∨ q.stopped = true → s ∧ ¬ c

structure Family (n : ℕ) (p : Process) (cs : List Process) : Prop where
  original : Original n p cs.length
  child : ∀ j q, cs[j]? = some q → Child (p.Did 1 j) (p.Did 2 j) (p.Did 3 j) (p.Did 4 j) q

def Inv (n : ℕ) (pool : List Process) : Prop :=
  ∃ p cs, pool = p :: cs ∧ Family n p cs

theorem inv_initial : Inv n (initial pid) := by
  refine ⟨_, [], rfl, ⟨Nat.zero_le 5, Nat.zero_le n, ?_, ?_, rfl, rfl, rfl, rfl, rfl⟩, ?_⟩
  · rw [if_pos rfl]
    rfl
  · intro j hj
    cases hj
  · intro j q hq
    cases hq

theorem Child.congr {u s c w u' s' c' w' : Prop} (h : Child u s c w q) (hu : u' ↔ u) (hs : s' ↔ s)
    (hc : c' ↔ c) (hw : w' ↔ w) : Child u' s' c' w' q := by
  rw [hu, hs, hc, hw]
  exact h

theorem Family.next (h : Family n p cs) (place : Place) {i : ℕ} (hi : p.i = n)
    (hi' : i = 0 ∨ i = n ∧ place = .report) (hstage : p.place.stage < 5)
    (hp : place.stage = p.place.stage + 1) (hpl : place ≠ .launch) (hlaunch : cs.length = n) :
    Family n { p with place := place, i := i } cs := by
  have ho := h.original
  have hbound : i ≤ n := by
    rcases hi' with hzero | ⟨heq, -⟩
    · exact hzero ▸ Nat.zero_le n
    · exact Nat.le_of_eq heq
  refine ⟨⟨by simp only [hp]; omega, hbound, ?_, ho.pid, ho.received, ho.usr1, ho.stop,
    ho.running, ho.parent⟩, ?_⟩
  · rw [if_neg hpl]
    exact hlaunch
  · intro j q hq
    have hj : j < n := hlaunch ▸ (List.getElem?_eq_some_iff.mp hq).1
    have hlast : i = 0 ∨ place.stage = 5 := by
      rcases hi' with hzero | ⟨-, heq⟩
      · exact Or.inl hzero
      · exact Or.inr (heq ▸ rfl)
    have hdid : ∀ m, m ≤ 4 → (({ p with place := place, i := i } : Process).Did m j ↔ p.Did m j) := by
      intro m hm
      simp only [Process.Did]
      omega
    exact (h.child j q hq).congr (hdid 1 (by decide)) (hdid 2 (by decide)) (hdid 3 (by decide))
      (hdid 4 (by decide))

theorem Family.advance (h : Family n p cs) (hlaunch : cs.length = n) (hi : p.i < n)
    {q q' : Process} (hq : cs[p.i]? = some q) (hpl : p.place ≠ .launch)
    (hchild : Child (1 ≤ p.place.stage) (2 ≤ p.place.stage) (3 ≤ p.place.stage)
      (4 ≤ p.place.stage) q') :
    Family n { p with i := p.i + 1 } (cs.set p.i q') := by
  have ho := h.original
  refine ⟨⟨ho.place, hi, ?_, ?_, ho.received, ho.usr1, ho.stop, ho.running, ho.parent⟩, ?_⟩
  · rw [if_neg hpl, List.length_set]
    exact hlaunch
  · rw [List.length_set]
    exact ho.pid
  · intro j r hr
    by_cases hj : j = p.i
    · subst hj
      obtain ⟨hlt, -⟩ := List.getElem?_eq_some_iff.mp hq
      rw [List.getElem?_set_self hlt] at hr
      obtain rfl := Option.some.inj hr
      have hdid : ∀ m, ({ p with i := p.i + 1 } : Process).Did m p.i ↔ m ≤ p.place.stage := by
        intro m
        simp only [Process.Did]
        omega
      exact hchild.congr (hdid 1) (hdid 2) (hdid 3) (hdid 4)
    · rw [List.getElem?_set_ne (Ne.symm hj)] at hr
      have hdid : ∀ m, ({ p with i := p.i + 1 } : Process).Did m j ↔ p.Did m j := by
        intro m
        simp only [Process.Did]
        omega
      exact (h.child j r hr).congr (hdid 1) (hdid 2) (hdid 3) (hdid 4)

theorem Child.usr1_sent {s c w : Prop} (h : Child False s c w q) :
    Child True s c w (q.signal .usr1) where
  parent := h.parent
  place := h.place
  usr1 := by
    rcases h.usr1 with ⟨hr, -⟩ | ⟨-, -, hu⟩
    · exact Or.inl ⟨hr, iff_of_true rfl trivial⟩
    · exact hu.elim
  started := h.started
  reaped := h.reaped
  held := h.held

theorem Child.stop_sent {u s w : Prop} (h : Child u s False w q) :
    Child u True False w (q.signal .stop) where
  parent := h.parent
  place := h.place
  usr1 := h.usr1
  started := h.started
  reaped := h.reaped
  held _ := ⟨trivial, id⟩

theorem Child.cont_sent {u s c w : Prop} (h : Child u s c w q) :
    Child u s True w (q.signal .cont) where
  parent := h.parent
  place := h.place
  usr1 := h.usr1
  started := h.started
  reaped := h.reaped
  held hheld := by
    rcases hheld with hheld | hheld
    · cases hheld
    · cases hheld

/-- A child for which SIGUSR1 is pending is in its waiting loop. -/
theorem Child.pending {u s c w : Prop} (h : Child u s c w q) (hpend : q.usr1Pending = true) :
    q.received = 0 ∧ (q.place = .test ∨ q.place = .sleep) := by
  have hr : q.received = 0 := by
    rcases h.usr1 with ⟨hr, -⟩ | ⟨-, hno, -⟩
    · exact hr
    · cases hno.symm.trans hpend
  refine ⟨hr, ?_⟩
  rcases h.started with hpl | hpl | hone
  · exact Or.inl hpl
  · exact Or.inr hpl
  · cases hr.symm.trans hone

/-- The handler has counted the signal; the command cannot be killed by it. -/
theorem Child.handled {u s c w : Prop} (h : Child u s c w q) (hpend : q.usr1Pending = true) :
    Child u s c w q.usr1 := by
  obtain ⟨hr, hpl⟩ := h.pending hpend
  have hu : u := by
    rcases h.usr1 with ⟨-, hu⟩ | ⟨-, -, hu⟩
    · exact hu.mp hpend
    · exact hu
  have heq : q.usr1 = { q with usr1Pending := false, received := 1, place := .test } := by
    rcases hpl with hpl | hpl
    · simp only [Process.usr1, hpl, hr]
    · simp only [Process.usr1, hpl, hr]
  rw [heq]
  refine ⟨h.parent, Or.inl rfl, Or.inr ⟨rfl, rfl, hu⟩, Or.inl rfl, ?_, h.held⟩
  rw [h.reaped]
  rcases hpl with hpl | hpl
  · simp only [hpl, reduceCtorEq]
  · simp only [hpl, reduceCtorEq]

theorem Child.halted {u s c w : Prop} (h : Child u s c w q) (hpend : q.stopPending = true) :
    Child u s c w q.stop where
  parent := h.parent
  place := h.place
  usr1 := h.usr1
  started := h.started
  reaped := h.reaped
  held _ := h.held (Or.inl hpend)

theorem Child.move {u s c w : Prop} (h : Child u s c w q) {place : Place}
    (hpl : place = .test ∨ place = .sleep ∨ place = .execvp ∨ place = .command ∨
      place = .zombie .exited)
    (hstart : place = .test ∨ place = .sleep ∨ q.received = 1) (hnot : q.place ≠ .reaped .exited) :
    Child u s c w { q with place := place } where
  parent := h.parent
  place := by
    rcases hpl with hpl | hpl | hpl | hpl | hpl
    · exact Or.inl hpl
    · exact Or.inr (Or.inl hpl)
    · exact Or.inr (Or.inr (Or.inl hpl))
    · exact Or.inr (Or.inr (Or.inr (Or.inl hpl)))
    · exact Or.inr (Or.inr (Or.inr (Or.inr (Or.inl hpl))))
  usr1 := h.usr1
  started := hstart
  reaped := by
    rw [h.reaped]
    refine iff_of_false hnot ?_
    rcases hpl with rfl | rfl | rfl | rfl | rfl
    all_goals exact fun heq => by cases heq
  held := h.held

/-- A child that has got beyond its waiting loop has received its signal. -/
theorem Child.received {u s c w : Prop} (h : Child u s c w q) (htest : q.place ≠ .test)
    (hsleep : q.place ≠ .sleep) : q.received = 1 ∧ q.usr1Pending = false ∧ u := by
  have hone : q.received = 1 := (h.started.resolve_left htest).resolve_left hsleep
  rcases h.usr1 with ⟨hr, -⟩ | hr
  · cases hr.symm.trans hone
  · exact hr

theorem Child.not_launch {u s c w : Prop} (h : Child u s c w q) : q.place ≠ .launch := by
  rcases h.place with hpl | hpl | hpl | hpl | hpl | hpl
  all_goals rw [hpl]; exact fun heq => by cases heq

theorem Child.not_wait {u s c w : Prop} (h : Child u s c w q) : q.place ≠ .wait := by
  rcases h.place with hpl | hpl | hpl | hpl | hpl | hpl
  all_goals rw [hpl]; exact fun heq => by cases heq

theorem Family.set_child (h : Family n p cs) (hq : cs[j]? = some q) {q' : Process}
    (hq' : ∀ u s c w : Prop, Child u s c w q → Child u s c w q') : Family n p (cs.set j q') := by
  refine ⟨?_, fun m r hr => ?_⟩
  · rw [List.length_set]
    exact h.original
  · by_cases hm : m = j
    · subst hm
      obtain ⟨hlt, -⟩ := List.getElem?_eq_some_iff.mp hq
      rw [List.getElem?_set_self hlt] at hr
      obtain rfl := Option.some.inj hr
      exact hq' _ _ _ _ (h.child m q hq)
    · rw [List.getElem?_set_ne (Ne.symm hm)] at hr
      exact h.child m r hr

theorem modify_eq_set {f : Process → Process} (hq : cs[j]? = some q) :
    cs.modify j f = cs.set j (f q) := by
  apply List.ext_getElem?
  intro m
  by_cases hm : m = j
  · subst hm
    obtain ⟨hlt, -⟩ := List.getElem?_eq_some_iff.mp hq
    rw [List.getElem?_modify_eq, List.getElem?_set_self hlt, hq]
    rfl
  · rw [List.getElem?_modify_ne _ _ (Ne.symm hm), List.getElem?_set_ne (Ne.symm hm)]

theorem Family.next_child (h : Family n p cs) (hq : cs[p.i]? = some q) :
    Child (1 < p.place.stage) (2 < p.place.stage) (3 < p.place.stage) (4 < p.place.stage) q := by
  have hdid : ∀ m, m < p.place.stage ↔ p.Did m p.i := by
    intro m
    rw [Process.Did]
    omega
  exact (h.child p.i q hq).congr (hdid 1) (hdid 2) (hdid 3) (hdid 4)

theorem Original.children (h : Original n p cs.length) (hpl : p.place ≠ .launch) : cs.length = n := by
  have hl := h.launched
  rwa [if_neg hpl] at hl

theorem kill_child (hpid : p.pid p.i = (p.i + 1 : ℕ)) {sig : Signal} (hq : cs[p.i]? = some q) :
    kill 0 (p.pid p.i) sig ({ p with i := p.i + 1 } :: cs) =
      { p with i := p.i + 1 } :: cs.set p.i (q.signal sig) := by
  rw [kill, hpid, if_neg (by omega), if_neg (by omega), if_pos (by omega), Int.toNat_natCast,
    List.modify_succ_cons, modify_eq_set hq]

theorem Family.kill (h : Family n p cs) {sig : Signal} (hpl : p.place = .kill sig) (hi : p.i < n) :
    ∃ q', Thv2.kill 0 (p.pid p.i) sig ({ p with i := p.i + 1 } :: cs) =
      { p with i := p.i + 1 } :: cs.set p.i q' ∧
      Family n { p with i := p.i + 1 } (cs.set p.i q') := by
  have ho := h.original
  have hlaunch : p.place ≠ .launch := by
    rw [hpl]
    exact fun heq => by cases heq
  have hlen := ho.children hlaunch
  obtain ⟨q, hq⟩ : ∃ q, cs[p.i]? = some q := ⟨_, List.getElem?_eq_getElem (hlen ▸ hi)⟩
  have hpid := ho.pid p.i (hlen ▸ hi)
  refine ⟨_, kill_child hpid hq, h.advance hlen hi hq hlaunch ?_⟩
  have hold := h.next_child hq
  rw [hpl] at hold ⊢
  cases sig with
  | usr1 =>
    have hnone : Child False False False False q := by
      simpa [Place.stage, Signal.stage] using hold
    simpa [Place.stage, Signal.stage] using hnone.usr1_sent
  | stop =>
    have husr1 : Child True False False False q := by
      simpa [Place.stage, Signal.stage] using hold
    simpa [Place.stage, Signal.stage] using husr1.stop_sent
  | cont =>
    have hstop : Child True True False False q := by
      simpa [Place.stage, Signal.stage] using hold
    simpa [Place.stage, Signal.stage] using hstop.cont_sent

theorem Family.proceed (h : Family n p cs) (hs : Thv2.proceed n (p :: cs) 0 p = some pool') :
    ∃ p' cs', pool' = p' :: cs' ∧ Family n p' cs' ∧ p.Before p' := by
  have ho := h.original
  have hplace := ho.place
  rw [Thv2.proceed] at hs
  split at hs
  · rename_i hpl
    split_ifs at hs with hi
    obtain rfl := Option.some.inj hs
    have hin : p.i = n := le_antisymm ho.bound (not_lt.mp hi)
    have hlen : cs.length = n := by
      have hl := ho.launched
      rwa [if_pos hpl, hin] at hl
    have hstage : (Place.kill .usr1).stage = p.place.stage + 1 := by
      rw [hpl]
      rfl
    refine ⟨_, cs, rfl, h.next (.kill .usr1) hin (Or.inl rfl) ?_ hstage
      (fun heq => by cases heq) hlen, Or.inl (Nat.lt_of_succ_le (Nat.le_of_eq hstage.symm))⟩
    rw [hpl]
    exact Nat.zero_lt_succ 4
  · rename_i hpl
    rw [hpl] at hplace
    exact absurd hplace (by decide)
  · rename_i hpl
    rw [hpl] at hplace
    exact absurd hplace (by decide)
  · rename_i sig hpl
    have hlaunch : p.place ≠ .launch := by
      rw [hpl]
      exact fun heq => by cases heq
    split_ifs at hs with hi
    · obtain rfl := Option.some.inj hs
      obtain ⟨q', hkill, hfam⟩ := h.kill hpl hi
      exact ⟨_, _, hkill, hfam, Or.inr ⟨rfl, Nat.lt_succ_self p.i⟩⟩
    · obtain rfl := Option.some.inj hs
      have hin : p.i = n := le_antisymm ho.bound (not_lt.mp hi)
      have hstage : sig.next.stage = p.place.stage + 1 := by
        rw [hpl]
        cases sig <;> rfl
      refine ⟨_, cs, rfl, h.next sig.next hin (Or.inl rfl) ?_ hstage ?_ (ho.children hlaunch),
        Or.inl (Nat.lt_of_succ_le (Nat.le_of_eq hstage.symm))⟩
      · rw [hpl]
        cases sig <;> exact Nat.le_of_ble_eq_true rfl
      · cases sig <;> exact fun heq => by cases heq
  · rename_i hpl
    have hlaunch : p.place ≠ .launch := by
      rw [hpl]
      exact fun heq => by cases heq
    split_ifs at hs with hi
    obtain rfl := Option.some.inj hs
    have hin : p.i = n := le_antisymm ho.bound (not_lt.mp hi)
    have hstage : Place.report.stage = p.place.stage + 1 := by
      rw [hpl]
      rfl
    refine ⟨_, cs, rfl, h.next .report hin (Or.inr ⟨hin, rfl⟩) ?_ hstage (fun heq => by cases heq)
      (ho.children hlaunch), Or.inl (Nat.lt_of_succ_le (Nat.le_of_eq hstage.symm))⟩
    rw [hpl]
    exact Nat.lt_succ_self 4
  · cases hs

theorem Family.fork (h : Family n p cs) (hpl : p.place = .launch) (hi : p.i < n) :
    Family n (p.forked (p :: cs).length) (cs ++ [p.child 0]) := by
  have ho := h.original
  have hlen : cs.length = p.i := by
    have hl := ho.launched
    rwa [if_pos hpl] at hl
  have hforked : p.forked (p :: cs).length =
      { p with pid := Function.update p.pid p.i (p.i + 1 : ℕ), i := p.i + 1 } := by
    have hne : ((p.i + 1 : ℕ) : ℤ) ≠ 0 := by omega
    simp only [Process.forked, List.length_cons, hlen, Function.update_self, if_neg hne]
  have hdid : ∀ m j, 0 < m → ¬ p.Did m j := by
    intro m j hm
    rw [Process.Did, hpl]
    exact not_or.mpr ⟨Nat.not_lt_zero m, fun hd => (Nat.ne_of_lt hm) hd.1⟩
  have hdid' : ∀ m j, 0 < m → ¬ (p.forked (p :: cs).length).Did m j := by
    intro m j hm
    rw [hforked, Process.Did, hpl]
    exact not_or.mpr ⟨Nat.not_lt_zero m, fun hd => (Nat.ne_of_lt hm) hd.1⟩
  have hiff : ∀ m j, 0 < m → ((p.forked (p :: cs).length).Did m j ↔ p.Did m j) := fun m j hm =>
    iff_of_false (hdid' m j hm) (hdid m j hm)
  refine ⟨?_, fun j q hq => ?_⟩
  · rw [hforked]
    refine ⟨ho.place, hi, ?_, ?_, ho.received, ho.usr1, ho.stop, ho.running, ho.parent⟩
    · rw [if_pos hpl, List.length_append, hlen]
      rfl
    · intro j hj
      rw [List.length_append, List.length_singleton, hlen] at hj
      by_cases hjp : j = p.i
      · subst hjp
        exact Function.update_self ..
      · exact (Function.update_of_ne hjp ..).trans (ho.pid j (by omega))
  · by_cases hj : j < cs.length
    · rw [List.getElem?_append_left hj] at hq
      exact (h.child j q hq).congr (hiff 1 j (by decide)) (hiff 2 j (by decide))
        (hiff 3 j (by decide)) (hiff 4 j (by decide))
    · obtain ⟨hlt, hget⟩ := List.getElem?_eq_some_iff.mp hq
      rw [List.length_append, List.length_singleton] at hlt
      obtain rfl : j = cs.length := by omega
      rw [List.getElem_concat_length rfl] at hget
      subst hget
      have hchild : p.child 0 = { p with
          pid := Function.update p.pid p.i 0, place := .test, parent := some 0,
          usr1Pending := false, stopPending := false } := by
        simp only [Process.child, Process.forked, Function.update_self, if_true]
      rw [hchild]
      refine ⟨rfl, Or.inl rfl, Or.inl ⟨ho.received, ?_⟩, Or.inl rfl, ?_, ?_⟩
      · exact iff_of_false Bool.false_ne_true (hdid' 1 _ (by decide))
      · exact iff_of_false (hdid' 4 _ (by decide)) (fun heq => by cases heq)
      · rintro (hstop | hstopped)
        · cases hstop
        · rw [ho.running] at hstopped
          cases hstopped

theorem Family.reap (h : Family n p cs) (hpl : p.place = .wait) (hi : p.i < n)
    {child : Option ℕ} (hs : waitpid (p :: cs) 0 p child = some pool') :
    ∃ q, cs[p.i]? = some q ∧ q.place = .zombie .exited ∧ child = some (p.i + 1) ∧
      pool' = { p with i := p.i + 1 } :: cs.set p.i { q with place := .reaped .exited } ∧
      Family n { p with i := p.i + 1 } (cs.set p.i { q with place := .reaped .exited }) := by
  have ho := h.original
  have hlaunch : p.place ≠ .launch := by
    rw [hpl]
    exact fun heq => by cases heq
  have hlen := ho.children hlaunch
  have hpid := ho.pid p.i (hlen ▸ hi)
  obtain ⟨q, hq⟩ : ∃ q, cs[p.i]? = some q := ⟨_, List.getElem?_eq_getElem (hlen ▸ hi)⟩
  have hchild : Child True True True False q := by
    have hold := h.next_child hq
    rw [hpl] at hold
    simpa [Place.stage] using hold
  have hwaitable : q.place.waitable = true := by
    have hnot : q.place ≠ .reaped .exited := fun heq => hchild.reaped.mpr heq
    rcases hchild.place with hpl | hpl | hpl | hpl | hpl | hpl
    all_goals first | exact absurd hpl hnot | rw [hpl]; rfl
  cases child with
  | none =>
    -- the child has not been waited for
    have hhas : hasChild 0 (p.pid p.i) (p :: cs) = true := by
      rw [hasChild, List.any_eq_true]
      refine ⟨(q, p.i + 1), ?_, ?_⟩
      · rw [List.mem_zipIdx_iff_getElem?]
        exact hq
      · simp [hchild.parent, awaits, hpid, hwaitable]
    rw [waitpid, hhas, if_pos rfl] at hs
    cases hs
  | some j =>
    rw [waitpid] at hs
    obtain ⟨r, hr, hs⟩ := Option.bind_eq_some_iff.mp hs
    split at hs
    · rename_i e hz
      split_ifs at hs with hcond
      obtain rfl := Option.some.inj hs
      have hj : j = p.i + 1 := by
        have haw := hcond.2
        rw [hpid] at haw
        simp only [awaits, Bool.or_eq_true, decide_eq_true_eq] at haw
        omega
      subst hj
      rw [List.getElem?_cons_succ, hq] at hr
      obtain rfl := Option.some.inj hr
      have he : e = .exited := by
        rcases hchild.place with hpl | hpl | hpl | hpl | hpl | hpl
        all_goals first | exact (Place.zombie.inj (hz.symm.trans hpl)) | cases hz.symm.trans hpl
      subst he
      refine ⟨q, hq, hz, rfl, rfl, h.advance hlen hi hq hlaunch ?_⟩
      rw [hpl]
      have hone := hchild.received (by rw [hz]; exact fun heq => by cases heq)
        (by rw [hz]; exact fun heq => by cases heq)
      refine ⟨hchild.parent, ?_, Or.inr ⟨hone.1, hone.2.1, Nat.le_of_ble_eq_true rfl⟩,
        Or.inr (Or.inr hone.1), iff_of_true le_rfl rfl, fun hheld => ?_⟩
      · exact Or.inr (Or.inr (Or.inr (Or.inr (Or.inr rfl))))
      · exact absurd trivial (hchild.held hheld).2
    · cases hs

inductive ChildStep (k : ℕ) (q : Process) : Action → Process → Prop
  | test (hpl : q.place = .test) :
    ChildStep k q (.proceed k) { q with place := if q.received = 0 then .sleep else .execvp }
  | sleep (hpl : q.place = .sleep) : ChildStep k q (.proceed k) { q with place := .test }
  | execvp (hpl : q.place = .execvp) : ChildStep k q (.execvp k true) { q with place := .command }
  | exit (hpl : q.place = .command) : ChildStep k q (.exit k) { q with place := .zombie .exited }
  | usr1 (hpend : q.usr1Pending = true) : ChildStep k q (.deliver k .usr1) q.usr1
  | stop (hpend : q.stopPending = true) : ChildStep k q (.deliver k .stop) q.stop

theorem ChildStep.child {q' : Process} {u s c w : Prop} (h : ChildStep k q a q')
    (hq : Child u s c w q) : Child u s c w q' := by
  cases h with
  | test hpl =>
    have hnot : q.place ≠ .reaped .exited := by
      rw [hpl]
      exact fun heq => by cases heq
    by_cases hr : q.received = 0
    · rw [if_pos hr]
      exact hq.move (Or.inr (Or.inl rfl)) (Or.inr (Or.inl rfl)) hnot
    · rw [if_neg hr]
      have hone : q.received = 1 := by
        rcases hq.usr1 with ⟨hzero, -⟩ | ⟨hone, -⟩
        · exact absurd hzero hr
        · exact hone
      exact hq.move (Or.inr (Or.inr (Or.inl rfl))) (Or.inr (Or.inr hone)) hnot
  | sleep hpl =>
    refine hq.move (Or.inl rfl) (Or.inl rfl) ?_
    rw [hpl]
    exact fun heq => by cases heq
  | execvp hpl =>
    have hone := hq.received (by rw [hpl]; exact fun heq => by cases heq)
      (by rw [hpl]; exact fun heq => by cases heq)
    refine hq.move (Or.inr (Or.inr (Or.inr (Or.inl rfl)))) (Or.inr (Or.inr hone.1)) ?_
    rw [hpl]
    exact fun heq => by cases heq
  | exit hpl =>
    have hone := hq.received (by rw [hpl]; exact fun heq => by cases heq)
      (by rw [hpl]; exact fun heq => by cases heq)
    refine hq.move (Or.inr (Or.inr (Or.inr (Or.inr rfl)))) (Or.inr (Or.inr hone.1)) ?_
    rw [hpl]
    exact fun heq => by cases heq
  | usr1 hpend => exact hq.handled hpend
  | stop hpend => exact hq.halted hpend

def Action.process : Action → ℕ
  | .proceed k => k
  | .fork k _ => k
  | .execvp k _ => k
  | .waitpid k _ => k
  | .exit k => k
  | .deliver k _ => k

theorem Family.child_step (h : Family n p cs) (ha : a.Succeeds) (hk : a.process = j + 1)
    (hs : step n (p :: cs) a = some pool') :
    ∃ q q', cs[j]? = some q ∧ pool' = p :: cs.set j q' ∧ ChildStep (j + 1) q a q' := by
  cases a with
  | proceed k =>
    obtain rfl : k = j + 1 := hk
    obtain ⟨q, hq, hs⟩ := Option.bind_eq_some_iff.mp hs
    rw [List.getElem?_cons_succ] at hq
    split_ifs at hs with hrun
    refine ⟨q, ?_⟩
    rcases (h.child j q hq).place with hpl | hpl | hpl | hpl | hpl | hpl
    all_goals rw [Thv2.proceed, hpl] at hs
    · obtain rfl := Option.some.inj hs
      exact ⟨_, hq, rfl, .test hpl⟩
    · obtain rfl := Option.some.inj hs
      exact ⟨_, hq, rfl, .sleep hpl⟩
    all_goals cases hs
  | fork k succeeds =>
    obtain rfl : k = j + 1 := hk
    obtain ⟨q, hq, hs⟩ := Option.bind_eq_some_iff.mp hs
    split at hs
    · rename_i hcond
      exact absurd hcond.2.1 (h.child j q hq).not_launch
    · cases hs
  | execvp k succeeds =>
    obtain rfl : k = j + 1 := hk
    obtain rfl : succeeds = true := ha
    obtain ⟨q, hq, hs⟩ := Option.bind_eq_some_iff.mp hs
    split_ifs at hs with hcond
    obtain rfl := Option.some.inj hs
    exact ⟨q, _, hq, rfl, .execvp hcond.2⟩
  | waitpid k child =>
    obtain rfl : k = j + 1 := hk
    obtain ⟨q, hq, hs⟩ := Option.bind_eq_some_iff.mp hs
    split_ifs at hs with hcond
    exact absurd hcond.2.1 (h.child j q hq).not_wait
  | exit k =>
    obtain rfl : k = j + 1 := hk
    obtain ⟨q, hq, hs⟩ := Option.bind_eq_some_iff.mp hs
    split_ifs at hs with hcond
    obtain rfl := Option.some.inj hs
    exact ⟨q, _, hq, rfl, .exit hcond.2⟩
  | deliver k sig =>
    obtain rfl : k = j + 1 := hk
    cases sig with
    | usr1 =>
      obtain ⟨q, hq, hs⟩ := Option.bind_eq_some_iff.mp hs
      split_ifs at hs with hcond
      obtain rfl := Option.some.inj hs
      exact ⟨q, _, hq, rfl, .usr1 hcond.2.1⟩
    | stop =>
      obtain ⟨q, hq, hs⟩ := Option.bind_eq_some_iff.mp hs
      split_ifs at hs with hcond
      obtain rfl := Option.some.inj hs
      exact ⟨q, _, hq, rfl, .stop hcond.1⟩
    | cont => cases hs

theorem Family.original_step (h : Family n p cs) (ha : a.Succeeds) (hk : a.process = 0)
    (hs : step n (p :: cs) a = some pool') :
    ∃ p' cs', pool' = p' :: cs' ∧ Family n p' cs' ∧ p.Before p' := by
  have ho := h.original
  have hplace := ho.place
  cases a with
  | proceed k =>
    obtain rfl : k = 0 := hk
    rw [step, List.getElem?_cons_zero, Option.bind_eq_bind, Option.bind_some] at hs
    split_ifs at hs with hrun
    exact h.proceed hs
  | fork k succeeds =>
    obtain rfl : k = 0 := hk
    obtain rfl : succeeds = true := ha
    rw [step, List.getElem?_cons_zero, Option.bind_eq_bind, Option.bind_some] at hs
    rw [if_pos rfl] at hs
    split_ifs at hs with hcond
    obtain rfl := Option.some.inj hs
    obtain ⟨-, hpl, hi, -⟩ := hcond
    have hne : ((cs.length + 1 : ℕ) : ℤ) ≠ 0 := by omega
    refine ⟨_, _, rfl, h.fork hpl hi, Or.inr ?_⟩
    simp only [Process.forked, List.length_cons, Function.update_self, if_neg hne]
    exact ⟨trivial, Nat.lt_succ_self p.i⟩
  | execvp k succeeds =>
    obtain rfl : k = 0 := hk
    rw [step, List.getElem?_cons_zero, Option.bind_eq_bind, Option.bind_some] at hs
    split_ifs at hs with hcond
    rw [hcond.2] at hplace
    exact absurd hplace (by decide)
  | waitpid k child =>
    obtain rfl : k = 0 := hk
    rw [step, List.getElem?_cons_zero, Option.bind_eq_bind, Option.bind_some] at hs
    split_ifs at hs with hcond
    obtain ⟨-, hpl, hi⟩ := hcond
    obtain ⟨q, -, -, -, hpool, hfam⟩ := h.reap hpl hi hs
    exact ⟨_, _, hpool, hfam, Or.inr ⟨rfl, Nat.lt_succ_self p.i⟩⟩
  | exit k =>
    obtain rfl : k = 0 := hk
    rw [step, List.getElem?_cons_zero, Option.bind_eq_bind, Option.bind_some] at hs
    split_ifs at hs with hcond
    rw [hcond.2] at hplace
    exact absurd hplace (by decide)
  | deliver k sig =>
    obtain rfl : k = 0 := hk
    cases sig with
    | usr1 =>
      rw [step, List.getElem?_cons_zero, Option.bind_eq_bind, Option.bind_some] at hs
      split_ifs at hs with hcond
      exact absurd (ho.usr1.symm.trans hcond.2.1) Bool.false_ne_true
    | stop =>
      rw [step, List.getElem?_cons_zero, Option.bind_eq_bind, Option.bind_some] at hs
      split_ifs at hs with hcond
      exact absurd (ho.stop.symm.trans hcond.1) Bool.false_ne_true
    | cont => cases hs

/-- The original gets further, or one child takes a step. -/
theorem Family.step_cases (h : Family n p cs) (ha : a.Succeeds)
    (hs : step n (p :: cs) a = some pool') :
    (∃ p' cs', pool' = p' :: cs' ∧ Family n p' cs' ∧ p.Before p') ∨
      ∃ j q q', a.process = j + 1 ∧ cs[j]? = some q ∧ pool' = p :: cs.set j q' ∧
        Family n p (cs.set j q') ∧ ChildStep (j + 1) q a q' := by
  cases hk : a.process with
  | zero => exact Or.inl (h.original_step ha hk hs)
  | succ j =>
    obtain ⟨q, q', hq, hpool, hstep⟩ := h.child_step ha hk hs
    exact Or.inr ⟨j, q, q', rfl, hq, hpool, h.set_child hq fun _ _ _ _ hc => hstep.child hc, hstep⟩

theorem inv_step (h : Inv n pool) (ha : a.Succeeds) (hs : step n pool a = some pool') :
    Inv n pool' := by
  obtain ⟨p, cs, rfl, hfam⟩ := h
  rcases hfam.step_cases ha hs with ⟨p', cs', hpool, hfam', -⟩ | ⟨j, q, q', -, -, hpool, hfam', -⟩
  · exact ⟨p', cs', hpool, hfam'⟩
  · exact ⟨p, _, hpool, hfam'⟩

theorem inv_run (h : exec (step n) (initial pid) as = some pool)
    (ha : ∀ a ∈ as, a.Succeeds) : Inv n pool :=
  exec_invariant_of_mem (fun _ a _ hmem hI hs => inv_step hI (ha a hmem) hs) inv_initial h

theorem Family.of_report (h : Family n p cs) (hpl : p.place = .report) (hq : q ∈ cs) :
    q.place = .reaped .exited ∧ q.received = 1 := by
  obtain ⟨j, hj⟩ := List.getElem?_of_mem hq
  have hchild := h.child j q hj
  have hreaped : q.place = .reaped .exited := by
    rw [← hchild.reaped, Process.Did, hpl]
    exact Or.inl (Nat.lt_succ_self 4)
  refine ⟨hreaped, (hchild.received ?_ ?_).1⟩
  · rw [hreaped]
    exact fun heq => by cases heq
  · rw [hreaped]
    exact fun heq => by cases heq

/-- A child that has been sent a signal is one of all. -/
theorem Family.launched (h : Family n p cs) {m : ℕ} (hm : 0 < m) (hd : p.Did m j) :
    cs.length = n := by
  apply h.original.children
  intro hpl
  rw [Process.Did, hpl] at hd
  rcases hd with hlt | ⟨heq, -⟩
  · exact Nat.not_lt_zero m hlt
  · exact Nat.ne_of_lt hm heq

/-- A child is stopped only while the original sends SIGSTOP and SIGCONT. -/
theorem Family.stopping (h : Family n p cs) (hq : cs[j]? = some q)
    (hheld : q.stopPending = true ∨ q.stopped = true) :
    p.place = .kill .stop ∨ p.place = .kill .cont := by
  obtain ⟨hs, hc⟩ := (h.child j q hq).held hheld
  have hle : 2 ≤ p.place.stage ∧ p.place.stage ≤ 3 := by
    simp only [Process.Did] at hs hc
    omega
  cases hpl : p.place with
  | kill sig =>
    cases sig with
    | usr1 =>
      rw [hpl] at hle
      exact absurd hle (by decide)
    | stop => exact Or.inl rfl
    | cont => exact Or.inr rfl
  | _ =>
    rw [hpl] at hle
    exact absurd hle (by simp [Place.stage])

/-- The original forks every child before any child goes on to `execvp`, and each of those has received
SIGUSR1 once. No command is killed by the signal, no child stays stopped, and when the original gets to
the report every child has exited and has been waited for. -/
theorem launched_together (h : exec (step n) (initial pid) as = some pool)
    (ha : ∀ a ∈ as, a.Succeeds) :
    ∃ p cs, pool = p :: cs ∧ cs.length ≤ n ∧ (p.place = .report → cs.length = n) ∧
      ∀ q ∈ cs, q.place ≠ .launch ∧ q.place ≠ .zombie .killed ∧ q.place ≠ .reaped .killed ∧
        (q.place ≠ .test ∧ q.place ≠ .sleep → cs.length = n ∧ q.received = 1) ∧
        (q.stopped = true → p.place = .kill .stop ∨ p.place = .kill .cont) ∧
        (p.place = .report → q.place = .reaped .exited ∧ q.received = 1) := by
  obtain ⟨p, cs, rfl, hfam⟩ := inv_run h ha
  have hlen : cs.length ≤ n := by
    have hl := hfam.original.launched
    split at hl
    · exact hl ▸ hfam.original.bound
    · exact Nat.le_of_eq hl
  refine ⟨p, cs, rfl, hlen, fun hpl => ?_, fun q hq => ?_⟩
  · apply hfam.original.children
    rw [hpl]
    exact fun heq => by cases heq
  · obtain ⟨j, hj⟩ := List.getElem?_of_mem hq
    have hchild := hfam.child j q hj
    have hkilled : q.place ≠ .zombie .killed ∧ q.place ≠ .reaped .killed := by
      rcases hchild.place with hpl | hpl | hpl | hpl | hpl | hpl
      all_goals rw [hpl]; exact ⟨(fun heq => by cases heq), (fun heq => by cases heq)⟩
    refine ⟨hchild.not_launch, hkilled.1, hkilled.2, fun hpl => ?_,
      fun hstop => hfam.stopping hj (Or.inr hstop), fun hpl => hfam.of_report hpl hq⟩
    obtain ⟨hone, -, hu⟩ := hchild.received hpl.1 hpl.2
    exact ⟨hfam.launched Nat.one_pos hu, hone⟩

def runTwo : List Action :=
  [.fork 0 true, .proceed 1, .fork 0 true, .proceed 0, .proceed 0, .deliver 1 .usr1, .proceed 0,
    .deliver 2 .usr1, .proceed 2, .proceed 0, .proceed 0, .deliver 1 .stop, .proceed 0, .proceed 0,
    .execvp 2 true, .proceed 0, .proceed 0, .proceed 0, .proceed 1, .execvp 1 true, .exit 1,
    .waitpid 0 (some 1), .exit 2, .waitpid 0 (some 2), .proceed 0]

theorem launched_together_two :
    ∃ pool, exec (step 2) (initial fun _ => 0) runTwo = some pool ∧ ∃ p cs, pool = p :: cs ∧
      cs.length ≤ 2 ∧ (p.place = .report → cs.length = 2) ∧
      ∀ q ∈ cs, q.place ≠ .launch ∧ q.place ≠ .zombie .killed ∧ q.place ≠ .reaped .killed ∧
        (q.place ≠ .test ∧ q.place ≠ .sleep → cs.length = 2 ∧ q.received = 1) ∧
        (q.stopped = true → p.place = .kill .stop ∨ p.place = .kill .cont) ∧
        (p.place = .report → q.place = .reaped .exited ∧ q.received = 1) := by
  have hrun : (exec (step 2) (initial fun _ => 0) runTwo).isSome = true := by decide
  obtain ⟨pool, hpool⟩ := Option.isSome_iff_exists.mp hrun
  exact ⟨pool, hpool, launched_together hpool (by decide)⟩

end CIS415.Thv2
