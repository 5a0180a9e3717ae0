import CIS415.DiskDriverFlag

/-!
# Waiting and waking

In `DiskDriver` a thread in `pthread_cond_wait` may go on at any time. Here it goes on once it has been
woken: `pthread_cond_signal` wakes the thread that waits on the condition of the voucher (there is at
most one), and a spurious wake-up is an action of its own. A run of this system is a run of the driver. No
wake-up is lost: a thread that sleeps waits for a request which the worker has yet to complete or to
signal.
-/

namespace CIS415.DiskDriver

open Ownership System

variable {T D : Type} {s s' : State T D} {place : VoucherPtr → Place T} {done : Kind → ℕ} {t u : T}
  {k : Kind} {v : VoucherPtr} {r : Request} {out : Option (Option D)} {st : ℤ}

/-- The voucher on whose condition a worker is about to call `pthread_cond_signal`. -/
def State.signals (s : State T D) (k : Kind) : Option VoucherPtr :=
  match s.worker k with
  | .busy .signal v => some v
  | _ => none

structure WakeState (T D : Type) where
  base : State T D
  woken : T → Bool

inductive WakeAction (T D : Type) where
  | act (a : Action T D)
  | spurious (t : T)

def WakeAction.base : WakeAction T D → Action T D
  | .act a => a
  | .spurious t => .app t

def initWake : WakeState T D :=
  ⟨initDiskDriver, fun _ => false⟩

section Step

variable [DecidableEq T]

def WakeState.wakes (x : WakeState T D) : Action T D → T → Bool
  | .app t => Function.update x.woken t false
  | .work k _ => fun t =>
    x.woken t || (x.base.sleeps t).isSome && x.base.sleeps t == x.base.signals k
  | _ => x.woken

omit [DecidableEq T] in
def WakeState.asleep (x : WakeState T D) (t : T) : Bool :=
  (x.base.sleeps t).isSome && !x.woken t

omit [DecidableEq T] in
def WakeState.blocked (x : WakeState T D) : Action T D → Bool
  | .app t => x.asleep t
  | _ => false

def wakeStep (x : WakeState T D) : WakeAction T D → Option (WakeState T D)
  | .act a =>
    if x.blocked a then none
    else (step x.base a).map fun s => ⟨s, x.wakes a⟩
  | .spurious t =>
    if x.asleep t then (step x.base (.app t)).map fun s => ⟨s, x.wakes (.app t)⟩
    else none

variable {x y : WakeState T D}

theorem wakeStep_base {a : WakeAction T D} (h : wakeStep x a = some y) :
    step x.base a.base = some y.base ∧ y.woken = x.wakes a.base := by
  cases a with
  | act a =>
    rw [wakeStep] at h
    split_ifs at h
    obtain ⟨s, hs, rfl⟩ := Option.map_eq_some_iff.mp h
    exact ⟨hs, rfl⟩
  | spurious t =>
    rw [wakeStep] at h
    split_ifs at h
    obtain ⟨s, hs, rfl⟩ := Option.map_eq_some_iff.mp h
    exact ⟨hs, rfl⟩

theorem wakeStep_act {a : Action T D} (hb : x.blocked a = false) (hs : step x.base a = some s') :
    wakeStep x (.act a) = some ⟨s', x.wakes a⟩ := by
  rw [wakeStep, hb, if_neg Bool.false_ne_true, hs, Option.map_some]

end Step

/-- What holds in every state reached: the completed flags are set, a call about to wait has found that
its request is not completed, and one that sleeps has not missed the signal. -/
structure WakeOk (x : WakeState T D) : Prop where
  sound : Sound x.base
  flags : x.base.FlagsSet
  release : ∀ t r out, x.base.app t = .redeem .release r out → x.base.finished r.kind ≤ r.index
  asleep : ∀ t r out, x.base.app t = .redeem .wait r out → x.woken t = false →
    x.base.finished r.kind ≤ r.index ∨ x.base.worker r.kind = .busy .signal r.v

variable [DecidableEq T] {x y : WakeState T D}

omit [DecidableEq T] in
theorem wakeOk_init : WakeOk (initWake : WakeState T D) where
  sound := ⟨⟨_, _, inv_init⟩, locks_init⟩
  flags r hr := by
    rcases hr with hr | ⟨t, ht⟩
    · cases hr
    · cases ht
  release t r out ht := by cases ht
  asleep t r out ht := by cases ht

/-- The request that a worker completes is not that of a call which holds the mutex of its voucher. -/
theorem finished_release (hinv : Inv s place done) (ht : s.app t = .redeem .release r out)
    (hle : s.finished r.kind ≤ r.index) (hs : step s (.work k st) = some s') :
    s'.finished r.kind ≤ r.index := by
  rcases work_completes hs with ⟨hfin, -⟩ | ⟨v, hw, hw', hdev, -⟩
  · rwa [hfin]
  · by_cases hk : r.kind = k
    · obtain ⟨n, o, hp, hn, hm, -⟩ := hinv.place_worker hw
      have hp' := hinv.place_redeem (t := t) (r := r) (by rw [ht]; rfl)
      have hm' : (s.voucher r.v).mute = some (.app t) := by
        have hok := hinv.app_ok t
        rw [ht] at hok
        exact hok.1 rfl
      have hne : r.index ≠ n := by
        intro hri
        rw [hinv.recorded.index_unique hp hp' hk hri, hm] at hm'
        cases hm'
      have hd := hinv.logged.done_eq k
      rw [hw] at hd
      rw [hinv.finished_eq, hk] at hle
      rw [hk, State.finished, hw', hdev]
      change (s.device k).length - 0 ≤ r.index
      change (s.device k).length = done k + 1 at hd
      omega
    · obtain ⟨hwk, hdk⟩ := (work_frame hs).others r.kind hk
      rwa [State.finished, hwk, hdk]

/-- A worker's step leaves a call that waits asleep only before its request is signalled. -/
theorem asleep_work (hinv : Inv s place done) (ht : s.app t = .redeem .wait r out)
    (h : s.finished r.kind ≤ r.index ∨ s.worker r.kind = .busy .signal r.v)
    (hsig : s.signals k ≠ some r.v) (hs : step s (.work k st) = some s') :
    s'.finished r.kind ≤ r.index ∨ s'.worker r.kind = .busy .signal r.v := by
  by_cases hk : r.kind = k
  · rcases h with hle | hw
    · rcases work_completes hs with ⟨hfin, -⟩ | ⟨v, hw, hw', hdev, -⟩
      · exact Or.inl (by rwa [hfin])
      · obtain ⟨n, o, hp, hn, -⟩ := hinv.place_worker hw
        have hp' := hinv.place_redeem (t := t) (r := r) (by rw [ht]; rfl)
        by_cases hri : r.index = n
        · rw [hk, hw', hinv.recorded.index_unique hp hp' hk hri]
          exact Or.inr rfl
        · have hd := hinv.logged.done_eq k
          rw [hw] at hd
          rw [hinv.finished_eq, hk] at hle
          refine Or.inl ?_
          rw [hk, State.finished, hw', hdev]
          change (s.device k).length - 0 ≤ r.index
          change (s.device k).length = done k + 1 at hd
          omega
    · rw [hk] at hw
      exact absurd (by rw [State.signals, hw]) hsig
  · obtain ⟨hwk, hdk⟩ := (work_frame hs).others r.kind hk
    rwa [State.finished, hwk, hdk]

theorem WakeOk.work (h : WakeOk x) (hs : step x.base (.work k st) = some y.base)
    (hy : y.woken = x.wakes (.work k st)) : WakeOk y := by
  obtain ⟨⟨place, done, hinv⟩, -⟩ := h.sound
  have hframe := work_frame hs
  refine ⟨sound_step _ _ _ h.sound hs, flagsSet_work hinv h.flags hs, ?_, ?_⟩
  · intro t r out ht
    rw [hframe.app] at ht
    exact finished_release hinv ht (h.release t r out ht) hs
  · intro t r out ht hwoken
    rw [hframe.app] at ht
    have hsleeps : x.base.sleeps t = some r.v := by
      rw [State.sleeps, ht]
    rw [hy] at hwoken
    obtain ⟨hold, hnot⟩ := Bool.or_eq_false_iff.mp hwoken
    refine asleep_work hinv ht (h.asleep t r out ht hold) ?_ hs
    intro hsig
    rw [hsleeps, hsig] at hnot
    simp at hnot

theorem WakeOk.thread (h : WakeOk x) {a : Action T D} (hs : step x.base a = some y.base)
    (hframe : AppFrame x.base t y.base) (hwoken : ∀ u, u ≠ t → y.woken u = x.woken u)
    (hself : ∀ ph r out, y.base.app t = .redeem ph r out → ph = .lock ∨
      ∃ ph' out', x.base.app t = .redeem ph' r out' ∧
        (ph.left < ph'.left ∨ ph' = .test ∧ ph = .release ∧
          (x.base.voucher r.v).completed ≠ 1)) : WakeOk y := by
  have hfin : y.base.finished = x.base.finished := by
    funext k
    rw [State.finished, State.finished, hframe.device, hframe.worker]
  obtain ⟨⟨place, done, hinv⟩, -⟩ := h.sound
  refine ⟨sound_step _ _ _ h.sound hs, flagsSet_step hinv h.flags hs, ?_, ?_⟩
  · intro u r out hu
    rw [hfin]
    by_cases hut : u = t
    · subst hut
      rcases hself _ r out hu with hlock | ⟨ph, out', ht, hlt | ⟨rfl, -, hc⟩⟩
      · cases hlock
      · -- no phase has more steps to go
        cases ph <;> exact absurd hlt (by simp [RedeemPhase.left])
      · by_contra hlt
        exact hc (h.flags r (Or.inr ⟨u, by rw [ht]; rfl⟩) (not_le.mp hlt))
    · exact h.release u r out (hframe.others u hut ▸ hu)
  · intro u r out hu hw
    rw [hfin, hframe.worker]
    by_cases hut : u = t
    · subst hut
      rcases hself _ r out hu with hlock | ⟨ph, out', ht, hlt | ⟨-, hph, -⟩⟩
      · cases hlock
      · cases ph with
        | release => exact Or.inl (h.release u r out' ht)
        | _ => exact absurd hlt (by simp [RedeemPhase.left])
      · cases hph
    · exact h.asleep u r out (hframe.others u hut ▸ hu) (hwoken u hut ▸ hw)

theorem WakeOk.call (h : WakeOk x) {a : Action T D} (hs : step x.base a = some y.base)
    (ha : ∀ u, a ≠ .app u) (ha' : ∀ k st, a ≠ .work k st) (hwoken : y.woken = x.woken)
    {pc : AppPC D} (happ : y.base.app = Function.update x.base.app t pc)
    (hpc : ∀ ph r out, pc = .redeem ph r out → ph = .lock) : WakeOk y := by
  rcases step_cases hs with ⟨u, hu, hframe⟩ | ⟨k, st, hk, -⟩
  · refine h.thread hs hframe (fun _ _ => by rw [hwoken]) fun ph r out hr => ?_
    rw [happ] at hr
    by_cases hut : u = t
    · subst hut
      rw [Function.update_self] at hr
      exact Or.inl (hpc ph r out hr)
    · rw [Function.update_of_ne hut, hu.resolve_left (ha u)] at hr
      cases hr
  · exact absurd hk (ha' k st)

theorem WakeOk.step {a : WakeAction T D} (h : WakeOk x) (hs : wakeStep x a = some y) :
    WakeOk y := by
  obtain ⟨hbase, hwoken⟩ := wakeStep_base hs
  generalize a.base = b at hbase hwoken
  cases b with
  | work k st => exact h.work hbase hwoken
  | app t =>
    refine h.thread hbase (appStep_frame hbase) (fun u hu => ?_) fun ph r out ht =>
      Or.inr (app_redeem hbase ht)
    rw [hwoken]
    exact Function.update_of_ne hu ..
  | submit t k b sd =>
    have happ : y.base.app = Function.update x.base.app t (.take k b sd) := by
      rw [DiskDriver.step] at hbase
      split at hbase
      · rw [← Option.some.inj hbase]
        rfl
      · cases hbase
    exact h.call hbase (fun _ ha => by cases ha) (fun _ _ ha => by cases ha) hwoken happ
      fun ph r out heq => by cases heq
  | redeem t r =>
    have happ : y.base.app = Function.update x.base.app t (.redeem .lock r none) := by
      rw [DiskDriver.step] at hbase
      split at hbase
      · split_ifs at hbase
        rw [← Option.some.inj hbase]
        rfl
      · cases hbase
    exact h.call hbase (fun _ ha => by cases ha) (fun _ _ ha => by cases ha) hwoken happ
      fun ph r' out heq => (AppPC.redeem.inj heq).1.symm

/-- In every state reached, whatever the interleaving and the spurious wake-ups. -/
theorem wakeOk_run {as : List (WakeAction T D)} (h : exec wakeStep initWake as = some x) :
    WakeOk x :=
  exec_invariant (fun _ _ _ hx hs => hx.step hs) wakeOk_init h

omit [DecidableEq T] in
/-- At most one thread waits on the condition of a voucher, so it is the one that a signal wakes. -/
theorem one_sleeper (hinv : Inv s place done) (ht : s.sleeps t = some v) (hu : s.sleeps u = some v) :
    t = u := by
  have hplace : ∀ w, s.sleeps w = some v → ∃ r, place v = .request r (some w) := by
    intro w hw
    rw [State.sleeps] at hw
    split at hw
    · rename_i r out happ
      obtain rfl := Option.some.inj hw
      exact ⟨r, hinv.place_redeem (by rw [happ]; rfl)⟩
    · cases hw
  obtain ⟨r, hr⟩ := hplace t ht
  obtain ⟨r', hr'⟩ := hplace u hu
  rw [hr, Place.request.injEq] at hr'
  exact Option.some.inj hr'.2

end CIS415.DiskDriver
