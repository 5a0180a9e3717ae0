import CIS415.DiskDriverWake

/-!
# When the driver stands still

The driver stands still when no thread inside it and no worker can make a step. It never does so by
itself: a thread is then at the first step of a submit call, and every voucher is that of a completed
request which the application has not redeemed.
-/

namespace CIS415.DiskDriver

open Ownership System

variable {T D : Type} [DecidableEq T] {s : State T D} {place : VoucherPtr → Place T} {done : Kind → ℕ}
  {t : T} {k : Kind} {v : VoucherPtr} {r : Request} {out : Option (Option D)} {x : WakeState T D}

/-- Only a taken mutex keeps `redeem_voucher` from a step of the driver. -/
theorem redeem_enabled (hinv : Inv s place done) {ph : RedeemPhase D}
    (ht : s.app t = .redeem ph r out) (hfree : ph = .lock → s.mute r.v = none) :
    ∃ s', step s (.app t) = some s' := by
  have hroom : s.vouchBB.length < vouchSize := lt_of_le_of_lt hinv.pool_length_le (by decide)
  cases ph with
  | lock =>
    have hm : (s.voucher r.v).mute = none := hfree rfl
    simp only [step, appStep, ht, redeemStep, if_pos hm, Option.some.injEq, exists_eq']
  | test =>
    simp only [step, appStep, ht, redeemStep]
    split_ifs
    · exact ⟨_, rfl⟩
    · exact ⟨_, rfl⟩
  | checkStatus =>
    simp only [step, appStep, ht, redeemStep]
    split_ifs
    · exact ⟨_, rfl⟩
    · exact ⟨_, rfl⟩
  | checkWrite =>
    simp only [step, appStep, ht, redeemStep]
    split_ifs
    · exact ⟨_, rfl⟩
    · exact ⟨_, rfl⟩
  | checkRead =>
    simp only [step, appStep, ht, redeemStep]
    split_ifs
    · exact ⟨_, rfl⟩
    · exact ⟨_, rfl⟩
  | giveBack => simp only [step, appStep, ht, redeemStep, if_pos hroom, Option.some.injEq, exists_eq']
  | _ => simp only [step, appStep, ht, redeemStep, Option.some.injEq, exists_eq']

/-- A submit call that has a voucher is never kept from a step: its queue has room. -/
theorem submit_enabled (hinv : Inv s place done) {ph : SubmitPhase} {b : Bool} {sd : Option D}
    (ht : s.app t = .submit ph k b sd v) : ∃ s', step s (.app t) = some s' := by
  have hroom : (s.queue k).length < size := lt_of_le_of_lt (hinv.queue_length_le k) (by decide)
  cases ph with
  | enqueue => simp only [step, appStep, ht, submitStep, if_pos hroom, Option.some.injEq, exists_eq']
  | _ => simp only [step, appStep, ht, submitStep, Option.some.injEq, exists_eq']

theorem busy_enabled {ph : WorkPhase D} (hw : s.worker k = .busy ph v)
    (hfree : ph = .lock → s.mute v = none) (st : ℤ) : ∃ s', step s (.work k st) = some s' := by
  cases ph with
  | lock =>
    have hm : (s.voucher v).mute = none := hfree rfl
    simp only [step, hw, workStep, if_pos hm, Option.some.injEq, exists_eq']
  | _ => simp only [step, hw, workStep, Option.some.injEq, exists_eq']

/-- No thread inside the driver can make a step without a spurious wake-up, and no worker can. -/
def Stuck (x : WakeState T D) : Prop :=
  (∀ t, wakeStep x (.act (.app t)) = none) ∧ ∀ k st, wakeStep x (.act (.work k st)) = none

theorem Stuck.worker (h : Stuck x) (k : Kind) (st : ℤ) : step x.base (.work k st) = none := by
  cases hs : step x.base (.work k st) with
  | none => rfl
  | some s' =>
    have hwake := wakeStep_act (x := x) (a := .work k st) rfl hs
    rw [h.2 k st] at hwake
    cases hwake

theorem Stuck.thread (h : Stuck x) (ht : x.asleep t = false) : step x.base (.app t) = none := by
  cases hs : step x.base (.app t) with
  | none => rfl
  | some s' =>
    have hwake := wakeStep_act (x := x) (a := .app t) ht hs
    rw [h.1 t] at hwake
    cases hwake

omit [DecidableEq T] in
theorem awake_of_sleeps (ht : x.base.sleeps t = none) : x.asleep t = false := by
  rw [WakeState.asleep, ht]
  rfl

theorem Stuck.redeem (h : Stuck x) (hinv : Inv x.base place done) {ph : RedeemPhase D}
    (ht : x.base.app t = .redeem ph r out) :
    ph = .lock ∧ x.base.mute r.v ≠ none ∨ ph = .wait ∧ x.woken t = false := by
  by_cases hw : ph = .wait
  · subst hw
    refine Or.inr ⟨rfl, ?_⟩
    by_contra hwoken
    obtain ⟨s', hs'⟩ := redeem_enabled hinv ht fun heq => by cases heq
    have hawake : x.asleep t = false := by
      rw [WakeState.asleep, eq_true_of_ne_false hwoken, Bool.not_true, Bool.and_false]
    rw [h.thread hawake] at hs'
    cases hs'
  · have hawake : x.asleep t = false := by
      apply awake_of_sleeps
      rw [State.sleeps, ht]
      cases ph with
      | wait => exact absurd rfl hw
      | _ => rfl
    left
    by_contra hno
    obtain ⟨s', hs'⟩ := redeem_enabled hinv ht fun hlock => by
      by_contra hm
      exact hno ⟨hlock, hm⟩
    rw [h.thread hawake] at hs'
    cases hs'

theorem Stuck.mute (h : Stuck x) (hsound : Sound x.base) (v : VoucherPtr) :
    x.base.mute v = none := by
  obtain ⟨⟨place, done, hinv⟩, hl⟩ := hsound
  cases hm : x.base.mute v with
  | none => rfl
  | some p =>
    have hlock := (hl v p).mp hm
    cases p with
    | app t =>
      rw [State.lock] at hlock
      cases ht : x.base.app t with
      | redeem ph r out =>
        rw [ht, AppPC.lock] at hlock
        rcases h.redeem hinv ht with ⟨rfl, -⟩ | ⟨rfl, -⟩
        · cases hlock
        · cases hlock
      | _ =>
        rw [ht] at hlock
        cases hlock
    | worker k =>
      rw [State.lock] at hlock
      cases hw : x.base.worker k with
      | idle =>
        rw [hw] at hlock
        cases hlock
      | busy ph w =>
        obtain ⟨s', hs'⟩ := busy_enabled hw (fun heq => by
          subst heq
          rw [hw] at hlock
          cases hlock) 0
        rw [h.worker] at hs'
        cases hs'

theorem Stuck.idle (h : Stuck x) (hsound : Sound x.base) (k : Kind) :
    x.base.worker k = .idle ∧ x.base.queue k = [] := by
  cases hw : x.base.worker k with
  | busy ph v =>
    obtain ⟨s', hs'⟩ := busy_enabled hw (fun _ => h.mute hsound v) 0
    rw [h.worker] at hs'
    cases hs'
  | idle =>
    refine ⟨rfl, ?_⟩
    have hs := h.worker k 0
    cases hq : x.base.queue k with
    | nil => rfl
    | cons v rest =>
      simp only [step, hw, hq] at hs
      cases hs

omit [DecidableEq T] in
/-- With both workers idle and the queues empty, everything accepted has been executed. -/
theorem finished_of_idle (hinv : Inv s place done) (hk : s.worker k = .idle ∧ s.queue k = []) :
    s.finished k = (s.accepted k).length := by
  have hpend := hinv.logged.pending_eq k
  have hle := hinv.logged.length_le k
  rw [hk.1, hk.2] at hpend
  have hlen := congrArg List.length hpend
  rw [List.length_map, List.length_drop] at hlen
  change _ = 0 at hlen
  rw [State.finished, hk.1]
  change (s.device k).length - 0 = _
  omega

omit [DecidableEq T] in
theorem index_lt_accepted (hinv : Inv s place done) {o : Option T} (hp : place v = .request r o) :
    r.index < (s.accepted r.kind).length :=
  (List.getElem?_eq_some_iff.mp (hinv.recorded.fields v r o hp).1).1

/-- A thread inside the driver is at the first step of a submit call. -/
theorem Stuck.take (h : Stuck x) (hok : WakeOk x) (ht : x.base.app t ≠ .idle) :
    ∃ k b sd, x.base.app t = .take k b sd := by
  obtain ⟨⟨place, done, hinv⟩, -⟩ := hok.sound
  have hawake : x.base.sleeps t = none → step x.base (.app t) = none := fun hs =>
    h.thread (awake_of_sleeps hs)
  cases hpc : x.base.app t with
  | idle => exact absurd hpc ht
  | take k b sd => exact ⟨k, b, sd, rfl⟩
  | submit ph k b sd v =>
    obtain ⟨s', hs'⟩ := submit_enabled hinv hpc
    rw [hawake (by rw [State.sleeps, hpc])] at hs'
    cases hs'
  | giveBack v =>
    have happ := hinv.app_ok t
    rw [hpc] at happ
    exact happ.elim
  | redeem ph r out =>
    rcases h.redeem hinv hpc with ⟨rfl, hm⟩ | ⟨rfl, hw⟩
    · exact absurd (h.mute hok.sound r.v) hm
    · -- a call that sleeps waits for a worker that has yet to act
      have hidle := h.idle hok.sound r.kind
      rcases hok.asleep t r out hpc hw with hle | hsig
      · have hlt := index_lt_accepted hinv (hinv.place_redeem (t := t) (r := r) (by rw [hpc]; rfl))
        rw [finished_of_idle hinv hidle] at hle
        exact absurd hlt (not_lt.mpr hle)
      · rw [hidle.1] at hsig
        cases hsig

theorem Stuck.pool (h : Stuck x) (ht : x.base.app t ≠ .idle) (hok : WakeOk x) :
    x.base.vouchBB = [] := by
  obtain ⟨k, b, sd, hpc⟩ := h.take hok ht
  have hs := h.thread (t := t) (awake_of_sleeps (by rw [State.sleeps, hpc]))
  cases hbb : x.base.vouchBB with
  | nil => rfl
  | cons v rest =>
    simp only [step, appStep, hpc, hbb] at hs
    cases hs

/-- In every state reached, whatever the interleaving: the driver stands still if and only if both
workers are idle with empty queues, every thread inside the driver is at the first step of a submit
call, and, if there is one, all thirty vouchers are with the application, each for a completed request
that has not been redeemed. -/
theorem stuck_iff {as : List (WakeAction T D)} (h : exec wakeStep initWake as = some x) :
    Stuck x ↔
      (∀ k, x.base.worker k = .idle ∧ x.base.queue k = []) ∧
      (∀ t, x.base.app t = .idle ∨ ∃ k b sd, x.base.app t = .take k b sd) ∧
      ((∃ t, x.base.app t ≠ .idle) →
        ∀ v, ∃ r ∈ x.base.issued, r.v = v ∧ (x.base.voucher v).completed = 1) := by
  have hok := wakeOk_run h
  obtain ⟨⟨place, done, hinv⟩, -⟩ := wakeOk_run h |>.sound
  constructor
  · intro hstuck
    refine ⟨hstuck.idle hok.sound, fun t => or_iff_not_imp_left.mpr (hstuck.take hok), ?_⟩
    rintro ⟨t, ht⟩ v
    have hbb := hstuck.pool ht hok
    cases hp : place v with
    | pool =>
      have hmem : v ∈ x.base.vouchBB := (hinv.owned .pool v).mpr hp
      rw [hbb] at hmem
      cases hmem
    | submitter u =>
      have hu : (x.base.app u).voucher = some v := (hinv.owned (.submitter u) v).mpr hp
      obtain ⟨k, b, sd, hpc⟩ := hstuck.take hok (t := u) fun hidle => by
        rw [hidle] at hu
        cases hu
      rw [hpc] at hu
      cases hu
    | request r o =>
      have hlt := index_lt_accepted hinv hp
      rw [← finished_of_idle hinv (hstuck.idle hok.sound r.kind)] at hlt
      cases o with
      | none =>
        obtain ⟨rfl, hr⟩ := (hinv.owned (.request r none) v).mpr hp
        exact ⟨r, hr, rfl, hok.flags r (Or.inl hr) hlt⟩
      | some u =>
        obtain ⟨-, hu⟩ := (hinv.owned (.request r (some u)) v).mpr hp
        obtain ⟨k, b, sd, hpc⟩ := hstuck.take hok (t := u) fun hidle => by
          rw [hidle] at hu
          cases hu
        rw [hpc] at hu
        cases hu
  · rintro ⟨hidle, htake, hall⟩
    have hworker : ∀ k st, step x.base (.work k st) = none := by
      intro k st
      rw [step, (hidle k).1, (hidle k).2]
    have hthread : ∀ t, step x.base (.app t) = none := by
      intro t
      rcases htake t with hpc | ⟨k, b, sd, hpc⟩
      · rw [step, appStep, hpc]
      · -- the pool is empty, because every voucher has been issued
        have hbb : x.base.vouchBB = [] := by
          apply List.eq_nil_iff_forall_not_mem.mpr
          intro v hv
          obtain ⟨r, hr, rfl, -⟩ := hall ⟨t, by rw [hpc]; exact fun heq => by cases heq⟩ v
          have hp := (hinv.owned .pool r.v).mp hv
          have hp' := (hinv.owned (.request r none) r.v).mp ⟨rfl, hr⟩
          rw [hp] at hp'
          cases hp'
        rw [step, appStep, hpc, hbb]
    refine ⟨fun t => ?_, fun k st => ?_⟩
    · rw [wakeStep, hthread, Option.map_none, ite_self]
    · rw [wakeStep, hworker, Option.map_none, ite_self]

def redeemedEarly : List (Action Unit Bool) :=
  .submit () .write true (some true) :: List.replicate 5 (.app ()) ++
    .redeem () ⟨⟨0, vSize_pos⟩, .write, 0⟩ :: List.replicate 3 (.app ())

theorem stuck_iff_redeemedEarly : ∃ x,
    exec wakeStep initWake (redeemedEarly.map .act) = some x ∧ (Stuck x ↔
      (∀ k, x.base.worker k = .idle ∧ x.base.queue k = []) ∧
      (∀ t, x.base.app t = .idle ∨ ∃ k b sd, x.base.app t = .take k b sd) ∧
      ((∃ t, x.base.app t ≠ .idle) →
        ∀ v, ∃ r ∈ x.base.issued, r.v = v ∧ (x.base.voucher v).completed = 1)) := by
  obtain ⟨x, hx⟩ := Option.isSome_iff_exists.mp
    (by decide +kernel : (exec wakeStep initWake (redeemedEarly.map .act)).isSome)
  exact ⟨x, hx, stuck_iff hx⟩

end CIS415.DiskDriver
