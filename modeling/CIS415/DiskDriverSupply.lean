import CIS415.DiskDriverLive

/-!
# Every submit call returns

A submit call waits only for a voucher. Where the application redeems every voucher it is issued, each
voucher comes back to the pool again and again, and under a schedule that is strongly fair to the
threads, which compete for the vouchers, every submit call has its request accepted and returns.
-/

namespace CIS415.DiskDriver

open Ownership System

variable {T D : Type} [DecidableEq T] {s s' : State T D} {t u : T} {k : Kind} {b : Bool}
  {sd : Option D} {v : VoucherPtr} {r : Request} {x y : WakeState T D}

/-- A call that has not returned its voucher keeps it until it does. -/
theorem request_until (u : T) (r : Request) :
    Until wakeStep (fun x : WakeState T D => (x.base.app u).request = some r)
      fun x => r.v ∈ x.base.vouchBB := by
  intro x a y hr hs
  change (x.base.app u).request = some r at hr
  change (y.base.app u).request = some r ∨ r.v ∈ y.base.vouchBB
  obtain ⟨hbase, -⟩ := wakeStep_base hs
  by_cases ha : a.base = .app u
  · rw [ha] at hbase
    cases hu : x.base.app u with
    | redeem ph r' out =>
      rw [hu, AppPC.request] at hr
      split_ifs at hr with hret
      obtain rfl := Option.some.inj hr
      simp only [step, appStep, hu] at hbase
      have hnext : ∀ (s : State T D) ph' out', ph'.returned = false →
          ((s.setApp u (.redeem ph' r' out')).app u).request = some r' := by
        intro s ph' out' hret'
        rw [State.setApp_self, request_of_returned hret']
      generalize y.base = s' at hbase ⊢
      cases redeemStep_move hbase with
      | next ph' out' _ _ hret' => exact Or.inl (hnext _ ph' out' hret')
      | lock => exact Or.inl (hnext _ .test out rfl)
      | release => exact Or.inl (hnext _ .wait out rfl)
      | putSd sd => exact Or.inl (hnext _ .reset out rfl)
      | reset => exact Or.inl (hnext _ .giveBack out rfl)
      | giveBack => exact Or.inr (List.mem_append_right _ (List.mem_singleton_self r'.v))
      | unlock => exact absurd rfl hret
      | ret => exact absurd rfl hret
    | _ =>
      rw [hu] at hr
      cases hr
  · refine Or.inl ?_
    rw [app_other hbase ha, hr]
    intro hidle
    rw [hidle] at hr
    cases hr

theorem redeemed_leads (tr : Trace (wakeStep (T := T) (D := D))) (hinit : tr.state 0 = initWake)
    (hfair : WakeFair tr) (u : T) (r : Request) :
    tr.Leads (fun x => (x.base.app u).request = some r) fun x => r.v ∈ x.base.vouchBB := by
  intro n hn
  by_contra hno
  have hkept : ∀ m, n ≤ m → ((tr.state m).base.app u).request = some r := fun m hm =>
    Trace.stays (request_until u r) hn (fun m hm hin => hno ⟨m, hm, hin⟩) hm
  obtain ⟨ph, out, hu⟩ := redeem_of_request hn
  obtain ⟨m, hm, hidle⟩ := redeem_returns tr hinit hfair hu
  have hlast := hkept m hm
  rw [hidle] at hlast
  cases hlast

/-- No step of a thread takes a request back from the application. -/
theorem issued_grows (hs : appStep s t = some s') (hr : r ∈ s.issued) : r ∈ s'.issued := by
  rw [appStep] at hs
  split at hs
  · cases hs
  · split at hs
    · cases hs
    · obtain rfl := Option.some.inj hs
      exact hr
  · rename_i ph k b sd v ht
    cases ph with
    | enqueue =>
      rw [submitStep] at hs
      split_ifs at hs
      · obtain rfl := Option.some.inj hs
        exact List.mem_append_left _ hr
      · obtain rfl := Option.some.inj hs
        exact hr
    | _ =>
      obtain rfl := Option.some.inj hs
      exact hr
  · split_ifs at hs
    all_goals
      obtain rfl := Option.some.inj hs
      exact hr
  · cases redeemStep_move hs with
    | _ => exact hr

/-- A request leaves the hands of the application when a thread redeems it. -/
theorem issued_until (r : Request) :
    Until wakeStep (fun x : WakeState T D => r ∈ x.base.issued)
      fun x => ∃ u, (x.base.app u).request = some r := by
  intro x a y hr hs
  change r ∈ y.base.issued ∨ ∃ u, (y.base.app u).request = some r
  obtain ⟨hbase, -⟩ := wakeStep_base hs
  generalize a.base = b at hbase
  generalize y.base = s' at hbase ⊢
  cases b with
  | submit t k b sd =>
    rw [step] at hbase
    split at hbase
    · obtain rfl := Option.some.inj hbase
      exact Or.inl hr
    · cases hbase
  | redeem t r' =>
    rw [step] at hbase
    split at hbase
    · split_ifs at hbase
      obtain rfl := Option.some.inj hbase
      by_cases hrr : r = r'
      · subst hrr
        exact Or.inr ⟨t, by rw [State.setApp_self]; rfl⟩
      · exact Or.inl ((List.mem_erase_of_ne hrr).mpr hr)
    · cases hbase
  | work k st => exact Or.inl ((work_issued hbase).1 ▸ hr)
  | app t => exact Or.inl (issued_grows hbase hr)

def SubmitPhase.left : SubmitPhase → ℕ
  | .setReadWrite => 4
  | .setCompleted => 3
  | .setSd => 2
  | .enqueue => 1

/-- The request is accepted at place `n` of its kind or later, issued, and the call has returned. -/
def Submitted (t : T) (k : Kind) (sd : Option D) (v : VoucherPtr) (n : ℕ) (x : WakeState T D) : Prop :=
  x.base.app t = .idle ∧ ∃ i, n ≤ i ∧ (x.base.accepted k)[i]? = some (v, sd) ∧
    ⟨v, k, i⟩ ∈ x.base.issued

structure Submitting (t : T) (k : Kind) (b : Bool) (sd : Option D) (v : VoucherPtr) (n : ℕ)
    (ph : SubmitPhase) (x : WakeState T D) : Prop where
  ok : WakeOk x
  app : x.base.app t = .submit ph k b sd v
  accepted : n ≤ (x.base.accepted k).length

theorem Submitting.own {n : ℕ} {ph : SubmitPhase} {a : WakeAction T D}
    (h : Submitting t k b sd v n ph x) (hs : wakeStep x a = some y) (ha : a.base = .app t) :
    Submitted t k sd v n y ∨ ∃ ph', Submitting t k b sd v n ph' y ∧ ph'.left < ph.left := by
  have hok := h.ok.step hs
  obtain ⟨hbase, -⟩ := wakeStep_base hs
  obtain ⟨⟨place, done, hinv⟩, -⟩ := h.ok.sound
  have hroom : (x.base.queue k).length < size := lt_of_le_of_lt (hinv.queue_length_le k) (by decide)
  have hacc := h.accepted
  rw [ha] at hbase
  simp only [step, appStep, h.app] at hbase
  have hnext : ∀ (s : State T D) ph', y.base = s.setApp t (.submit ph' k b sd v) →
      s.accepted = x.base.accepted → ph'.left < ph.left →
      ∃ ph', Submitting t k b sd v n ph' y ∧ ph'.left < ph.left := by
    intro s ph' hy hacc' hlt
    refine ⟨ph', ⟨hok, by rw [hy, State.setApp_self], ?_⟩, hlt⟩
    have hya : y.base.accepted = s.accepted := by rw [hy]; rfl
    rw [hya, hacc']
    exact hacc
  cases ph with
  | setReadWrite =>
    exact Or.inr (hnext _ .setCompleted (Option.some.inj hbase).symm rfl (by decide))
  | setCompleted => exact Or.inr (hnext _ .setSd (Option.some.inj hbase).symm rfl (by decide))
  | setSd => exact Or.inr (hnext _ .enqueue (Option.some.inj hbase).symm rfl (by decide))
  | enqueue =>
    rw [submitStep, if_pos hroom] at hbase
    left
    rw [Submitted, ← Option.some.inj hbase, State.setApp_self]
    refine ⟨rfl, (x.base.accepted k).length, hacc, ?_,
      List.mem_append_right _ (List.mem_singleton_self _)⟩
    change (Function.update x.base.accepted k (x.base.accepted k ++ [(v, sd)]) k)[_]? = _
    rw [Function.update_self, List.getElem?_concat_length]

theorem Submitting.other {n : ℕ} {ph : SubmitPhase} {a : WakeAction T D}
    (h : Submitting t k b sd v n ph x) (hs : wakeStep x a = some y) (ha : a.base ≠ .app t) :
    Submitting t k b sd v n ph y := by
  obtain ⟨hbase, -⟩ := wakeStep_base hs
  refine ⟨h.ok.step hs, ?_, h.accepted.trans (accepted_grows hbase k).length_le⟩
  rw [app_other hbase ha (by rw [h.app]; exact fun heq => by cases heq), h.app]

/-- A call with a voucher has its request accepted and returns. -/
theorem submitting_leads {tr : Trace (wakeStep (T := T) (D := D))} (hfair : WakeFair tr) {n : ℕ} :
    tr.Leads (fun x => ∃ ph, Submitting t k b sd v n ph x) (Submitted t k sd v n) := by
  have hphase : ∀ ph : SubmitPhase, tr.Leads (Submitting t k b sd v n ph) fun x =>
      Submitted t k sd v n x ∨ ∃ ph', Submitting t k b sd v n ph' x ∧ ph'.left < ph.left := by
    intro ph
    apply Trace.leads_of_weaklyFair (hfair.thread t)
    · intro x a y hx hs
      by_cases ha : a.base = .app t
      · exact Or.inr (hx.own hs ha)
      · exact Or.inl (hx.other hs ha)
    · intro x a y hx ha hs
      obtain rfl := eq_of_ofThread ha
      exact hx.own hs rfl
    · intro x hx
      obtain ⟨⟨place, done, hinv⟩, -⟩ := hx.ok.sound
      refine enabled_thread (awake_of_sleeps ?_) (submit_enabled hinv hx.app)
      rw [State.sleeps, hx.app]
  rintro m ⟨ph, hm⟩
  induction hc : ph.left using Nat.strongRecOn generalizing m ph with
  | _ c ih =>
    obtain ⟨l, hl, hdone | ⟨ph', hx, hlt⟩⟩ := hphase ph m hm
    · exact ⟨l, hl, hdone⟩
    · obtain ⟨j, hj, hdone⟩ := ih _ (hc ▸ hlt) l ph' hx rfl
      exact ⟨j, hl.trans hj, hdone⟩

def RedeemsAll (tr : Trace (wakeStep (T := T) (D := D))) : Prop :=
  ∀ r, tr.Leads (fun x => r ∈ x.base.issued) fun x => r ∉ x.base.issued

theorem issued_leads (tr : Trace (wakeStep (T := T) (D := D))) (hinit : tr.state 0 = initWake)
    (hfair : WakeFair tr) (hredeems : RedeemsAll tr) (r : Request) :
    tr.Leads (fun x => r ∈ x.base.issued) fun x => r.v ∈ x.base.vouchBB := by
  intro n hn
  obtain ⟨m, hm, u, hu⟩ : ∃ m, n ≤ m ∧ ∃ u, ((tr.state m).base.app u).request = some r := by
    by_contra hno
    obtain ⟨m, hm, hout⟩ := hredeems r n hn
    exact hout (Trace.stays (issued_until r) hn (fun m hm hin => hno ⟨m, hm, hin⟩) hm)
  obtain ⟨l, hl, hin⟩ := redeemed_leads tr hinit hfair u r m hu
  exact ⟨l, hm.trans hl, hin⟩

theorem voucher_returns (tr : Trace (wakeStep (T := T) (D := D))) (hinit : tr.state 0 = initWake)
    (hfair : WakeFair tr) (hredeems : RedeemsAll tr) (v : VoucherPtr) (n : ℕ) :
    ∃ m, n ≤ m ∧ v ∈ (tr.state m).base.vouchBB := by
  have hok : WakeOk (tr.state n) :=
    tr.invariant (fun x a y hx hs => hx.step hs) (hinit ▸ wakeOk_init) n
  obtain ⟨⟨place, done, hinv⟩, -⟩ := hok.sound
  cases hp : place v with
  | pool => exact ⟨n, le_rfl, (hinv.owned .pool v).mpr hp⟩
  | submitter u =>
    have hu : ((tr.state n).base.app u).voucher = some v := (hinv.owned (.submitter u) v).mpr hp
    cases hpc : (tr.state n).base.app u with
    | submit ph k b sd w =>
      obtain rfl : w = v := by
        rw [hpc] at hu
        exact Option.some.inj hu
      obtain ⟨m, hm, -, i, -, -, hin⟩ :=
        submitting_leads hfair n ⟨ph, hok, hpc, Nat.zero_le _⟩
      obtain ⟨l, hl, hback⟩ := issued_leads tr hinit hfair hredeems _ m hin
      exact ⟨l, hm.trans hl, hback⟩
    | giveBack w =>
      have happ := hinv.app_ok u
      rw [hpc] at happ
      exact happ.elim
    | _ =>
      rw [hpc] at hu
      cases hu
  | request r o =>
    cases o with
    | none =>
      obtain ⟨rfl, hr⟩ := (hinv.owned (.request r none) v).mpr hp
      exact issued_leads tr hinit hfair hredeems r n hr
    | some u =>
      obtain ⟨rfl, hu⟩ := (hinv.owned (.request r (some u)) v).mpr hp
      exact redeemed_leads tr hinit hfair u r n hu

/-- A submit call that waits for a voucher, after `n` requests of its kind have been accepted. -/
structure Taking (t : T) (k : Kind) (b : Bool) (sd : Option D) (n : ℕ) (x : WakeState T D) : Prop where
  ok : WakeOk x
  app : x.base.app t = .take k b sd
  accepted : n ≤ (x.base.accepted k).length

theorem Taking.own {n : ℕ} {a : WakeAction T D} (h : Taking t k b sd n x)
    (hs : wakeStep x a = some y) (ha : a.base = .app t) : ∃ v ph, Submitting t k b sd v n ph y := by
  have hok := h.ok.step hs
  obtain ⟨hbase, -⟩ := wakeStep_base hs
  have hgrows := (accepted_grows hbase k).length_le
  rw [ha] at hbase
  cases hbb : x.base.vouchBB with
  | nil =>
    simp only [step, appStep, h.app, hbb] at hbase
    cases hbase
  | cons v rest =>
    simp only [step, appStep, h.app, hbb] at hbase
    refine ⟨v, .setReadWrite, hok, ?_, h.accepted.trans hgrows⟩
    rw [← Option.some.inj hbase, State.setApp_self]

theorem Taking.other {n : ℕ} {a : WakeAction T D} (h : Taking t k b sd n x)
    (hs : wakeStep x a = some y) (ha : a.base ≠ .app t) : Taking t k b sd n y := by
  obtain ⟨hbase, -⟩ := wakeStep_base hs
  refine ⟨h.ok.step hs, ?_, h.accepted.trans (accepted_grows hbase k).length_le⟩
  rw [app_other hbase ha (by rw [h.app]; exact fun heq => by cases heq), h.app]

/-- In every schedule that starts after `init_disk_driver` and is strongly fair to the workers and the
threads, where the application redeems every voucher that it is issued, every submit call has its
request accepted, issues a voucher for it and returns. -/
theorem submit_returns (tr : Trace (wakeStep (T := T) (D := D))) (hinit : tr.state 0 = initWake)
    (hworker : ∀ k, tr.StronglyFair (WakeAction.ofWorker k))
    (hthread : ∀ t, tr.StronglyFair (WakeAction.ofThread t)) (hredeems : RedeemsAll tr) {n : ℕ}
    (h : (tr.state n).base.app t = .take k b sd) :
    ∃ m v, n ≤ m ∧ Submitted t k sd v ((tr.state n).base.accepted k).length (tr.state m) := by
  have hfair : WakeFair tr := ⟨hworker, fun t => (hthread t).weaklyFair⟩
  have hok : WakeOk (tr.state n) :=
    tr.invariant (fun x a y hx hs => hx.step hs) (hinit ▸ wakeOk_init) n
  generalize hlen : ((tr.state n).base.accepted k).length = c
  have htake : tr.Leads (Taking t k b sd c) fun x => ∃ v ph, Submitting t k b sd v c ph x := by
    apply Trace.leads_of_stronglyFair (hthread t)
    · intro x a y hx hs
      by_cases ha : a.base = .app t
      · exact Or.inr (hx.own hs ha)
      · exact Or.inl (hx.other hs ha)
    · intro x a y hx ha hs
      obtain rfl := eq_of_ofThread ha
      exact hx.own hs rfl
    · -- some voucher is back in the pool, and the call can take it unless it has moved on
      intro m hm
      obtain ⟨l, hl, hin⟩ := voucher_returns tr hinit hfair hredeems ⟨0, vSize_pos⟩ m
      refine ⟨l, hl, or_iff_not_imp_left.mpr fun hx => ?_⟩
      have happ := (not_not.mp hx).app
      apply enabled_thread (awake_of_sleeps (by rw [State.sleeps, happ]))
      cases hbb : (tr.state l).base.vouchBB with
      | nil =>
        rw [hbb] at hin
        cases hin
      | cons v rest => simp only [step, appStep, happ, hbb, Option.some.injEq, exists_eq']
  obtain ⟨m, hm, v, ph, hsub⟩ := htake n ⟨hok, h, hlen.ge⟩
  obtain ⟨l, hl, hdone⟩ := submitting_leads hfair m ⟨ph, hsub⟩
  exact ⟨l, v, hm.trans hl, hdone⟩

theorem submit_returns_once : ∃ (tr : Trace (wakeStep (T := Unit) (D := Bool))) (n : ℕ),
    tr.state 0 = initWake ∧ (∀ k, tr.StronglyFair (WakeAction.ofWorker k)) ∧
      (∀ t, tr.StronglyFair (WakeAction.ofThread t)) ∧ RedeemsAll tr ∧
      (tr.state n).base.app () = .take .write false (some true) ∧
      ∃ m v, n ≤ m ∧ Submitted () .write (some true) v ((tr.state n).base.accepted .write).length
        (tr.state m) := by
  obtain ⟨x, hx, hiss, hthread, hworker⟩ := wokenOnce_rests
  have hfairw : ∀ k, (Trace.resting hx).StronglyFair (WakeAction.ofWorker k) := fun k =>
    Trace.resting_stronglyFair hx (hworker k)
  have hfairt : ∀ t, (Trace.resting hx).StronglyFair (WakeAction.ofThread t) := fun t =>
    Trace.resting_stronglyFair hx hthread
  have hredeems : RedeemsAll (Trace.resting hx) := by
    intro r n hn
    refine ⟨_, Nat.le_max_left n (wokenOnce.map WakeAction.act).length, ?_⟩
    rw [Trace.resting_state hx (Nat.le_max_right ..)]
    change r ∉ x.base.issued
    rw [hiss]
    exact List.not_mem_nil
  have hpc : ((Trace.resting hx).state 1).base.app () = .take .write false (some true) := rfl
  exact ⟨_, 1, rfl, hfairw, hfairt, hredeems, hpc,
    submit_returns _ rfl hfairw hfairt hredeems hpc⟩

end CIS415.DiskDriver
