import CIS415.DiskDriverFrame
import CIS415.DiskDriverStep

/-!
# No pending request is stuck

While a request is pending, its worker can make a step, unless it waits for the mutex of the voucher.
The mutex is then held by a redeemer that gives it up after at most two steps of its own. Each step of
the worker brings it closer to the request that it has next.
-/

namespace CIS415.DiskDriver

open Ownership System

variable {T D : Type} [DecidableEq T] {s s' : State T D} {place : VoucherPtr → Place T}
  {done : Kind → ℕ} {k : Kind} {v : VoucherPtr} {st : ℤ}

omit [DecidableEq T] in
theorem locks_init : Locks (initDiskDriver : State T D).mute (initDiskDriver : State T D).lock := by
  intro v p
  cases p with
  | app t => exact iff_of_false (Option.some_ne_none _).symm (Option.some_ne_none _).symm
  | worker k => exact iff_of_false (Option.some_ne_none _).symm (Option.some_ne_none _).symm

theorem locks_step (h : Locks s.mute s.lock) {a : Action T D} (hs : step s a = some s') :
    Locks s'.mute s'.lock := by
  rcases step_cases hs with ⟨t, -, hf⟩ | ⟨k, st, -, hf⟩
  · apply h.step hf.locks
    intro p hp
    cases p with
    | app u => simp only [State.lock, hf.others u (fun hu => hp (congrArg Owner.app hu))]
    | worker k => simp only [State.lock, hf.worker]
  · apply h.step hf.locks
    intro p hp
    cases p with
    | app u => simp only [State.lock, hf.app]
    | worker k' => simp only [State.lock, (hf.others k' fun hk => hp (congrArg Owner.worker hk)).1]

/-- A reachable state: its ownership invariant and its mutexes. -/
def Sound (s : State T D) : Prop :=
  (∃ place done, Inv s place done) ∧ Locks s.mute s.lock

theorem sound_step (s : State T D) (a : Action T D) (s' : State T D) (h : Sound s)
    (hs : step s a = some s') : Sound s' := by
  obtain ⟨⟨place, done, hinv⟩, hl⟩ := h
  exact ⟨hinv.step hs, locks_step hl hs⟩

theorem sound_run {as : List (Action T D)} (h : run as = some s) : Sound s :=
  exec_invariant sound_step ⟨⟨_, _, inv_init⟩, locks_init⟩ h

omit [DecidableEq T] in
/-- No worker holds the mutex for which a worker waits: the other one has no voucher of its kind. -/
theorem worker_not_holder (hinv : Inv s place done) (hw : s.worker k = .busy .lock v) (k' : Kind) :
    s.lock (.worker k') ≠ some v := by
  intro hlock
  obtain ⟨n, o, hp, -⟩ := hinv.place_worker hw
  cases hw' : s.worker k' with
  | idle =>
    rw [State.lock, hw'] at hlock
    cases hlock
  | busy ph w =>
    rw [State.lock, hw'] at hlock
    obtain ⟨n', o', hp', -⟩ := hinv.place_worker hw'
    have hph : ph ≠ .lock := by
      rintro rfl
      cases hlock
    have hwv : w = v := by
      cases ph with
      | lock => exact absurd rfl hph
      | _ => exact Option.some.inj hlock
    rw [hwv, hp, Place.request.injEq, Request.mk.injEq] at hp'
    rw [← hp'.1.2.1, hw, WorkerPC.busy.injEq] at hw'
    exact hph hw'.1.symm

omit [DecidableEq T] in
/-- A redeemer that holds it has not found the request completed, or has already returned the
voucher. -/
theorem holder_phase (hinv : Inv s place done) (hw : s.worker k = .busy .lock v)
    {t : T} {ph : RedeemPhase D} {r : Request} {out : Option (Option D)}
    (ht : s.app t = .redeem ph r out) (hv : r.v = v) (hl : ph.locked = true) :
    ph = .release ∨ ph = .unlock ∨ ph = .test ∧ (s.voucher v).completed ≠ 1 := by
  subst hv
  obtain ⟨n, o, hp, hn⟩ := hinv.place_worker hw
  by_cases hret : ph.returned = true
  · cases ph with
    | unlock => exact Or.inr (Or.inl rfl)
    | ret => cases hl
    | _ => cases hret
  · have hred : place r.v = .request r (some t) := by
      apply hinv.place_redeem
      rw [ht, AppPC.request, if_neg hret]
    rw [hp, Place.request.injEq] at hred
    have hidx : ¬ r.index < done r.kind := by
      rw [← hred.1]
      exact Eq.not_lt hn
    have hok := hinv.app_ok t
    rw [ht] at hok
    cases ph with
    | release => exact Or.inl rfl
    | test =>
      refine Or.inr (Or.inr ⟨rfl, fun hc => ?_⟩)
      have hlt := hinv.recorded.completed r.v _ o hp (by rw [hc]; decide)
      rw [hred.1] at hlt
      exact hidx hlt
    | lock => cases hl
    | wait => cases hl
    | ret => cases hl
    | unlock => exact absurd rfl hret
    | _ => exact absurd (hok.2 rfl) hidx

omit [DecidableEq T] in
/-- The mutex for which a worker waits is held by such a redeemer. -/
theorem holder_redeems (hinv : Inv s place done) (hl : Locks s.mute s.lock)
    (hw : s.worker k = .busy .lock v) {p : Owner T} (hm : (s.voucher v).mute = some p) :
    ∃ t ph r out, p = .app t ∧ s.app t = .redeem ph r out ∧ r.v = v ∧
      (ph = .release ∨ ph = .unlock ∨ ph = .test ∧ (s.voucher v).completed ≠ 1) := by
  have hlock := (hl v p).mp hm
  cases p with
  | worker k' => exact absurd hlock (worker_not_holder hinv hw k')
  | app t =>
    rw [State.lock] at hlock
    cases ht : s.app t with
    | redeem ph r out =>
      rw [ht, AppPC.lock] at hlock
      split_ifs at hlock with hph
      have hv : r.v = v := Option.some.inj hlock
      exact ⟨t, ph, r, out, rfl, ht, hv, holder_phase hinv hw ht hv hph⟩
    | idle =>
      rw [ht] at hlock
      cases hlock
    | take k b sd =>
      rw [ht] at hlock
      cases hlock
    | submit ph k b sd w =>
      rw [ht] at hlock
      cases hlock
    | giveBack w =>
      rw [ht] at hlock
      cases hlock

theorem mute_freed (hinv : Inv s place done) (hl : Locks s.mute s.lock)
    (hw : s.worker k = .busy .lock v) : ∃ s', Reaches step s s' ∧ s'.accepted = s.accepted ∧
      s'.device = s.device ∧ s'.worker = s.worker ∧ (s'.voucher v).mute = none := by
  cases hm : (s.voucher v).mute with
  | none => exact ⟨s, .refl s, rfl, rfl, rfl, hm⟩
  | some p =>
    obtain ⟨t, ph, r, out, -, ht, rfl, hph⟩ := holder_redeems hinv hl hw hm
    rcases hph with rfl | rfl | ⟨rfl, hc⟩
    · have hstep : step s (.app t) = some ((s.setVoucher r.v
          { s.voucher r.v with mute := none }).setApp t (.redeem .wait r out)) := by
        simp only [step, appStep, ht, redeemStep]
      exact ⟨_, .head hstep (.refl _), rfl, rfl, rfl, mute_setVoucher_self rfl rfl⟩
    · have hstep : step s (.app t) = some ((s.setVoucher r.v
          { s.voucher r.v with mute := none }).setApp t (.redeem .ret r out)) := by
        simp only [step, appStep, ht, redeemStep]
      exact ⟨_, .head hstep (.refl _), rfl, rfl, rfl, mute_setVoucher_self rfl rfl⟩
    · have htest : step s (.app t) = some (s.setApp t (.redeem .release r out)) := by
        simp only [step, appStep, ht, redeemStep, if_pos hc]
      have hrelease : step (s.setApp t (.redeem .release r out)) (.app t) =
          some (((s.setApp t (.redeem .release r out)).setVoucher r.v
            { s.voucher r.v with mute := none }).setApp t (.redeem .wait r out)) := by
        simp only [step, appStep, State.setApp_self, redeemStep]
        rfl
      exact ⟨_, .head htest (.head hrelease (.refl _)), rfl, rfl, rfl,
        mute_setVoucher_self (s := s) rfl rfl⟩

/-- The steps a worker has to go before the request that it has next is completed. -/
def WorkerPC.rank : WorkerPC D → ℕ
  | .idle => 5
  | .busy .lock _ => 4
  | .busy .readSd _ => 3
  | .busy (.device _) _ => 2
  | .busy (.store _) _ => 9
  | .busy .complete _ => 8
  | .busy .signal _ => 7
  | .busy .unlock _ => 6

def State.rank (s : State T D) (k : Kind) (n : ℕ) : ℕ :=
  10 * (n - (s.device k).length) + (s.worker k).rank

omit [DecidableEq T] in
@[simp] theorem State.setWorker_self (s : State T D) (k : Kind) (wpc : WorkerPC D) :
    (s.setWorker k wpc).worker k = wpc :=
  Function.update_self ..

/-- While a request of kind `k` is pending, only the mutex can keep its worker from a step. -/
theorem work_enabled (hinv : Inv s place done)
    (hpend : (s.device k).length < (s.accepted k).length)
    (hfree : ∀ v, s.worker k = .busy .lock v → (s.voucher v).mute = none) (st : ℤ) :
    ∃ s', step s (.work k st) = some s' := by
  cases hw : s.worker k with
  | idle =>
    have hq := hinv.logged.pending_eq k
    rw [hw] at hq
    cases hqk : s.queue k with
    | nil =>
      rw [hqk] at hq
      have hlen := congrArg List.length hq
      rw [List.length_map, List.length_drop] at hlen
      exact absurd hlen (by simp only [WorkerPC.fetched, List.append_nil, List.length_nil]; omega)
    | cons v rest => simp only [step, hw, hqk, Option.some.injEq, exists_eq']
  | busy ph v =>
    cases ph with
    | lock => simp only [step, hw, workStep, if_pos (hfree v hw), Option.some.injEq, exists_eq']
    | _ => simp only [step, hw, workStep, Option.some.injEq, exists_eq']

omit [DecidableEq T] in
theorem rank_setWorker {wpc wpc' : WorkerPC D} {x : State T D} {n : ℕ} (hw : s.worker k = wpc)
    (hdev : x.device = s.device) (hlt : wpc'.rank < wpc.rank) :
    (x.setWorker k wpc').rank k n < s.rank k n := by
  have hdev' : (x.setWorker k wpc').device = s.device := hdev
  rw [State.rank, State.rank, State.setWorker_self, hdev', hw]
  omega

/-- Every step of worker `k` brings it closer to the execution of `n` requests. -/
theorem work_rank {n : ℕ} (hn : (s.device k).length < n) (hs : step s (.work k st) = some s') :
    s'.rank k n < s.rank k n := by
  cases hw : s.worker k with
  | idle =>
    simp only [step, hw] at hs
    cases hqk : s.queue k with
    | nil =>
      rw [hqk] at hs
      cases hs
    | cons v rest =>
      rw [hqk] at hs
      obtain rfl := Option.some.inj hs
      exact rank_setWorker hw rfl (Nat.lt_succ_self 4)
  | busy ph v =>
    simp only [step, hw] at hs
    cases ph with
    | lock =>
      rw [workStep] at hs
      split_ifs at hs
      obtain rfl := Option.some.inj hs
      exact rank_setWorker hw rfl (Nat.lt_succ_self 3)
    | readSd =>
      obtain rfl := Option.some.inj hs
      exact rank_setWorker hw rfl (Nat.lt_succ_self 2)
    | device sd =>
      obtain rfl := Option.some.inj hs
      simp only [State.rank, State.setWorker_self, hw, WorkerPC.rank]
      change 10 * (n - (Function.update s.device k _ k).length) + 9 < _
      rw [Function.update_self, List.length_append, List.length_singleton]
      omega
    | store st' =>
      obtain rfl := Option.some.inj hs
      exact rank_setWorker hw rfl (Nat.lt_succ_self 8)
    | complete =>
      obtain rfl := Option.some.inj hs
      exact rank_setWorker hw rfl (Nat.lt_succ_self 7)
    | signal =>
      obtain rfl := Option.some.inj hs
      exact rank_setWorker hw rfl (Nat.lt_succ_self 6)
    | unlock =>
      obtain rfl := Option.some.inj hs
      exact rank_setWorker hw rfl (Nat.lt_succ_self 5)

structure Kept (k : Kind) (s s' : State T D) : Prop where
  accepted : s'.accepted = s.accepted
  device : ∀ k', k' ≠ k → s'.device k' = s.device k'

omit [DecidableEq T] in
theorem Kept.refl (k : Kind) (s : State T D) : Kept k s s :=
  ⟨rfl, fun _ _ => rfl⟩

omit [DecidableEq T] in
theorem Kept.trans (s u w : State T D) (h : Kept k s u) (h' : Kept k u w) : Kept k s w :=
  ⟨h'.accepted.trans h.accepted, fun k' hk => (h'.device k' hk).trans (h.device k' hk)⟩

/-- While a request of kind `k` is pending, its worker can be brought one step closer to it. -/
theorem serve (h : Sound s) (hpend : (s.device k).length < (s.accepted k).length) :
    ∃ s', Reaches step s s' ∧ Kept k s s' ∧
      s'.rank k (s.accepted k).length < s.rank k (s.accepted k).length := by
  obtain ⟨u, hsu, hacc, hdev, hwork, hfree⟩ : ∃ u, Reaches step s u ∧ u.accepted = s.accepted ∧
      u.device = s.device ∧ u.worker = s.worker ∧
      ∀ v, u.worker k = .busy .lock v → (u.voucher v).mute = none := by
    by_cases hw : ∃ v, s.worker k = .busy .lock v
    · obtain ⟨v, hw⟩ := hw
      obtain ⟨⟨place, done, hinv⟩, hl⟩ := h
      obtain ⟨u, hsu, hacc, hdev, hwork, hfree⟩ := mute_freed hinv hl hw
      refine ⟨u, hsu, hacc, hdev, hwork, fun w hw' => ?_⟩
      rw [hwork, hw, WorkerPC.busy.injEq] at hw'
      rw [← hw'.2, hfree]
    · exact ⟨s, .refl s, rfl, rfl, rfl, fun v hv => absurd ⟨v, hv⟩ hw⟩
  obtain ⟨⟨place, done, hinv⟩, -⟩ := hsu.invariant sound_step h
  obtain ⟨s', hs'⟩ := work_enabled hinv (by rwa [hacc, hdev]) hfree 0
  have hf := work_frame hs'
  refine ⟨s', hsu.trans (.head hs' (.refl s')), ⟨hf.accepted.trans hacc, fun k' hk => ?_⟩, ?_⟩
  · rw [(hf.others k' hk).2, hdev]
  · have hlt := work_rank (by rwa [hdev]) hs'
    rwa [State.rank, State.rank, hdev, hwork] at hlt

/-- All pending requests of one kind can be executed, without those of the other. -/
theorem serve_all (h : Sound s) (k : Kind) : ∃ s', Reaches step s s' ∧ Sound s' ∧ Kept k s s' ∧
    (s'.device k).length = (s'.accepted k).length := by
  apply reaches_of_rank (I := Sound) (fun s : State T D => s.rank k (s.accepted k).length)
    (Kept.refl k) Kept.trans _ h
  intro s hs hpend
  have hle : (s.device k).length ≤ (s.accepted k).length := by
    obtain ⟨⟨place, done, hinv⟩, -⟩ := hs
    exact hinv.logged.length_le k
  obtain ⟨u, hsu, hkeep, hlt⟩ := serve hs (lt_of_le_of_ne hle hpend)
  refine ⟨u, hsu, hsu.invariant sound_step hs, hkeep, ?_⟩
  rwa [hkeep.accepted]

end CIS415.DiskDriver
