import CIS415.DiskDriverInv

/-!
# What a step leaves alone

A step of a thread changes no worker, no log of the device and no status, and a step of a worker
changes no thread. Either takes or lets go of at most one mutex.
-/

namespace CIS415.DiskDriver

open Ownership System

variable {T D : Type} [DecidableEq T] {s s' : State T D} {t : T} {k : Kind} {st : ℤ}

def AppPC.lock : AppPC D → Option VoucherPtr
  | .redeem ph r _ => if ph.locked then some r.v else none
  | _ => none

def WorkerPC.lock : WorkerPC D → Option VoucherPtr
  | .idle => none
  | .busy .lock _ => none
  | .busy _ v => some v

def State.lock (s : State T D) : Owner T → Option VoucherPtr
  | .app t => (s.app t).lock
  | .worker k => (s.worker k).lock

def State.mute (s : State T D) (v : VoucherPtr) : Option (Owner T) :=
  (s.voucher v).mute

/-- What a step of thread `t` cannot do. -/
structure AppFrame (s : State T D) (t : T) (s' : State T D) : Prop where
  worker : s'.worker = s.worker
  device : s'.device = s.device
  accepted : ∀ k, s.accepted k <+: s'.accepted k
  status : ∀ v, (s'.voucher v).status = (s.voucher v).status
  others : ∀ u, u ≠ t → s'.app u = s.app u
  returned : ∀ ph r out, s'.app t = .redeem ph r out → ph.returned = true →
    s.app t = .redeem .giveBack r out ∨ s.app t = .redeem .unlock r out
  redeemed : s'.redeemed = s.redeemed ∨ ∃ r out, s.app t = .redeem .ret r out ∧
    s'.redeemed = s.redeemed ++ [(r, (s.voucher r.v).status, out)]
  locks : LockStep s.mute s'.mute s.lock s'.lock (.app t)

theorem AppFrame.setApp {pc : AppPC D} (hw : s'.worker = s.worker) (hd : s'.device = s.device)
    (hacc : s'.accepted = s.accepted)
    (hst : ∀ v, (s'.voucher v).status = (s.voucher v).status)
    (happ : s'.app = Function.update s.app t pc) (hred : s'.redeemed = s.redeemed)
    (hpc : ∀ ph r out, pc = .redeem ph r out → ph.returned = false)
    (hl : LockStep s.mute s'.mute s.lock s'.lock (.app t)) : AppFrame s t s' where
  worker := hw
  device := hd
  accepted k := hacc ▸ List.prefix_rfl
  status := hst
  others u hu := by rw [happ, Function.update_of_ne hu]
  returned ph r out ht hret := by
    rw [happ, Function.update_self] at ht
    exact absurd hret (by simp [hpc ph r out ht])
  redeemed := Or.inl hred
  locks := hl

theorem lock_setApp {pc : AppPC D} (happ : s'.app = Function.update s.app t pc) :
    s'.lock (.app t) = pc.lock := by
  rw [State.lock, happ, Function.update_self]

theorem lockStep_app {pc : AppPC D} (happ : s'.app = Function.update s.app t pc)
    (hm : ∀ v, (s'.voucher v).mute = (s.voucher v).mute) (hl : pc.lock = (s.app t).lock) :
    LockStep s.mute s'.mute s.lock s'.lock (.app t) :=
  .keep hm ((lock_setApp happ).trans hl)

omit [DecidableEq T] in
theorem mute_setVoucher_self {v : VoucherPtr} {x : Voucher T D} {m : Option (Owner T)}
    (hv : s'.voucher = Function.update s.voucher v x) (hm : x.mute = m) : s'.mute v = m := by
  rw [State.mute, hv, Function.update_self, hm]

omit [DecidableEq T] in
theorem mute_setVoucher_of_ne {v w : VoucherPtr} {x : Voucher T D}
    (hv : s'.voucher = Function.update s.voucher v x) (hw : w ≠ v) : s'.mute w = s.mute w := by
  rw [State.mute, hv, Function.update_of_ne hw]
  rfl

theorem submitStep_frame {b : Bool} {sd : Option D} {v : VoucherPtr} {ph : SubmitPhase}
    (ht : s.app t = .submit ph k b sd v) (hs : submitStep s t k b sd v ph = some s') :
    AppFrame s t s' := by
  have hlock : (s.app t).lock = none := by
    rw [ht]
    rfl
  have hset : ∀ ph' x, x.status = (s.voucher v).status → x.mute = (s.voucher v).mute →
      AppFrame s t ((s.setVoucher v x).setApp t (.submit ph' k b sd v)) := by
    intro ph' x hst hm
    exact .setApp rfl rfl rfl (view_update Voucher.status hst) rfl rfl nofun
      (lockStep_app rfl (view_update Voucher.mute hm) hlock.symm)
  cases ph with
  | setReadWrite =>
    obtain rfl := Option.some.inj hs
    exact hset .setCompleted _ rfl rfl
  | setCompleted =>
    obtain rfl := Option.some.inj hs
    exact hset .setSd _ rfl rfl
  | setSd =>
    obtain rfl := Option.some.inj hs
    exact hset .enqueue _ rfl rfl
  | enqueue =>
    rw [submitStep] at hs
    split_ifs at hs
    · obtain rfl := Option.some.inj hs
      refine ⟨rfl, rfl, fun k' => ?_, fun _ => rfl, fun u hu => Function.update_of_ne hu _ _, ?_,
        Or.inl rfl, lockStep_app rfl (fun _ => rfl) hlock.symm⟩
      · change _ <+: Function.update s.accepted k (s.accepted k ++ [(v, sd)]) k'
        by_cases hk : k' = k
        · subst hk
          rw [Function.update_self]
          exact List.prefix_append _ _
        · simp only [Function.update_of_ne hk, List.prefix_rfl]
      · intro ph' r' out' ht' _
        rw [State.setApp_self] at ht'
        cases ht'
    · obtain rfl := Option.some.inj hs
      exact .setApp rfl rfl rfl (fun _ => rfl) rfl rfl nofun
        (lockStep_app rfl (fun _ => rfl) hlock.symm)

theorem redeemStep_frame {r : Request} {out : Option (Option D)} {ph : RedeemPhase D}
    (ht : s.app t = .redeem ph r out) (hs : redeemStep s t r out ph = some s') :
    AppFrame s t s' := by
  have hlock : (s.app t).lock = if ph.locked then some r.v else none := by
    rw [ht]
    rfl
  have hphase : ∀ (ph' : RedeemPhase D) out', ph'.returned = false → ∀ ph'' r' out'',
      AppPC.redeem ph' r out' = .redeem ph'' r' out'' → ph''.returned = false := by
    intro ph' out' hret ph'' r' out'' heq
    rw [AppPC.redeem.injEq] at heq
    rw [← heq.1, hret]
  -- the phases that only move on
  have hnext : ∀ ph' out', ph'.returned = false → ph'.locked = ph.locked →
      AppFrame s t (s.setApp t (.redeem ph' r out')) := by
    intro ph' out' hret hl
    refine .setApp rfl rfl rfl (fun _ => rfl) rfl rfl (hphase ph' out' hret) ?_
    refine lockStep_app rfl (fun _ => rfl) ?_
    rw [hlock, ← hl]
    rfl
  have hmute : ∀ ph' m, ph'.returned = false →
      LockStep s.mute
        ((s.setVoucher r.v { s.voucher r.v with mute := m }).setApp t (.redeem ph' r out)).mute s.lock
        ((s.setVoucher r.v { s.voucher r.v with mute := m }).setApp t (.redeem ph' r out)).lock
        (.app t) →
      AppFrame s t
        ((s.setVoucher r.v { s.voucher r.v with mute := m }).setApp t (.redeem ph' r out)) := by
    intro ph' m hret hl
    exact .setApp rfl rfl rfl (view_update Voucher.status (by rfl)) rfl rfl (hphase ph' out hret) hl
  cases redeemStep_move hs with
  | next ph' out' hl _ hret _ => exact hnext ph' out' hret hl
  | lock hfree =>
    apply hmute .test _ rfl
    exact .acquire r.v (mute_setVoucher_self rfl rfl) (fun w hw => mute_setVoucher_of_ne rfl hw) hfree
      hlock ((lock_setApp rfl).trans rfl)
  | release =>
    apply hmute .wait _ rfl
    exact .release r.v (mute_setVoucher_self rfl rfl) (fun w hw => mute_setVoucher_of_ne rfl hw) hlock
      ((lock_setApp rfl).trans rfl)
  | putSd sd =>
    have hreset := hnext .reset out rfl rfl
    exact { hreset with }
  | reset =>
    refine .setApp rfl rfl rfl (view_update Voucher.status (by rfl)) rfl rfl
      (hphase .giveBack out rfl) ?_
    exact lockStep_app rfl (view_update Voucher.mute (by rfl)) hlock.symm
  | giveBack =>
    refine ⟨rfl, rfl, fun _ => List.prefix_rfl, fun _ => rfl,
      fun u hu => Function.update_of_ne hu _ _, ?_, Or.inl rfl,
      lockStep_app rfl (fun _ => rfl) hlock.symm⟩
    intro ph' r' out' ht' _
    rw [State.setApp_self] at ht'
    obtain ⟨rfl, rfl, rfl⟩ := AppPC.redeem.inj ht'
    exact Or.inl ht
  | unlock =>
    refine ⟨rfl, rfl, fun _ => List.prefix_rfl, view_update Voucher.status (by rfl),
      fun u hu => Function.update_of_ne hu _ _, ?_, Or.inl rfl, ?_⟩
    · intro ph' r' out' ht' _
      rw [State.setApp_self] at ht'
      obtain ⟨rfl, rfl, rfl⟩ := AppPC.redeem.inj ht'
      exact Or.inr ht
    · exact .release r.v (mute_setVoucher_self rfl rfl) (fun w hw => mute_setVoucher_of_ne rfl hw) hlock
        ((lock_setApp rfl).trans rfl)
  | ret =>
    refine ⟨rfl, rfl, fun _ => List.prefix_rfl, fun _ => rfl,
      fun u hu => Function.update_of_ne hu _ _, ?_, Or.inr ⟨r, out, ht, rfl⟩,
      lockStep_app rfl (fun _ => rfl) hlock.symm⟩
    intro ph' r' out' ht' _
    rw [State.setApp_self] at ht'
    exact nomatch ht'

theorem appStep_frame (hs : appStep s t = some s') : AppFrame s t s' := by
  rw [appStep] at hs
  split at hs
  · exact nomatch hs
  · rename_i k b sd ht
    split at hs
    · exact nomatch hs
    · obtain rfl := Option.some.inj hs
      refine .setApp rfl rfl rfl (fun _ => rfl) rfl rfl nofun (lockStep_app rfl (fun _ => rfl) ?_)
      rw [ht]
      rfl
  · rename_i ph k b sd v ht
    exact submitStep_frame ht hs
  · rename_i v ht
    have hlock : (s.app t).lock = none := by
      rw [ht]
      rfl
    split_ifs at hs
    · obtain rfl := Option.some.inj hs
      exact .setApp rfl rfl rfl (fun _ => rfl) rfl rfl nofun
        (lockStep_app rfl (fun _ => rfl) hlock.symm)
    · obtain rfl := Option.some.inj hs
      exact .setApp rfl rfl rfl (fun _ => rfl) rfl rfl nofun
        (lockStep_app rfl (fun _ => rfl) hlock.symm)
  · rename_i ph r out ht
    exact redeemStep_frame ht hs

/-- What a step of worker `k` cannot do: the device log only grows, and only the store of a status
changes a status. -/
structure WorkFrame (s : State T D) (k : Kind) (s' : State T D) : Prop where
  app : s'.app = s.app
  accepted : s'.accepted = s.accepted
  redeemed : s'.redeemed = s.redeemed
  device : ∀ (k' : Kind) (n : ℕ) x, (s.device k')[n]? = some x → (s'.device k')[n]? = some x
  status : ∀ v, (s'.voucher v).status = (s.voucher v).status ∨
    ∃ st, s.worker k = .busy (.store st) v ∧ (s'.voucher v).status = st
  others : ∀ k', k' ≠ k → s'.worker k' = s.worker k' ∧ s'.device k' = s.device k'
  locks : LockStep s.mute s'.mute s.lock s'.lock (.worker k)

section Worker

omit [DecidableEq T]

variable {v : VoucherPtr} {wpc : WorkerPC D} {x : Voucher T D}

theorem lock_setWorker (hw : s'.worker = Function.update s.worker k wpc) :
    s'.lock (.worker k) = wpc.lock := by
  rw [State.lock, hw, Function.update_self]

theorem lockStep_worker (hw : s'.worker = Function.update s.worker k wpc)
    (hm : ∀ v, (s'.voucher v).mute = (s.voucher v).mute) (hl : wpc.lock = (s.worker k).lock) :
    LockStep s.mute s'.mute s.lock s'.lock (.worker k) :=
  .keep hm ((lock_setWorker hw).trans hl)

theorem WorkFrame.setWorker (hl : wpc.lock = (s.worker k).lock) :
    WorkFrame s k (s.setWorker k wpc) :=
  ⟨rfl, rfl, rfl, fun _ _ _ hx => hx, fun _ => Or.inl rfl,
    fun _ hk => ⟨Function.update_of_ne hk _ _, rfl⟩, lockStep_worker rfl (fun _ => rfl) hl⟩

theorem WorkFrame.setVoucher (hx : x.status = (s.voucher v).status)
    (hl : LockStep s.mute ((s.setVoucher v x).setWorker k wpc).mute s.lock
      ((s.setVoucher v x).setWorker k wpc).lock (.worker k)) :
    WorkFrame s k ((s.setVoucher v x).setWorker k wpc) :=
  ⟨rfl, rfl, rfl, fun _ _ _ hx => hx, fun w => Or.inl (view_update Voucher.status hx w),
    fun _ hk => ⟨Function.update_of_ne hk _ _, rfl⟩, hl⟩

theorem workStep_frame {ph : WorkPhase D} (hw : s.worker k = .busy ph v)
    (hs : workStep s k st v ph = some s') : WorkFrame s k s' := by
  have hlock : (s.worker k).lock = (WorkerPC.busy ph v).lock := by
    rw [hw]
  cases ph with
  | lock =>
    rw [workStep] at hs
    split_ifs at hs with hfree
    obtain rfl := Option.some.inj hs
    refine .setVoucher rfl ?_
    exact .acquire v (mute_setVoucher_self rfl rfl) (fun w hw => mute_setVoucher_of_ne rfl hw) hfree
      hlock ((lock_setWorker rfl).trans rfl)
  | readSd =>
    obtain rfl := Option.some.inj hs
    exact .setWorker hlock.symm
  | device sd =>
    obtain rfl := Option.some.inj hs
    refine ⟨rfl, rfl, rfl, fun k' n x hx => ?_, fun _ => Or.inl rfl,
      fun _ hk => ⟨Function.update_of_ne hk _ _, Function.update_of_ne hk _ _⟩,
      lockStep_worker rfl (fun _ => rfl) hlock.symm⟩
    change (Function.update s.device k _ k')[n]? = _
    by_cases hk : k' = k
    · subst hk
      obtain ⟨hlt, -⟩ := List.getElem?_eq_some_iff.mp hx
      rw [Function.update_self, List.getElem?_append_left hlt, hx]
    · rw [Function.update_of_ne hk, hx]
  | store st' =>
    obtain rfl := Option.some.inj hs
    refine ⟨rfl, rfl, rfl, fun _ _ _ hx => hx, fun w => ?_,
      fun _ hk => ⟨Function.update_of_ne hk _ _, rfl⟩,
      lockStep_worker rfl (view_update Voucher.mute (by rfl)) hlock.symm⟩
    by_cases hwv : w = v
    · subst hwv
      refine Or.inr ⟨st', hw, ?_⟩
      change (Function.update s.voucher w _ w).status = _
      rw [Function.update_self]
    · refine Or.inl ?_
      change (Function.update s.voucher v _ w).status = _
      rw [Function.update_of_ne hwv]
  | complete =>
    obtain rfl := Option.some.inj hs
    refine .setVoucher rfl ?_
    exact lockStep_worker rfl (view_update Voucher.mute (by rfl)) hlock.symm
  | signal =>
    obtain rfl := Option.some.inj hs
    exact .setWorker hlock.symm
  | unlock =>
    obtain rfl := Option.some.inj hs
    refine .setVoucher rfl ?_
    exact .release v (mute_setVoucher_self rfl rfl) (fun w hw => mute_setVoucher_of_ne rfl hw) hlock
      ((lock_setWorker rfl).trans rfl)

end Worker

theorem work_frame (hs : step s (.work k st) = some s') : WorkFrame s k s' := by
  rw [step] at hs
  split at hs
  · rename_i hw
    split at hs
    · exact nomatch hs
    · obtain rfl := Option.some.inj hs
      refine ⟨rfl, rfl, rfl, fun _ _ _ hx => hx, fun _ => Or.inl rfl,
        fun _ hk => ⟨Function.update_of_ne hk _ _, rfl⟩, lockStep_worker rfl (fun _ => rfl) ?_⟩
      rw [hw]
      rfl
  · rename_i ph v hw
    exact workStep_frame hw hs

/-- A step is one of a thread, which is outside the driver when the step is a call, or of a worker. -/
theorem step_cases {a : Action T D} (hs : step s a = some s') :
    (∃ t, (a = .app t ∨ s.app t = .idle) ∧ AppFrame s t s') ∨
      ∃ k st, a = .work k st ∧ WorkFrame s k s' := by
  cases a with
  | submit t k b sd =>
    rw [step] at hs
    split at hs
    · rename_i ht
      obtain rfl := Option.some.inj hs
      refine Or.inl ⟨t, Or.inr ht, .setApp rfl rfl rfl (fun _ => rfl) rfl rfl nofun ?_⟩
      refine lockStep_app rfl (fun _ => rfl) ?_
      rw [ht]
      rfl
    · exact nomatch hs
  | redeem t r =>
    rw [step] at hs
    split at hs
    · rename_i ht
      split_ifs at hs
      obtain rfl := Option.some.inj hs
      refine Or.inl ⟨t, Or.inr ht, .setApp rfl rfl rfl (fun _ => rfl) rfl rfl ?_ ?_⟩
      · intro ph r' out heq
        obtain ⟨rfl, -⟩ := AppPC.redeem.inj heq
        rfl
      · refine lockStep_app rfl (fun _ => rfl) ?_
        rw [ht]
        rfl
    · exact nomatch hs
  | app t => exact Or.inl ⟨t, Or.inl rfl, appStep_frame hs⟩
  | work k st => exact Or.inr ⟨k, st, rfl, work_frame hs⟩

end CIS415.DiskDriver
