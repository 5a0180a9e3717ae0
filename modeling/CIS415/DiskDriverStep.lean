import CIS415.DiskDriverInv
import Mathlib.Data.Fintype.Card

/-!
# Every step keeps the invariant
-/

namespace CIS415.DiskDriver

open Ownership System

variable {T D : Type} {s s' : State T D} {place : VoucherPtr → Place T} {done : Kind → ℕ} {t : T}
  {k : Kind} {b : Bool} {sd : Option D} {v : VoucherPtr} {x : Voucher T D} {r : Request}
  {out : Option (Option D)} {m : Option (Owner T)} {pc : AppPC D} {wpc : WorkerPC D} {st : ℤ}

theorem Inv.pending_nodup (h : Inv s place done) (k : Kind) :
    ((s.worker k).fetched ++ s.queue k).Nodup := by
  rw [← h.logged.pending_eq, List.Nodup, List.pairwise_iff_getElem]
  intro i j hi hj hij heq
  have hd := h.logged.done_eq k
  simp only [List.getElem_map, List.getElem_drop] at heq
  rw [List.length_map, List.length_drop] at hi hj
  obtain ⟨o, ho⟩ := h.recorded.out k ((s.device k).length + i) _
    (List.getElem?_eq_getElem (by omega)) (by omega)
  obtain ⟨o', ho'⟩ := h.recorded.out k ((s.device k).length + j) _
    (List.getElem?_eq_getElem (by omega)) (by omega)
  rw [heq, ho', Place.request.injEq, Request.mk.injEq] at ho
  omega

theorem Inv.queue_length_le (h : Inv s place done) (k : Kind) : (s.queue k).length ≤ vSize := by
  have hnd := (List.nodup_append.mp (h.pending_nodup k)).2.1
  simpa using List.Nodup.length_le_card hnd

theorem Inv.pool_length_le (h : Inv s place done) : s.vouchBB.length ≤ vSize := by
  simpa using List.Nodup.length_le_card h.pool_nodup

theorem Inv.place_redeem (h : Inv s place done) (ht : (s.app t).request = some r) :
    place r.v = .request r (some t) :=
  (h.owned (.request r (some t)) r.v).mp ⟨rfl, ht⟩

theorem Inv.place_submit (h : Inv s place done) (ht : (s.app t).voucher = some v) :
    place v = .submitter t :=
  (h.owned (.submitter t) v).mp ht

theorem Inv.place_pool (h : Inv s place done) {rest : List VoucherPtr}
    (hbb : s.vouchBB = v :: rest) : place v = .pool :=
  (h.owned .pool v).mp (by simp [Holds, hbb])

/-- A voucher in the hands of a worker is out for its current request. -/
theorem Inv.place_worker (h : Inv s place done) {k : Kind} {ph : WorkPhase D} {v : VoucherPtr}
    (hw : s.worker k = .busy ph v) :
    ∃ n o, place v = .request ⟨v, k, n⟩ o ∧ WorkOk s.voucher (done k) k (s.device k) n v ph := by
  have hok := h.work_ok k
  rwa [hw] at hok

/-- The worker has let go of a voucher whose redeemer has passed the wait loop. -/
theorem Inv.not_workOk (h : Inv s place done) {ph : RedeemPhase D} (ht : s.app t = .redeem ph r out)
    (hl : ph.locked = true) (hp : ph.passed = true) (wph : WorkPhase D) :
    ¬ WorkOk s.voucher (done r.kind) r.kind (s.device r.kind) r.index r.v wph := by
  have hok := h.app_ok t
  rw [ht] at hok
  have hm := hok.1 hl
  have hlt := hok.2 hp
  intro hw
  cases wph with
  | lock => exact absurd hw hlt.ne
  | readSd => exact absurd hw.1 hlt.ne
  | device sd => exact absurd hw.1 hlt.ne
  | store st => exact absurd hw.1 hlt.ne
  | complete => exact absurd hw.1 hlt.ne
  | signal => exact nomatch hm.symm.trans hw.2
  | unlock => exact nomatch hm.symm.trans hw.2

theorem Inv.setWorker (h : Inv s place done) (hf : wpc.fetched = (s.worker k).fetched)
    (hl : wpc.logged = (s.worker k).logged)
    (hok : WorkerOk s.voucher s.device place done k wpc) : Inv (s.setWorker k wpc) place done where
  owned := h.owned
  pool_nodup := h.pool_nodup
  issued_nodup := h.issued_nodup
  logged := h.logged.setWorker hf hl
  recorded := h.recorded
  app_ok := h.app_ok
  work_ok := (Function.forall_update_iff s.worker
    fun k' wpc => WorkerOk s.voucher s.device place done k' wpc).mpr ⟨hok, fun k' _ => h.work_ok k'⟩

theorem Inv.setMute_work (h : Inv s place done)
    (hm : ∀ o, (s.voucher v).mute = some o → o = .worker k)
    (hf : wpc.fetched = (s.worker k).fetched) (hl : wpc.logged = (s.worker k).logged)
    (hok : WorkerOk (Function.update s.voucher v { s.voucher v with mute := m }) s.device place done
      k wpc) :
    Inv ((s.setVoucher v { s.voucher v with mute := m }).setWorker k wpc) place done where
  owned := h.owned
  pool_nodup := h.pool_nodup
  issued_nodup := h.issued_nodup
  logged := h.logged.setWorker hf hl
  recorded := by
    apply h.recorded.setVoucher
    intro r o hp
    exact ⟨rfl, rfl, id, fun _ => rfl⟩
  app_ok := by
    intro t
    apply (h.app_ok t).setMute
    intro heq
    exact nomatch hm _ heq
  work_ok := by
    apply (Function.forall_update_iff s.worker fun k' wpc => WorkerOk _ s.device place done k' wpc).mpr
    refine ⟨hok, fun k' hk' => (h.work_ok k').setMute ?_⟩
    intro heq
    exact hk' (Owner.worker.inj (hm _ heq))

/-- `blockingReadBB(writeBB)` or `blockingReadBB(readBB)`: the voucher is out for the next request of
the worker. -/
theorem Inv.fetch (h : Inv s place done) {rest : List VoucherPtr} (hw : s.worker k = .idle)
    (hq : s.queue k = v :: rest) :
    Inv ({ s with queue := Function.update s.queue k rest }.setWorker k (.busy .lock v)) place
      done where
  owned := h.owned
  pool_nodup := h.pool_nodup
  issued_nodup := h.issued_nodup
  logged := h.logged.fetch hw hq
  recorded := h.recorded
  app_ok := h.app_ok
  work_ok := by
    apply (Function.forall_update_iff s.worker
      fun k' wpc => WorkerOk s.voucher s.device place done k' wpc).mpr
    refine ⟨?_, fun k' _ => h.work_ok k'⟩
    have hdone := h.logged.done_eq k
    have hpend := h.logged.pending_eq k
    rw [hw, hq] at hpend
    rw [hw] at hdone
    have hlt : (s.device k).length < (s.accepted k).length := by
      have hlen := congrArg List.length hpend
      rw [List.length_map, List.length_drop, List.length_append, List.length_cons] at hlen
      omega
    have hv : ((s.accepted k)[(s.device k).length]).1 = v := by
      rw [List.drop_eq_getElem_cons hlt] at hpend
      exact (List.cons.inj hpend).1
    obtain ⟨o, ho⟩ := h.recorded.out k _ _ (List.getElem?_eq_getElem hlt) hdone.ge
    rw [hv] at ho
    exact ⟨_, o, ho, hdone⟩

theorem Inv.device (h : Inv s place done) (hw : s.worker k = .busy (.device sd) v) :
    Inv ({ s with device := Function.update s.device k (s.device k ++ [(v, sd, st)]) }.setWorker k
      (.busy (.store st) v)) place done := by
  have hok := h.work_ok k
  have hdone := h.logged.done_eq k
  rw [hw] at hok hdone
  obtain ⟨n, o, hp, rfl, hm, rfl⟩ := hok
  replace hdone : (s.device k).length = done k := hdone
  exact {
    owned := h.owned
    pool_nodup := h.pool_nodup
    issued_nodup := h.issued_nodup
    logged := h.logged.append hw (by rw [hdone]; exact (h.recorded.fields v _ o hp).1)
    recorded := h.recorded.append
    app_ok := h.app_ok
    work_ok := by
      apply (Function.forall_update_iff s.worker fun k' wpc => WorkerOk s.voucher _ place done k'
        wpc).mpr
      refine ⟨⟨done k, o, hp, rfl, hm, ?_⟩, fun k' hk' => (h.work_ok k').congr ?_ rfl⟩
      · change (Function.update s.device k _ k)[done k]? = _
        rw [Function.update_self, ← hdone]
        exact List.getElem?_concat_length
      · exact Function.update_of_ne hk' _ _ }

theorem Inv.store (h : Inv s place done) (hw : s.worker k = .busy (.store st) v) :
    Inv ((s.setVoucher v { s.voucher v with status := st }).setWorker k (.busy .complete v)) place
      done := by
  have hok := h.work_ok k
  rw [hw] at hok
  obtain ⟨n, o, hp, rfl, hm, hdev⟩ := hok
  exact {
    owned := h.owned
    pool_nodup := h.pool_nodup
    issued_nodup := h.issued_nodup
    logged := h.logged.setWorker (by rw [hw]; rfl) (by rw [hw]; rfl)
    recorded := by
      apply h.recorded.setVoucher
      intro r o' hp'
      rw [hp, Place.request.injEq] at hp'
      obtain ⟨rfl, -⟩ := hp'
      exact ⟨rfl, rfl, id, fun hlt => absurd hlt (lt_irrefl _)⟩
    app_ok := by
      intro t
      refine (h.app_ok t).setVoucher (fun heq => ?_) (by rfl)
      exact nomatch (h.place_submit heq).symm.trans hp
    work_ok := by
      apply (Function.forall_update_iff s.worker fun k' wpc => WorkerOk _ s.device place done k'
        wpc).mpr
      refine ⟨⟨done k, o, hp, rfl, ?_, ?_⟩, fun k' hk' => (h.work_ok k').setVoucher ?_⟩
      · change (Function.update s.voucher v _ v).mute = _
        rw [Function.update_self]
        exact hm
      · change _ = some (v, (Function.update s.voucher v _ v).sd,
          (Function.update s.voucher v _ v).status)
        rw [Function.update_self]
        exact hdev
      · intro n o' hp'
        rw [hp, Place.request.injEq, Request.mk.injEq] at hp'
        exact absurd hp'.1.2.1.symm hk' }

/-- `completed = 1`: from here on the request is done. -/
theorem Inv.complete (h : Inv s place done) (hw : s.worker k = .busy .complete v) :
    Inv ((s.setVoucher v { s.voucher v with completed := 1 }).setWorker k (.busy .signal v)) place
      (Function.update done k (done k + 1)) := by
  have hok := h.work_ok k
  rw [hw] at hok
  obtain ⟨n, o, hp, rfl, hm, hdev⟩ := hok
  have hle : ∀ k', done k' ≤ Function.update done k (done k + 1) k' :=
    (Function.forall_update_iff done fun k' n => done k' ≤ n).mpr
      ⟨Nat.le_succ _, fun k' _ => le_rfl⟩
  exact {
    owned := h.owned
    pool_nodup := h.pool_nodup
    issued_nodup := h.issued_nodup
    logged := h.logged.complete hw
    recorded := h.recorded.complete hp hdev
    app_ok := by
      intro t
      refine ((h.app_ok t).mono hle).setVoucher (fun heq => ?_) (by rfl)
      exact nomatch (h.place_submit heq).symm.trans hp
    work_ok := by
      apply (Function.forall_update_iff s.worker fun k' wpc => WorkerOk _ s.device place _ k'
        wpc).mpr
      refine ⟨⟨done k, o, hp, ?_, ?_⟩, fun k' hk' => ?_⟩
      · rw [Function.update_self]
        exact Nat.lt_succ_self _
      · change (Function.update s.voucher v _ v).mute = _
        rw [Function.update_self]
        exact hm
      · have hother : WorkerOk s.voucher s.device place (Function.update done k (done k + 1)) k'
            (s.worker k') :=
          (h.work_ok k').congr rfl (Function.update_of_ne hk' (done k + 1) done)
        exact hother.setVoucher fun n o' _ => ⟨rfl, rfl, rfl⟩ }

theorem Inv.workStep (h : Inv s place done) {ph : WorkPhase D} (hw : s.worker k = .busy ph v)
    (hs : workStep s k st v ph = some s') : ∃ done', Inv s' place done' := by
  have hok := h.work_ok k
  rw [hw] at hok
  obtain ⟨n, o, hp, hok⟩ := hok
  have hmute : ∀ wpc m, wpc.fetched = (WorkerPC.busy ph v).fetched →
      wpc.logged = (WorkerPC.busy ph v).logged →
      (∀ o, (s.voucher v).mute = some o → o = .worker k) →
      WorkerOk (Function.update s.voucher v { s.voucher v with mute := m }) s.device place done k wpc →
      Inv ((s.setVoucher v { s.voucher v with mute := m }).setWorker k wpc) place done := by
    intro wpc m hf hl hm hok'
    exact h.setMute_work hm (by rw [hw, hf]) (by rw [hw, hl]) hok'
  cases ph with
  | lock =>
    rw [DiskDriver.workStep] at hs
    split_ifs at hs with hfree
    obtain rfl := Option.some.inj hs
    refine ⟨done, hmute _ _ rfl rfl ?_ ⟨n, o, hp, hok, ?_⟩⟩
    · intro o ho
      exact nomatch hfree.symm.trans ho
    · rw [Function.update_self]
  | readSd =>
    obtain rfl := Option.some.inj hs
    exact ⟨done, h.setWorker (by rw [hw]; rfl) (by rw [hw]; rfl) ⟨n, o, hp, hok.1, hok.2, rfl⟩⟩
  | device sd =>
    obtain rfl := Option.some.inj hs
    exact ⟨done, h.device hw⟩
  | store st =>
    obtain rfl := Option.some.inj hs
    exact ⟨done, h.store hw⟩
  | complete =>
    obtain rfl := Option.some.inj hs
    exact ⟨_, h.complete hw⟩
  | signal =>
    obtain rfl := Option.some.inj hs
    exact ⟨done, h.setWorker (by rw [hw]; rfl) (by rw [hw]; rfl) ⟨n, o, hp, hok⟩⟩
  | unlock =>
    obtain rfl := Option.some.inj hs
    refine ⟨done, hmute .idle none rfl rfl ?_ trivial⟩
    intro o ho
    exact (Option.some.inj (hok.2.symm.trans ho)).symm

variable [DecidableEq T]

theorem Inv.setApp (h : Inv s place done) (hv : pc.voucher = (s.app t).voucher)
    (hr : pc.request = (s.app t).request) (hok : AppOk s.voucher done t pc) :
    Inv (s.setApp t pc) place done where
  owned := h.owned.congr (holds_congr rfl rfl (view_update _ hv) (view_update _ hr))
  pool_nodup := h.pool_nodup
  issued_nodup := h.issued_nodup
  logged := h.logged
  recorded := h.recorded
  app_ok := (Function.forall_update_iff s.app fun t' pc => AppOk s.voucher done t' pc).mpr
    ⟨hok, fun t' _ => h.app_ok t'⟩
  work_ok := h.work_ok

theorem Inv.setMute_app (h : Inv s place done)
    (hm : ∀ o, (s.voucher v).mute = some o → o = .app t) (hv : pc.voucher = (s.app t).voucher)
    (hr : pc.request = (s.app t).request)
    (hok : AppOk (Function.update s.voucher v { s.voucher v with mute := m }) done t pc) :
    Inv ((s.setVoucher v { s.voucher v with mute := m }).setApp t pc) place done where
  owned := h.owned.congr (holds_congr rfl rfl (view_update _ hv) (view_update _ hr))
  pool_nodup := h.pool_nodup
  issued_nodup := h.issued_nodup
  logged := h.logged
  recorded := by
    apply h.recorded.setVoucher
    intro r o hp
    exact ⟨rfl, rfl, id, fun _ => rfl⟩
  app_ok := by
    apply (Function.forall_update_iff s.app fun t' pc => AppOk _ done t' pc).mpr
    refine ⟨hok, fun t' ht' => (h.app_ok t').setMute ?_⟩
    intro heq
    exact ht' (Owner.app.inj (hm _ heq))
  work_ok := by
    intro k
    apply (h.work_ok k).setMute
    intro heq
    exact nomatch hm _ heq

theorem Inv.setField (h : Inv s place done) (hv : (s.app t).voucher = some v)
    (hpv : pc.voucher = some v) (hr : (s.app t).request = none) (hpr : pc.request = none)
    (hm : x.mute = (s.voucher v).mute) (hok : AppOk (Function.update s.voucher v x) done t pc) :
    Inv ((s.setVoucher v x).setApp t pc) place done where
  owned := h.owned.congr
    (holds_congr rfl rfl (view_update _ (hpv.trans hv.symm)) (view_update _ (hpr.trans hr.symm)))
  pool_nodup := h.pool_nodup
  issued_nodup := h.issued_nodup
  logged := h.logged
  recorded := by
    apply h.recorded.setVoucher
    intro r o hp
    exact nomatch (h.place_submit hv).symm.trans hp
  app_ok := by
    apply (Function.forall_update_iff s.app fun t' pc => AppOk _ done t' pc).mpr
    refine ⟨hok, fun t' ht' => (h.app_ok t').setVoucher ?_ hm⟩
    intro heq
    exact ht' (Place.submitter.inj ((h.place_submit heq).symm.trans (h.place_submit hv)))
  work_ok := by
    intro k
    apply (h.work_ok k).setVoucher
    intro n o hp
    exact nomatch (h.place_submit hv).symm.trans hp

theorem Inv.take (h : Inv s place done) {rest : List VoucherPtr} (hbb : s.vouchBB = v :: rest)
    (ht : s.app t = .take k b sd) :
    Inv ({ s with vouchBB := rest }.setApp t (.submit .setReadWrite k b sd v))
      (Function.update place v (.submitter t)) done where
  owned := placed_take h.owned h.pool_nodup hbb (by rw [ht]; rfl) (by rw [ht]; rfl) rfl rfl
  pool_nodup := (hbb ▸ h.pool_nodup).of_cons
  issued_nodup := h.issued_nodup
  logged := h.logged
  recorded := by
    apply h.recorded.move
    · intro r o heq
      cases heq
    · intro r o hp
      cases (h.place_pool hbb).symm.trans hp
  app_ok := (Function.forall_update_iff s.app fun t' pc => AppOk s.voucher done t' pc).mpr
    ⟨trivial, fun t' _ => h.app_ok t'⟩
  work_ok := by
    intro k
    apply (h.work_ok k).move
    intro n o ph hp
    cases (h.place_pool hbb).symm.trans hp

/-- `blockingWriteBB` or `nonblockingWriteBB` into the queue of a worker. -/
theorem Inv.enqueue (h : Inv s place done) (ht : s.app t = .submit .enqueue k b sd v) :
    Inv ({ s with
        queue := Function.update s.queue k (s.queue k ++ [v])
        accepted := Function.update s.accepted k (s.accepted k ++ [(v, sd)])
        issued := s.issued ++ [(⟨v, k, (s.accepted k).length⟩ : Request)] }.setApp t .idle)
      (Function.update place v (.request ⟨v, k, (s.accepted k).length⟩ none)) done := by
  have hsub : place v = .submitter t := h.place_submit (by rw [ht]; rfl)
  have hok := h.app_ok t
  rw [ht] at hok
  obtain ⟨hrw, hc, hsd⟩ := hok
  exact {
    owned := placed_enqueue (r := ⟨v, k, (s.accepted k).length⟩) h.owned (by rw [ht]; rfl)
      (by rw [ht]; rfl) rfl rfl
    pool_nodup := h.pool_nodup
    issued_nodup := by
      apply h.issued_nodup.append (List.nodup_singleton _)
      rw [List.disjoint_singleton]
      intro hin
      exact nomatch hsub.symm.trans ((h.owned (.request _ none) v).mp ⟨rfl, hin⟩)
    logged := h.logged.enqueue
    recorded := by
      apply h.recorded.enqueue _ hrw hc hsd (h.logged.done_le k)
      intro r o hp
      exact nomatch hsub.symm.trans hp
    app_ok := (Function.forall_update_iff s.app fun t' pc => AppOk s.voucher done t' pc).mpr
      ⟨trivial, fun t' _ => h.app_ok t'⟩
    work_ok := by
      intro k'
      apply (h.work_ok k').move
      intro n o ph hp
      exact nomatch hsub.symm.trans hp }

theorem Inv.submitStep (h : Inv s place done) {ph : SubmitPhase}
    (ht : s.app t = .submit ph k b sd v) (hs : submitStep s t k b sd v ph = some s') :
    ∃ place', Inv s' place' done := by
  have hok := h.app_ok t
  rw [ht] at hok
  cases ph with
  | setReadWrite =>
    obtain rfl := Option.some.inj hs
    refine ⟨place, h.setField (by rw [ht]; rfl) rfl (by rw [ht]; rfl) rfl rfl ?_⟩
    simp [AppOk]
  | setCompleted =>
    obtain rfl := Option.some.inj hs
    refine ⟨place, h.setField (by rw [ht]; rfl) rfl (by rw [ht]; rfl) rfl rfl ?_⟩
    simpa [AppOk] using hok
  | setSd =>
    obtain rfl := Option.some.inj hs
    refine ⟨place, h.setField (by rw [ht]; rfl) rfl (by rw [ht]; rfl) rfl rfl ?_⟩
    simpa [AppOk] using hok
  | enqueue =>
    have hroom : (s.queue k).length < size := lt_of_le_of_lt (h.queue_length_le k) (by decide)
    rw [DiskDriver.submitStep, if_pos hroom] at hs
    obtain rfl := Option.some.inj hs
    exact ⟨_, h.enqueue ht⟩

theorem Inv.redeem (h : Inv s place done) (ht : s.app t = .idle) (hr : r ∈ s.issued) :
    Inv ({ s with issued := s.issued.erase r }.setApp t (.redeem .lock r none))
      (Function.update place r.v (.request r (some t))) done where
  owned := placed_redeem h.owned h.issued_nodup hr (by rw [ht]; rfl) (by rw [ht]; rfl) rfl rfl
  pool_nodup := h.pool_nodup
  issued_nodup := h.issued_nodup.erase r
  logged := h.logged
  recorded := h.recorded.redeem ((h.owned (.request r none) r.v).mp ⟨rfl, hr⟩)
  app_ok := (Function.forall_update_iff s.app fun t' pc => AppOk s.voucher done t' pc).mpr
    ⟨⟨nofun, nofun⟩, fun t' _ => h.app_ok t'⟩
  work_ok := by
    intro k
    apply (h.work_ok k).move
    intro n o ph hp hok
    have hout : place r.v = .request r none := (h.owned (.request r none) r.v).mp ⟨rfl, hr⟩
    rw [hout, Place.request.injEq] at hp
    exact ⟨some t, by rw [hp.1]⟩

theorem Inv.reset (h : Inv s place done) (ht : s.app t = .redeem .reset r out) :
    Inv ((s.setVoucher r.v { s.voucher r.v with completed := 0 }).setApp t
      (.redeem .giveBack r out)) place done where
  owned := by
    have hv : AppPC.voucher (.redeem .giveBack r out) = (s.app t).voucher := by rw [ht]; rfl
    have hr : AppPC.request (.redeem .giveBack r out) = (s.app t).request := by rw [ht]; rfl
    exact h.owned.congr (holds_congr rfl rfl (view_update _ hv) (view_update _ hr))
  pool_nodup := h.pool_nodup
  issued_nodup := h.issued_nodup
  logged := h.logged
  recorded := by
    apply h.recorded.setVoucher
    intro r o hp
    exact ⟨rfl, rfl, fun hc => absurd rfl hc, fun _ => rfl⟩
  app_ok := by
    have hok := h.app_ok t
    rw [ht] at hok
    apply (Function.forall_update_iff s.app fun t' pc => AppOk _ done t' pc).mpr
    refine ⟨⟨fun _ => ?_, hok.2⟩, fun t' _ => (h.app_ok t').setVoucher ?_ rfl⟩
    · exact (view_update Voucher.mute (by rfl) r.v).trans (hok.1 rfl)
    · intro heq
      have hred : place r.v = .request r (some t) := h.place_redeem (by rw [ht]; rfl)
      exact nomatch (h.place_submit heq).symm.trans hred
  work_ok := by
    intro k
    apply (h.work_ok k).setVoucher
    intro n o hp
    exact ⟨rfl, rfl, rfl⟩

theorem Inv.giveBack (h : Inv s place done) (ht : s.app t = .redeem .giveBack r out) :
    Inv ({ s with vouchBB := s.vouchBB ++ [r.v] }.setApp t (.redeem .unlock r out))
      (Function.update place r.v .pool) done := by
  have hred : place r.v = .request r (some t) := h.place_redeem (by rw [ht]; rfl)
  have hok := h.app_ok t
  rw [ht] at hok
  exact {
    owned := placed_giveBack h.owned (by rw [ht]; rfl) (by rw [ht]; rfl) rfl rfl
    pool_nodup := by
      apply h.pool_nodup.append (List.nodup_singleton _)
      rw [List.disjoint_singleton]
      intro hin
      exact nomatch hred.symm.trans ((h.owned .pool r.v).mp hin)
    issued_nodup := h.issued_nodup
    logged := h.logged
    recorded := by
      apply h.recorded.move
      · intro q o heq
        exact nomatch heq
      · intro q o hp
        rw [hred, Place.request.injEq] at hp
        rw [← hp.1]
        exact hok.2 rfl
    app_ok := (Function.forall_update_iff s.app fun t' pc => AppOk s.voucher done t' pc).mpr
      ⟨hok, fun t' _ => h.app_ok t'⟩
    work_ok := by
      intro k
      apply (h.work_ok k).move
      intro n o ph hp hwork
      rw [hred, Place.request.injEq] at hp
      rw [hp.1] at ht
      exact absurd hwork (h.not_workOk ht rfl rfl ph) }

theorem Inv.redeemStep (h : Inv s place done) {ph : RedeemPhase D} (ht : s.app t = .redeem ph r out)
    (hs : redeemStep s t r out ph = some s') : ∃ place', Inv s' place' done := by
  have hok := h.app_ok t
  rw [ht] at hok
  -- the phases that only move on
  have hnext : ∀ ph' out', ph'.returned = ph.returned →
      (ph'.locked = true → ph.locked = true) → (ph'.passed = true → r.index < done r.kind) →
      Inv (s.setApp t (.redeem ph' r out')) place done := by
    intro ph' out' hret hl hp
    apply h.setApp
    · rw [ht]
      rfl
    · rw [ht]
      simp only [AppPC.request, hret]
    · exact ⟨fun hl' => hok.1 (hl hl'), hp⟩
  have hmute : ∀ ph' m, ph'.returned = ph.returned →
      (∀ o, (s.voucher r.v).mute = some o → o = .app t) →
      (ph'.locked = true → m = some (.app t)) → (ph'.passed = true → r.index < done r.kind) →
      Inv ((s.setVoucher r.v { s.voucher r.v with mute := m }).setApp t (.redeem ph' r out))
        place done := by
    intro ph' m hret hm hl hp
    apply h.setMute_app hm
    · rw [ht]
      rfl
    · rw [ht]
      simp only [AppPC.request, hret]
    · refine ⟨fun hl' => ?_, hp⟩
      rw [Function.update_self]
      exact hl hl'
  have hheld : ph.locked = true → ∀ o, (s.voucher r.v).mute = some o → o = .app t := by
    intro hl o ho
    exact (Option.some.inj ((hok.1 hl).symm.trans ho)).symm
  have hfalse : ∀ {P : Prop}, false = true → P := fun h => absurd h Bool.false_ne_true
  cases redeemStep_move hs with
  | next ph' out' hl hret hret' hpassed =>
    refine ⟨place, hnext ph' out' (hret'.trans hret.symm) (fun hl' => hl ▸ hl') fun hp => ?_⟩
    rcases hpassed hp with hpassed | hc
    · exact hok.2 hpassed
    · have hred : place r.v = .request r (some t) :=
        h.place_redeem (by rw [ht]; exact request_of_returned hret)
      exact h.recorded.completed r.v r (some t) hred (by omega)
  | lock hfree =>
    refine ⟨place, hmute .test _ rfl ?_ (fun _ => rfl) hfalse⟩
    intro o ho
    cases hfree.symm.trans ho
  | release => exact ⟨place, hmute .wait none rfl (hheld rfl) hfalse hfalse⟩
  | putSd sd =>
    have hreset := hnext .reset out rfl id hok.2
    exact ⟨place, { hreset with }⟩
  | reset => exact ⟨place, h.reset ht⟩
  | giveBack => exact ⟨_, h.giveBack ht⟩
  | unlock => exact ⟨place, hmute .ret none rfl (hheld rfl) hfalse hok.2⟩
  | ret =>
    have hidle : Inv (s.setApp t .idle) place done := by
      apply h.setApp
      · rw [ht]
        rfl
      · rw [ht]
        rfl
      · trivial
    exact ⟨place, { hidle with }⟩

theorem Inv.step (h : Inv s place done) {a : Action T D} (hs : step s a = some s') :
    ∃ place' done', Inv s' place' done' := by
  cases a with
  | submit t k b sd =>
    rw [DiskDriver.step] at hs
    split at hs
    · rename_i ht
      obtain rfl := Option.some.inj hs
      have hidle : Inv (s.setApp t (.take k b sd)) place done := by
        apply h.setApp
        · rw [ht]
          rfl
        · rw [ht]
          rfl
        · trivial
      exact ⟨place, done, hidle⟩
    · exact nomatch hs
  | redeem t r =>
    rw [DiskDriver.step] at hs
    split at hs
    · rename_i ht
      split_ifs at hs with hr
      obtain rfl := Option.some.inj hs
      exact ⟨_, done, h.redeem ht hr⟩
    · exact nomatch hs
  | app t =>
    rw [DiskDriver.step, appStep] at hs
    split at hs
    · exact nomatch hs
    · rename_i k b sd ht
      split at hs
      · exact nomatch hs
      · rename_i v rest hbb
        obtain rfl := Option.some.inj hs
        exact ⟨_, done, h.take hbb ht⟩
    · rename_i ph k b sd v ht
      obtain ⟨place', h'⟩ := h.submitStep ht hs
      exact ⟨place', done, h'⟩
    · rename_i v ht
      have hok := h.app_ok t
      rw [ht] at hok
      exact hok.elim
    · rename_i ph r out ht
      obtain ⟨place', h'⟩ := h.redeemStep ht hs
      exact ⟨place', done, h'⟩
  | work k st =>
    rw [DiskDriver.step] at hs
    split at hs
    · rename_i hw
      split at hs
      · exact nomatch hs
      · rename_i v rest hq
        obtain rfl := Option.some.inj hs
        exact ⟨place, done, h.fetch hw hq⟩
    · rename_i ph v hw
      obtain ⟨done', h'⟩ := h.workStep hw hs
      exact ⟨place, done', h'⟩

/-- Every state reached from the one that `init_disk_driver` leaves satisfies the invariant. -/
theorem inv_run {as : List (Action T D)} (h : run as = some s) : ∃ place done, Inv s place done := by
  have hstep : ∀ s (a : Action T D) s', (∃ place done, Inv s place done) →
      DiskDriver.step s a = some s' → ∃ place done, Inv s' place done := by
    rintro s a s' ⟨place, done, hinv⟩ hs
    exact hinv.step hs
  exact exec_invariant (I := fun s => ∃ place done, Inv s place done) hstep ⟨_, _, inv_init⟩ h

end CIS415.DiskDriver
