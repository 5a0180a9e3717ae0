import CIS415.DiskDriverServe
import CIS415.Lib.Fairness

/-!
# Every accepted request is executed once, in order

The device log of each kind is what was accepted, in order, up to what the queue and the worker still
hold. Under a scheduler that treats the steps of the workers strongly fairly, because they compete for
the mutexes, and those of each thread weakly fairly, every accepted request comes to its turn.
-/

namespace CIS415.DiskDriver

open Ownership System

variable {T D : Type} [DecidableEq T] {s s' : State T D} {k : Kind} {v : VoucherPtr}

def Action.ofWorker (k : Kind) : Action T D → Prop
  | .work k' _ => k' = k
  | _ => False

def Action.ofThread (t : T) : Action T D → Prop
  | .app u => u = t
  | _ => False

structure Fair (tr : Trace (step (T := T) (D := D))) : Prop where
  worker : ∀ k, tr.StronglyFair (Action.ofWorker k)
  thread : ∀ t, tr.WeaklyFair (Action.ofThread t)

/-- The voucher on whose condition a thread waits. -/
def State.sleeps (s : State T D) (t : T) : Option VoucherPtr :=
  match s.app t with
  | .redeem .wait r _ => some r.v
  | _ => none

/-- A schedule that owes nothing to a thread in `pthread_cond_wait`. -/
structure Steady (tr : Trace (step (T := T) (D := D))) : Prop where
  worker : ∀ k, tr.StronglyFair (Action.ofWorker k)
  thread : ∀ t, tr.WeaklyFairWhile (fun s => s.sleeps t = none) (Action.ofThread t)

theorem Fair.steady {tr : Trace (step (T := T) (D := D))} (h : Fair tr) : Steady tr :=
  ⟨h.worker, fun t => (h.thread t).weaken _⟩

structure Waits (k : Kind) (v : VoucherPtr) (s : State T D) : Prop where
  sound : Sound s
  worker : s.worker k = .busy .lock v
  taken : s.mute v ≠ none

/-- Nothing but a free mutex ends the wait. -/
theorem waits_until (k : Kind) (v : VoucherPtr) :
    Until step (Waits k v) fun s : State T D => s.mute v = none := by
  intro s a s' h hs
  by_cases hfree : s'.mute v = none
  · exact Or.inr hfree
  · refine Or.inl ⟨sound_step s a s' h.sound hs, ?_, hfree⟩
    rcases step_cases hs with ⟨t, -, hf⟩ | ⟨k', st, rfl, hf⟩
    · rw [hf.worker, h.worker]
    · by_cases hk : k = k'
      · subst hk
        simp only [step, h.worker, workStep, if_neg (show (s.voucher v).mute ≠ none from h.taken)]
          at hs
        cases hs
      · rw [(hf.others k hk).1, h.worker]

/-- What the other threads and the workers leave to the redeemer that holds a mutex. -/
theorem holder_kept (h : Sound s) {t : T} {ph : RedeemPhase D} {r : Request}
    {out : Option (Option D)} (ht : s.app t = .redeem ph r out) (hm : s.mute v = some (.app t))
    {a : Action T D} (ha : ¬ a.ofThread t) (hs : step s a = some s') :
    s'.app t = .redeem ph r out ∧ s'.mute v = some (.app t) := by
  rcases step_cases hs with ⟨u, hu, hf⟩ | ⟨k', st, rfl, hf⟩
  · have htu : t ≠ u := by
      rintro rfl
      rcases hu with rfl | hidle
      · exact ha rfl
      · cases ht.symm.trans hidle
    exact ⟨by rw [hf.others t htu, ht], hf.locks.held h.2 (fun he => htu (Owner.app.inj he)) hm⟩
  · refine ⟨by rw [hf.app, ht], hf.locks.held h.2 (fun he => ?_) hm⟩
    cases he

/-- The steps that the holder of a mutex has to go before it gives the mutex up, at the phases where
a worker may wait for it. -/
def RedeemPhase.rank : RedeemPhase D → ℕ
  | .test => 2
  | _ => 1

def State.holderRank (s : State T D) (v : VoucherPtr) : ℕ :=
  match s.mute v with
  | some (.app t) =>
    match s.app t with
    | .redeem ph _ _ => ph.rank
    | _ => 0
  | _ => 0

omit [DecidableEq T] in
theorem holderRank_eq {t : T} {ph : RedeemPhase D} {r : Request} {out : Option (Option D)}
    (ht : s.app t = .redeem ph r out) (hm : s.mute v = some (.app t)) :
    s.holderRank v = ph.rank := by
  simp only [State.holderRank, hm, ht]

structure Held (k : Kind) (t : T) (ph : RedeemPhase D) (r : Request) (out : Option (Option D))
    (s : State T D) : Prop where
  waits : Waits k r.v s
  app : s.app t = .redeem ph r out
  mute : s.mute r.v = some (.app t)

omit [DecidableEq T] in
theorem Held.phase {t : T} {ph : RedeemPhase D} {r : Request} {out : Option (Option D)}
    (h : Held k t ph r out s) :
    ph = .release ∨ ph = .unlock ∨ ph = .test ∧ (s.voucher r.v).completed ≠ 1 := by
  obtain ⟨⟨place, done, hinv⟩, hl⟩ := h.waits.sound
  obtain ⟨u, ph', r', out', hu, ht, -, hph⟩ := holder_redeems hinv hl h.waits.worker h.mute
  obtain rfl := Owner.app.inj hu
  obtain ⟨rfl, -, -⟩ := AppPC.redeem.inj (h.app.symm.trans ht)
  exact hph

theorem Held.step {t : T} {ph : RedeemPhase D} {r : Request} {out : Option (Option D)}
    (h : Held k t ph r out s) (hs : step s (.app t) = some s') :
    s'.mute r.v = none ∨ Waits k r.v s' ∧ s'.holderRank r.v < ph.rank := by
  have hph := h.phase
  simp only [DiskDriver.step, appStep, h.app] at hs
  rcases hph with rfl | rfl | ⟨rfl, hc⟩
  · obtain rfl := Option.some.inj hs
    exact Or.inl (mute_setVoucher_self rfl rfl)
  · obtain rfl := Option.some.inj hs
    exact Or.inl (mute_setVoucher_self rfl rfl)
  · rw [redeemStep, if_pos hc] at hs
    obtain rfl := Option.some.inj hs
    have hrank := holderRank_eq (s := s.setApp t (.redeem .release r out)) (v := r.v)
      (State.setApp_self s t _) h.mute
    refine (waits_until k r.v s (.app t) _ h.waits ?_).symm.imp id fun hw => ⟨hw, ?_⟩
    · simp only [DiskDriver.step, appStep, h.app, redeemStep, if_pos hc]
    · rw [hrank]
      exact Nat.lt_succ_self 1

theorem Held.enabled {t : T} {ph : RedeemPhase D} {r : Request} {out : Option (Option D)}
    (h : Held k t ph r out s) : Enabled DiskDriver.step (Action.ofThread t) s := by
  refine ⟨.app t, rfl, ?_⟩
  rcases h.phase with rfl | rfl | ⟨rfl, hc⟩
  · simp only [DiskDriver.step, appStep, h.app, redeemStep, Option.isSome_some]
  · simp only [DiskDriver.step, appStep, h.app, redeemStep, Option.isSome_some]
  · simp only [DiskDriver.step, appStep, h.app, redeemStep, if_pos hc, Option.isSome_some]

omit [DecidableEq T] in
theorem Held.awake {t : T} {ph : RedeemPhase D} {r : Request} {out : Option (Option D)}
    (h : Held k t ph r out s) : s.sleeps t = none := by
  rw [State.sleeps, h.app]
  rcases h.phase with rfl | rfl | ⟨rfl, -⟩ <;> rfl

theorem held_leads {tr : Trace (step (T := T) (D := D))} (hfair : Steady tr) (k : Kind) (t : T)
    (ph : RedeemPhase D) (r : Request) (out : Option (Option D)) :
    tr.Leads (Held k t ph r out) fun s =>
      s.mute r.v = none ∨ Waits k r.v s ∧ s.holderRank r.v < ph.rank := by
  have hact : ∀ s (a : Action T D) s', Held k t ph r out s → a.ofThread t →
      step s a = some s' →
      s'.mute r.v = none ∨ Waits k r.v s' ∧ s'.holderRank r.v < ph.rank := by
    intro s a s' h ha hs
    cases a with
    | app u =>
      obtain rfl : u = t := ha
      exact h.step hs
    | _ => exact ha.elim
  apply Trace.leads_of_weaklyFairWhile (hfair.thread t) _ hact fun s h => ⟨h.awake, h.enabled⟩
  intro s a s' h hs
  by_cases ha : a.ofThread t
  · exact Or.inr (hact s a s' h ha hs)
  · obtain ⟨happ, hmute⟩ := holder_kept h.waits.sound h.app h.mute ha hs
    rcases waits_until k r.v s a s' h.waits hs with hw | hfree
    · exact Or.inl ⟨hw, happ, hmute⟩
    · exact Or.inr (Or.inl hfree)

/-- The mutex for which a worker waits becomes free. -/
theorem mute_leads {tr : Trace (step (T := T) (D := D))} (hfair : Steady tr) (k : Kind)
    (v : VoucherPtr) : tr.Leads (Waits k v) fun s => s.mute v = none := by
  apply Trace.leads_of_rank fun s => s.holderRank v
  rintro c n ⟨hwait, hc⟩
  obtain ⟨⟨place, done, hinv⟩, hl⟩ := hwait.sound
  obtain ⟨p, hm⟩ := Option.ne_none_iff_exists'.mp hwait.taken
  obtain ⟨t, ph, r, out, rfl, ht, rfl, -⟩ := holder_redeems hinv hl hwait.worker hm
  rw [holderRank_eq ht hm] at hc
  subst hc
  exact held_leads hfair k t ph r out n ⟨hwait, ht, hm⟩

/-- The `n`-th request of kind `k` is accepted and not yet executed. -/
structure Pending (k : Kind) (n : ℕ) (s : State T D) : Prop where
  sound : Sound s
  accepted : n ≤ (s.accepted k).length
  device : (s.device k).length < n

theorem accepted_grows {a : Action T D} (hs : step s a = some s') (k : Kind) :
    s.accepted k <+: s'.accepted k := by
  rcases step_cases hs with ⟨t, -, hf⟩ | ⟨k', st, -, hf⟩
  · exact hf.accepted k
  · rw [hf.accepted]

theorem pending_until (k : Kind) (n : ℕ) :
    Until step (Pending k n) fun s : State T D => n ≤ (s.device k).length := by
  intro s a s' h hs
  by_cases hn : n ≤ (s'.device k).length
  · exact Or.inr hn
  · exact Or.inl ⟨sound_step s a s' h.sound hs,
      h.accepted.trans (accepted_grows hs k).length_le, not_le.mp hn⟩

theorem Pending.step {n : ℕ} {st : ℤ} (h : Pending k n s)
    (hs : step s (.work k st) = some s') :
    n ≤ (s'.device k).length ∨ Pending k n s' ∧ s'.rank k n < s.rank k n :=
  (pending_until k n s _ s' h hs).symm.imp id fun h' => ⟨h', work_rank h.device hs⟩

theorem worker_kept {a : Action T D} (ha : ¬ a.ofWorker k) (hs : step s a = some s') :
    s'.worker k = s.worker k ∧ s'.device k = s.device k := by
  rcases step_cases hs with ⟨t, -, hf⟩ | ⟨k', st, rfl, hf⟩
  · exact ⟨by rw [hf.worker], by rw [hf.device]⟩
  · exact hf.others k (Ne.symm ha)

theorem pending_leads {tr : Trace (step (T := T) (D := D))} (hfair : Steady tr) (k : Kind) (n : ℕ) :
    tr.Leads (Pending k n) fun s => n ≤ (s.device k).length := by
  apply Trace.leads_of_rank fun s => s.rank k n
  rintro c m ⟨hpend, hc⟩
  -- the worker and its log as they are until the next step of the worker
  generalize hw : (tr.state m).worker k = wpc
  generalize hd : (tr.state m).device k = dev
  have hact : ∀ s (a : Action T D) s',
      (Pending k n s ∧ s.worker k = wpc ∧ s.device k = dev) → a.ofWorker k → step s a = some s' →
      n ≤ (s'.device k).length ∨ Pending k n s' ∧ s'.rank k n < c := by
    rintro s a s' ⟨hp, hws, hds⟩ ha hs
    cases a with
    | work k' st =>
      obtain rfl : k' = k := ha
      have hrank : s.rank k' n = c := by rw [← hc, State.rank, State.rank, hws, hds, hw, hd]
      exact hrank ▸ hp.step hs
    | _ => exact ha.elim
  refine Trace.leads_of_stronglyFair (hfair.worker k) ?_ hact ?_ m ⟨hpend, hw, hd⟩
  · rintro s a s' ⟨hp, hws, hds⟩ hs
    by_cases ha : a.ofWorker k
    · exact Or.inr (hact s a s' ⟨hp, hws, hds⟩ ha hs)
    · obtain ⟨hw', hd'⟩ := worker_kept ha hs
      exact (pending_until k n s a s' hp hs).imp (fun hp' => ⟨hp', hw'.trans hws, hd'.trans hds⟩)
        Or.inl
  · rintro l ⟨hp, hws, hds⟩
    by_cases hwait : ∃ v, wpc = .busy .lock v ∧ (tr.state l).mute v ≠ none
    · -- the mutex becomes free, and if the worker has not moved it is enabled then
      obtain ⟨v, rfl, hm⟩ := hwait
      obtain ⟨l', hl', hfree⟩ := mute_leads hfair k v l ⟨hp.sound, hws, hm⟩
      refine ⟨l', hl', or_iff_not_imp_left.mpr fun hnot => ?_⟩
      obtain ⟨hp', hws', -⟩ := not_not.mp hnot
      obtain ⟨⟨place, done, hinv⟩, -⟩ := hp'.sound
      obtain ⟨s', hs'⟩ := work_enabled hinv (hp'.device.trans_le hp'.accepted) (fun w hww => by
        rw [hws', WorkerPC.busy.injEq] at hww
        rw [← hww.2]
        exact hfree) 0
      exact ⟨.work k 0, rfl, by rw [hs']; rfl⟩
    · obtain ⟨⟨place, done, hinv⟩, -⟩ := hp.sound
      obtain ⟨s', hs'⟩ := work_enabled hinv (hp.device.trans_le hp.accepted) (fun w hww => by
        by_contra hm
        exact hwait ⟨w, hws.symm.trans hww, hm⟩) 0
      exact ⟨l, le_rfl, Or.inr ⟨.work k 0, rfl, by rw [hs']; rfl⟩⟩

/-- The requests accepted before a fair schedule are executed in it, in order. -/
theorem executed_of_fair {tr : Trace (step (T := T) (D := D))} (hfair : Fair tr)
    (h : Sound (tr.state 0)) (k : Kind) :
    ∃ n, (tr.state 0).accepted k <+: ((tr.state n).device k).map fun x => (x.1, x.2.1) := by
  have hsound : ∀ n, Sound (tr.state n) := tr.invariant sound_step h
  have hacc : ∀ n, (tr.state 0).accepted k <+: (tr.state n).accepted k := by
    apply tr.invariant (I := fun s => (tr.state 0).accepted k <+: s.accepted k) _ List.prefix_rfl
    intro s a s' hs hstep
    exact hs.trans (accepted_grows hstep k)
  obtain ⟨n, hn⟩ : ∃ n, ((tr.state 0).accepted k).length ≤ ((tr.state n).device k).length := by
    by_cases hlt : ((tr.state 0).device k).length < ((tr.state 0).accepted k).length
    · obtain ⟨n, -, hn⟩ := pending_leads hfair.steady k _ 0 ⟨h, le_rfl, hlt⟩
      exact ⟨n, hn⟩
    · exact ⟨0, not_lt.mp hlt⟩
  refine ⟨n, ?_⟩
  obtain ⟨⟨place, done, hinv⟩, -⟩ := hsound n
  rw [hinv.logged.log_eq k]
  apply List.prefix_of_prefix_length_le (hacc n) (List.take_prefix _ _)
  rw [List.length_take]
  exact le_min hn (hn.trans (hinv.logged.length_le k))

/-- In every reachable state: each device log is a prefix of the requests of its kind as they were
enqueued, with their descriptors, and the rest of these is what the worker has fetched and the queue,
in order; a redeemer that has passed its wait loop finds in its voucher the descriptor and the status
of its own request; and all requests accepted so far can still be executed, each once, and under a fair
schedule they are. -/
theorem requests_executed_in_order {as : List (Action T D)} (h : run as = some s) :
    (∀ k, (s.device k).map (fun x => (x.1, x.2.1)) = (s.accepted k).take (s.device k).length ∧
      ((s.accepted k).drop (s.device k).length).map Prod.fst = (s.worker k).fetched ++ s.queue k) ∧
    (∀ t ph r out, s.app t = .redeem ph r out → ph.passed = true → ph.returned = false →
      (s.accepted r.kind)[r.index]? = some (r.v, (s.voucher r.v).sd) ∧
      (s.device r.kind)[r.index]? = some (r.v, (s.voucher r.v).sd, (s.voucher r.v).status)) ∧
    (∃ s', Reaches step s s' ∧ s'.accepted = s.accepted ∧
      ∀ k, (s'.device k).map (fun x => (x.1, x.2.1)) = s.accepted k) ∧
    ∀ tr : Trace step, tr.state 0 = s → Fair tr →
      ∀ k, ∃ n, s.accepted k <+: ((tr.state n).device k).map fun x => (x.1, x.2.1) := by
  have hsound := sound_run h
  obtain ⟨⟨place, done, hinv⟩, -⟩ := sound_run h
  refine ⟨fun k => ⟨hinv.logged.log_eq k, hinv.logged.pending_eq k⟩, ?_, ?_, ?_⟩
  · intro t ph r out ht hpass hret
    have hok := hinv.app_ok t
    rw [ht] at hok
    have hred : place r.v = .request r (some t) := by
      apply hinv.place_redeem
      rw [ht, AppPC.request, if_neg (by simp [hret])]
    exact ⟨(hinv.recorded.fields r.v r _ hred).1, hinv.recorded.status r.v r _ hred (hok.2 hpass)⟩
  · obtain ⟨u, hsu, hu, hkeep, hread⟩ := serve_all hsound .read
    obtain ⟨w, huw, hw, hkeep', hwrite⟩ := serve_all hu .write
    refine ⟨w, hsu.trans huw, hkeep'.accepted.trans hkeep.accepted, ?_⟩
    have hlen : ∀ k, (w.device k).length = (w.accepted k).length := by
      intro k
      cases k with
      | read => rw [hkeep'.device .read (by decide), hkeep'.accepted, hread]
      | write => exact hwrite
    obtain ⟨⟨place', done', hinv'⟩, -⟩ := hw
    intro k
    rw [hinv'.logged.log_eq k, hlen k, List.take_length, hkeep'.accepted, hkeep.accepted]
  · rintro tr rfl hfair
    exact executed_of_fair hfair hsound

/-- A write is executed while a read is still in its queue, and its redeemer passes the wait loop. -/
def writeAndRead : List (Action Unit Bool) :=
  .submit () .write true (some true) :: List.replicate 5 (.app ()) ++
    .submit () .read false (some false) :: List.replicate 5 (.app ()) ++
    List.replicate 8 (.work .write 1) ++
    .redeem () ⟨⟨0, vSize_pos⟩, .write, 0⟩ :: List.replicate 2 (.app ())

theorem requests_executed_in_order_two : ∃ s, run writeAndRead = some s ∧
    (∀ k, (s.device k).map (fun x => (x.1, x.2.1)) = (s.accepted k).take (s.device k).length ∧
      ((s.accepted k).drop (s.device k).length).map Prod.fst = (s.worker k).fetched ++ s.queue k) ∧
    (∀ t ph r out, s.app t = .redeem ph r out → ph.passed = true → ph.returned = false →
      (s.accepted r.kind)[r.index]? = some (r.v, (s.voucher r.v).sd) ∧
      (s.device r.kind)[r.index]? = some (r.v, (s.voucher r.v).sd, (s.voucher r.v).status)) ∧
    (∃ s', Reaches step s s' ∧ s'.accepted = s.accepted ∧
      ∀ k, (s'.device k).map (fun x => (x.1, x.2.1)) = s.accepted k) ∧
    ∀ tr : Trace step, tr.state 0 = s → Fair tr →
      ∀ k, ∃ n, s.accepted k <+: ((tr.state n).device k).map fun x => (x.1, x.2.1) := by
  obtain ⟨s, hs⟩ := Option.isSome_iff_exists.mp (by decide +kernel : (run writeAndRead).isSome)
  exact ⟨s, hs, requests_executed_in_order hs⟩

end CIS415.DiskDriver
