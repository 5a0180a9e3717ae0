import CIS415.DiskDriverStuck

/-!
# Every redemption returns

Under a fair schedule, in which the worker threads are treated strongly fairly and every other thread
weakly, each call of `redeem_voucher` returns: its request is executed, it is woken or finds the flag
set, and from then on the mutex of its voucher is soon left to it. A thread in `pthread_cond_wait` is
owed nothing until it is woken.
-/

namespace CIS415.DiskDriver

open Ownership System

variable {T D : Type} [DecidableEq T] {s s' : State T D} {place : VoucherPtr → Place T}
  {done : Kind → ℕ} {t u : T} {k : Kind} {v : VoucherPtr} {r : Request} {out : Option (Option D)}
  {ph : RedeemPhase D} {x y : WakeState T D} {a : WakeAction T D}

def WakeAction.ofWorker (k : Kind) : WakeAction T D → Prop
  | .act a => a.ofWorker k
  | .spurious _ => False

def WakeAction.ofThread (t : T) : WakeAction T D → Prop
  | .act a => a.ofThread t
  | .spurious _ => False

structure WakeFair (tr : Trace (wakeStep (T := T) (D := D))) : Prop where
  worker : ∀ k, tr.StronglyFair (WakeAction.ofWorker k)
  thread : ∀ t, tr.WeaklyFair (WakeAction.ofThread t)

def baseTrace (tr : Trace (wakeStep (T := T) (D := D))) : Trace (step (T := T) (D := D)) :=
  tr.map WakeState.base WakeAction.base fun _ _ _ h => (wakeStep_base h).1

theorem enabled_worker (h : Enabled step (Action.ofWorker k) x.base) :
    Enabled wakeStep (WakeAction.ofWorker k) x := by
  obtain ⟨a, ha, hen⟩ := h
  obtain ⟨s', hs'⟩ := Option.isSome_iff_exists.mp hen
  cases a with
  | work k' st => exact ⟨.act (.work k' st), ha, by rw [wakeStep_act rfl hs']; rfl⟩
  | _ => exact ha.elim

theorem enabled_thread (hawake : x.asleep t = false) (h : ∃ s', step x.base (.app t) = some s') :
    Enabled wakeStep (WakeAction.ofThread t) x := by
  obtain ⟨s', hs'⟩ := h
  have hblocked : x.blocked (.app t) = false := hawake
  exact ⟨.act (.app t), rfl, by rw [wakeStep_act hblocked hs']; rfl⟩

theorem WakeFair.steady {tr : Trace (wakeStep (T := T) (D := D))} (h : WakeFair tr) :
    Steady (baseTrace tr) := by
  have htaken : ∀ (acts : Action T D → Prop) m,
      (∃ a, tr.act m = some (.act a) ∧ acts a) → (baseTrace tr).Taken acts m := by
    rintro acts m ⟨a, ha, hacts⟩
    refine ⟨a, ?_, hacts⟩
    change (tr.act m).map WakeAction.base = some a
    rw [ha]
    rfl
  constructor
  · intro k n hn
    obtain ⟨m, hm, a, ha, hacts⟩ := h.worker k n fun m hm => by
      obtain ⟨l, hl, hen⟩ := hn m hm
      exact ⟨l, hl, enabled_worker hen⟩
    cases a with
    | act a => exact ⟨m, hm, htaken _ m ⟨a, ha, hacts⟩⟩
    | spurious t => exact hacts.elim
  · intro t n hn
    obtain ⟨m, hm, a, ha, hacts⟩ := h.thread t n fun m hm => by
      obtain ⟨hsleeps, a, ha, hen⟩ := hn m hm
      obtain ⟨s', hs'⟩ := Option.isSome_iff_exists.mp hen
      cases a with
      | app u =>
        obtain rfl : u = t := ha
        exact enabled_thread (awake_of_sleeps hsleeps) ⟨s', hs'⟩
      | _ => exact ha.elim
    cases a with
    | act a => exact ⟨m, hm, htaken _ m ⟨a, ha, hacts⟩⟩
    | spurious t => exact hacts.elim

/-- A call that redeems a completed request, by its phase. -/
structure Redeeming (t : T) (r : Request) (ph : RedeemPhase D) (out : Option (Option D))
    (x : WakeState T D) : Prop where
  ok : WakeOk x
  app : x.base.app t = .redeem ph r out
  finished : r.index < x.base.finished r.kind

def Closer (t : T) (r : Request) (n : ℕ) (x : WakeState T D) : Prop :=
  x.base.app t = .idle ∨ ∃ ph out, Redeeming t r ph out x ∧ ph.left < n

theorem finished_grows {a : Action T D} (hs : step s a = some s') (k : Kind) :
    s.finished k ≤ s'.finished k := by
  rcases step_cases hs with ⟨t, -, hf⟩ | ⟨k', st, rfl, hf⟩
  · rw [State.finished, State.finished, hf.device, hf.worker]
  · rcases work_completes hs with ⟨hfin, -⟩ | ⟨v, hw, hw', hdev, -⟩
    · rw [hfin]
    · by_cases hk : k = k'
      · subst hk
        rw [State.finished, State.finished, hw', hdev]
        exact Nat.sub_le_sub_left (Nat.zero_le _) _
      · obtain ⟨hwk, hdk⟩ := hf.others k hk
        rw [State.finished, State.finished, hwk, hdk]

/-- Another step leaves a thread inside the driver where it is. -/
theorem app_other {a : Action T D} (hs : step s a = some s') (ha : a ≠ .app t)
    (ht : s.app t ≠ .idle) : s'.app t = s.app t := by
  rcases step_cases hs with ⟨u, hu, hf⟩ | ⟨k, st, -, hf⟩
  · apply hf.others t
    rintro rfl
    exact ht (hu.resolve_left ha)
  · rw [hf.app]

theorem Redeeming.own (h : Redeeming t r ph out x) (hs : wakeStep x a = some y)
    (ha : a.base = .app t) : Closer t r ph.left y := by
  obtain ⟨hbase, -⟩ := wakeStep_base hs
  have hfin := lt_of_lt_of_le h.finished (finished_grows hbase r.kind)
  rw [ha] at hbase
  simp only [DiskDriver.step, appStep, h.app] at hbase
  rcases redeemStep_left hbase with hidle | ⟨ph', out', hr, hlt | ⟨rfl, -, hc⟩⟩
  · exact Or.inl hidle
  · exact Or.inr ⟨ph', out', ⟨h.ok.step hs, hr, hfin⟩, hlt⟩
  · exact absurd (h.ok.flags r (Or.inr ⟨t, by rw [h.app]; rfl⟩) h.finished) hc

theorem Redeeming.other (h : Redeeming t r ph out x) (hs : wakeStep x a = some y)
    (ha : a.base ≠ .app t) : Redeeming t r ph out y := by
  obtain ⟨hbase, -⟩ := wakeStep_base hs
  refine ⟨h.ok.step hs, ?_, lt_of_lt_of_le h.finished (finished_grows hbase r.kind)⟩
  rw [app_other hbase ha (by rw [h.app]; exact fun heq => by cases heq), h.app]

theorem Redeeming.step (h : Redeeming t r ph out x) (hs : wakeStep x a = some y) :
    Redeeming t r ph out y ∨ Closer t r ph.left y := by
  by_cases ha : a.base = .app t
  · exact Or.inr (h.own hs ha)
  · exact Or.inl (h.other hs ha)

omit [DecidableEq T] in
theorem eq_of_ofThread (h : a.ofThread t) : a = .act (.app t) := by
  cases a with
  | act a =>
    cases a with
    | app u =>
      obtain rfl : u = t := h
      rfl
    | _ => exact False.elim h
  | spurious u => exact False.elim h

omit [DecidableEq T] in
theorem eq_of_ofWorker (h : a.base.ofWorker k) : ∃ st, a = .act (.work k st) := by
  cases a with
  | act a =>
    cases a with
    | work k' st =>
      obtain rfl : k' = k := h
      exact ⟨st, rfl⟩
    | _ => exact False.elim h
  | spurious u => exact False.elim h

/-- While nothing keeps the call from a step, it comes closer to its end. -/
theorem redeeming_leads {tr : Trace (wakeStep (T := T) (D := D))} (hfair : WakeFair tr)
    (P : WakeState T D → Prop)
    (hkeep : ∀ x a y, P x → wakeStep x a = some y → a.base ≠ .app t → P y)
    (hen : ∀ x, P x → Redeeming t r ph out x ∧ x.asleep t = false ∧
      ∃ s', step x.base (.app t) = some s') :
    tr.Leads P (Closer t r ph.left) := by
  apply Trace.leads_of_weaklyFair (hfair.thread t)
  · intro x a y hx hs
    by_cases ha : a.base = .app t
    · exact Or.inr ((hen x hx).1.own hs ha)
    · exact Or.inl (hkeep x a y hx hs ha)
  · intro x a y hx ha hs
    obtain rfl := eq_of_ofThread ha
    exact (hen x hx).1.own hs rfl
  · intro x hx
    exact enabled_thread (hen x hx).2.1 (hen x hx).2.2

theorem worker_step (k : Kind) (hs : wakeStep x a = some y) :
    (∃ st, a = .act (.work k st)) ∨
      y.base.worker k = x.base.worker k ∧ y.base.device k = x.base.device k := by
  by_cases ha : a.base.ofWorker k
  · exact Or.inl (eq_of_ofWorker ha)
  · exact Or.inr (worker_kept ha (wakeStep_base hs).1)

/-- While worker `k` can make a step that leads to `Q`, and the other steps keep it so, `Q` comes. -/
theorem worker_leads {tr : Trace (wakeStep (T := T) (D := D))} (hfair : WakeFair tr)
    {P Q : WakeState T D → Prop} (hkeep : ∀ x a y, P x → wakeStep x a = some y →
      y.base.worker k = x.base.worker k → y.base.device k = x.base.device k → P y ∨ Q y)
    (hact : ∀ x st y, P x → wakeStep x (.act (.work k st)) = some y → Q y)
    (hen : ∀ x, P x → ∃ s', step x.base (.work k 0) = some s') : tr.Leads P Q := by
  apply Trace.leads_of_weaklyFair (hfair.worker k).weaklyFair
  · intro x a y hx hs
    rcases worker_step k hs with ⟨st, rfl⟩ | ⟨hw, hd⟩
    · exact Or.inr (hact x st y hx hs)
    · exact hkeep x a y hx hs hw hd
  · intro x a y hx ha hs
    obtain ⟨st, rfl⟩ : ∃ st, a = .act (.work k st) := by
      cases a with
      | act a => exact eq_of_ofWorker (a := .act a) ha
      | spurious u => exact False.elim ha
    exact hact x st y hx hs
  · intro x hx
    obtain ⟨s', hs'⟩ := hen x hx
    exact enabled_worker ⟨.work k 0, rfl, by rw [hs']; rfl⟩

/-- A thread that has been woken stays so until it goes on. -/
theorem woken_stays (hs : wakeStep x a = some y) (ha : a.base ≠ .app t) (h : x.woken t = true) :
    y.woken t = true := by
  obtain ⟨-, hwoken⟩ := wakeStep_base hs
  rw [hwoken]
  cases hb : a.base with
  | app u =>
    have htu : t ≠ u := by
      rintro rfl
      exact ha hb
    rw [WakeState.wakes, Function.update_of_ne htu, h]
  | work k st => simp only [WakeState.wakes, h, Bool.true_or]
  | _ => exact h

theorem Redeeming.enabled (h : Redeeming t r ph out x) (hfree : ph = .lock → x.base.mute r.v = none) :
    ∃ s', DiskDriver.step x.base (.app t) = some s' := by
  obtain ⟨⟨place, done, hinv⟩, -⟩ := h.ok.sound
  exact redeem_enabled hinv h.app hfree

theorem woken_leads {tr : Trace (wakeStep (T := T) (D := D))} (hfair : WakeFair tr) :
    tr.Leads (fun x => Redeeming t r .wait out x ∧ x.woken t = true)
      (Closer t r (RedeemPhase.wait : RedeemPhase D).left) := by
  apply redeeming_leads hfair
  · rintro x a y ⟨hx, hwoken⟩ hs ha
    exact ⟨hx.other hs ha, woken_stays hs ha hwoken⟩
  · rintro x ⟨hx, hwoken⟩
    refine ⟨hx, ?_, hx.enabled fun heq => by cases heq⟩
    rw [WakeState.asleep, hwoken, Bool.not_true, Bool.and_false]

/-- The worker has completed the request and is about to wake the thread. -/
theorem wait_leads {tr : Trace (wakeStep (T := T) (D := D))} (hfair : WakeFair tr) :
    tr.Leads (Redeeming t r .wait out) (Closer t r (RedeemPhase.wait : RedeemPhase D).left) := by
  have hasleep : tr.Leads (fun x => Redeeming t r .wait out x ∧ x.woken t = false)
      fun x => Redeeming t r .wait out x ∧ x.woken t = true ∨
        Closer t r (RedeemPhase.wait : RedeemPhase D).left x := by
    have hsignal : ∀ x : WakeState T D, Redeeming t r .wait out x → x.woken t = false →
        x.base.worker r.kind = .busy .signal r.v := fun x hx hwoken =>
      (hx.ok.asleep t r out hx.app hwoken).resolve_left (not_le.mpr hx.finished)
    apply worker_leads (k := r.kind) hfair
    · rintro x a y ⟨hx, -⟩ hs - -
      rcases hx.step hs with hy | hy
      · by_cases hwoken : y.woken t = true
        · exact Or.inr (Or.inl ⟨hy, hwoken⟩)
        · exact Or.inl ⟨hy, eq_false_of_ne_true hwoken⟩
      · exact Or.inr (Or.inr hy)
    · rintro x st y ⟨hx, hwoken⟩ hs
      refine Or.inl ⟨hx.other hs (fun heq => by cases heq), ?_⟩
      have hsleeps : x.base.sleeps t = some r.v := by
        rw [State.sleeps, hx.app]
      have hsig : x.base.signals r.kind = some r.v := by
        rw [State.signals, hsignal x hx hwoken]
      rw [(wakeStep_base hs).2]
      simp only [WakeAction.base, WakeState.wakes, hsleeps, hsig, hwoken, Option.isSome_some,
        beq_self_eq_true, Bool.and_self, Bool.or_true]
    · rintro x ⟨hx, hwoken⟩
      exact busy_enabled (hsignal x hx hwoken) (fun heq => by cases heq) 0
  intro n hn
  by_cases hwoken : (tr.state n).woken t = true
  · exact woken_leads hfair n ⟨hn, hwoken⟩
  · obtain ⟨m, hm, hx | hx⟩ := hasleep n ⟨hn, eq_false_of_ne_true hwoken⟩
    · obtain ⟨l, hl, hy⟩ := woken_leads hfair m hx
      exact ⟨l, hm.trans hl, hy⟩
    · exact ⟨m, hm, hx⟩

omit [DecidableEq T] in
/-- Who may hold the mutex of a completed request for which its redeemer waits: the worker that has
still to signal or to unlock, or a redeemer of an earlier request that has still to unlock. -/
theorem Redeeming.holder (h : Redeeming t r .lock out x) {p : Owner T}
    (hm : x.base.mute r.v = some p) :
    (p = .worker r.kind ∧ (x.base.worker r.kind = .busy .signal r.v ∨
      x.base.worker r.kind = .busy .unlock r.v)) ∨
    ∃ u r' out', p = .app u ∧ x.base.app u = .redeem .unlock r' out' ∧ r'.v = r.v := by
  obtain ⟨⟨place, done, hinv⟩, hl⟩ := h.ok.sound
  have hlock := (hl r.v p).mp hm
  have hp := hinv.place_redeem (t := t) (r := r) (by rw [h.app]; rfl)
  cases p with
  | worker k =>
    rw [State.lock] at hlock
    cases hw : x.base.worker k with
    | idle =>
      rw [hw] at hlock
      cases hlock
    | busy ph v =>
      obtain ⟨n, o, hpv, hok⟩ := hinv.place_worker hw
      have hv : v = r.v := by
        rw [hw] at hlock
        cases ph with
        | lock => cases hlock
        | _ => exact Option.some.inj hlock
      subst hv
      rw [hp, Place.request.injEq] at hpv
      obtain ⟨heq, -⟩ := hpv
      obtain ⟨-, rfl, rfl⟩ := Request.mk.inj heq
      have hfin := h.finished
      rw [hinv.finished_eq] at hfin
      cases ph with
      | lock =>
        rw [hw] at hlock
        cases hlock
      | signal => exact Or.inl ⟨rfl, Or.inl hw⟩
      | unlock => exact Or.inl ⟨rfl, Or.inr hw⟩
      | _ => exact absurd hok.1 hfin.ne
  | app u =>
    rw [State.lock] at hlock
    cases hu : x.base.app u with
    | redeem ph' r' out' =>
      rw [hu, AppPC.lock] at hlock
      split_ifs at hlock with hlocked
      have hv : r'.v = r.v := Option.some.inj hlock
      by_cases hret : ph'.returned = true
      · cases ph' with
        | unlock => exact Or.inr ⟨u, r', out', rfl, hu, hv⟩
        | ret => cases hlocked
        | _ => cases hret
      · -- a redeemer that has not returned the voucher is the call itself
        have hpu := hinv.place_redeem (t := u) (r := r') (by rw [hu, AppPC.request, if_neg hret])
        rw [hv, hp, Place.request.injEq] at hpu
        obtain rfl := Option.some.inj hpu.2
        obtain ⟨rfl, -, -⟩ := AppPC.redeem.inj (h.app.symm.trans hu)
        cases hlocked
    | _ =>
      rw [hu] at hlock
      cases hlock

/-- A worker takes a mutex at its first step with a voucher. -/
theorem worker_acquires {st : ℤ} (hs : step s (.work k st) = some s')
    (hnone : (s.worker k).lock = none) :
    s'.worker k ≠ .busy .signal v ∧ s'.worker k ≠ .busy .unlock v := by
  have hself : ∀ (x : State T D) ph w, ph = WorkPhase.lock ∨ ph = .readSd →
      s' = x.setWorker k (.busy ph w) →
      s'.worker k ≠ .busy .signal v ∧ s'.worker k ≠ .busy .unlock v := by
    rintro x ph w hph rfl
    rw [State.setWorker_self]
    rcases hph with rfl | rfl
    · exact ⟨(fun heq => by cases heq), (fun heq => by cases heq)⟩
    · exact ⟨(fun heq => by cases heq), (fun heq => by cases heq)⟩
  rw [step] at hs
  cases hw : s.worker k with
  | idle =>
    rw [hw] at hs
    cases hq : s.queue k with
    | nil =>
      rw [hq] at hs
      cases hs
    | cons w rest =>
      rw [hq] at hs
      obtain rfl := Option.some.inj hs
      exact hself _ .lock w (Or.inl rfl) rfl
  | busy ph w =>
    rw [hw] at hs hnone
    cases ph with
    | lock =>
      simp only [workStep] at hs
      split_ifs at hs
      obtain rfl := Option.some.inj hs
      exact hself _ .readSd w (Or.inr rfl) rfl
    | _ => cases hnone

/-- Once the mutex is free, nobody but the redeemer takes it. -/
theorem Redeeming.free_stays (h : Redeeming t r .lock out x) (hfree : x.base.mute r.v = none)
    (hs : wakeStep x a = some y) (ha : a.base ≠ .app t) : y.base.mute r.v = none := by
  cases hm : y.base.mute r.v with
  | none => rfl
  | some p =>
    have hy := h.other hs ha
    obtain ⟨hbase, -⟩ := wakeStep_base hs
    rcases step_cases hbase with ⟨u, -, hf⟩ | ⟨k, st, hk, hf⟩
    · obtain ⟨rfl, hnone⟩ := hf.locks.acquired hfree hm
      rcases hy.holder hm with ⟨hp, -⟩ | ⟨w, r', out', hp, hw, -⟩
      · cases hp
      · obtain rfl := Owner.app.inj hp
        rcases hf.returned _ r' out' hw rfl with hx | hx
        · rw [State.lock, hx] at hnone
          cases hnone
        · rw [State.lock, hx] at hnone
          cases hnone
    · obtain ⟨rfl, hnone⟩ := hf.locks.acquired hfree hm
      rw [hk] at hbase
      rcases hy.holder hm with ⟨hp, hw⟩ | ⟨w, r', out', hp, -⟩
      · obtain rfl := Owner.worker.inj hp
        obtain ⟨hsig, hunlock⟩ := worker_acquires (v := r.v) hbase hnone
        exact absurd hw (not_or.mpr ⟨hsig, hunlock⟩)
      · cases hp

theorem free_leads {tr : Trace (wakeStep (T := T) (D := D))} (hfair : WakeFair tr) :
    tr.Leads (fun x => Redeeming t r .lock out x ∧ x.base.mute r.v = none)
      (Closer t r (RedeemPhase.lock : RedeemPhase D).left) := by
  apply redeeming_leads hfair
  · rintro x a y ⟨hx, hfree⟩ hs ha
    exact ⟨hx.other hs ha, hx.free_stays hfree hs ha⟩
  · rintro x ⟨hx, hfree⟩
    refine ⟨hx, awake_of_sleeps ?_, hx.enabled fun _ => hfree⟩
    rw [State.sleeps, hx.app]

/-- What a call that waits for the mutex comes to. -/
def Freed (t : T) (r : Request) (out : Option (Option D)) (x : WakeState T D) : Prop :=
  Redeeming t r .lock out x ∧ x.base.mute r.v = none ∨
    Closer t r (RedeemPhase.lock : RedeemPhase D).left x

theorem unlock_leads {tr : Trace (wakeStep (T := T) (D := D))} (hfair : WakeFair tr) :
    tr.Leads (fun x => Redeeming t r .lock out x ∧ x.base.worker r.kind = .busy .unlock r.v)
      (Freed t r out) := by
  apply worker_leads (k := r.kind) hfair
  · rintro x a y ⟨hx, hw⟩ hs hkept -
    rcases hx.step hs with hy | hy
    · exact Or.inl ⟨hy, hkept.trans hw⟩
    · exact Or.inr (Or.inr hy)
  · rintro x st y ⟨hx, hw⟩ hs
    refine Or.inl ⟨hx.other hs (fun heq => by cases heq), ?_⟩
    have hbase := (wakeStep_base hs).1
    simp only [WakeAction.base, step, hw, workStep] at hbase
    rw [← Option.some.inj hbase]
    exact mute_setVoucher_self rfl rfl
  · rintro x ⟨hx, hw⟩
    exact busy_enabled hw (fun heq => by cases heq) 0

theorem signal_leads {tr : Trace (wakeStep (T := T) (D := D))} (hfair : WakeFair tr) :
    tr.Leads (fun x => Redeeming t r .lock out x ∧ x.base.worker r.kind = .busy .signal r.v)
      fun x => Redeeming t r .lock out x ∧ x.base.worker r.kind = .busy .unlock r.v ∨
        Closer t r (RedeemPhase.lock : RedeemPhase D).left x := by
  apply worker_leads (k := r.kind) hfair
  · rintro x a y ⟨hx, hw⟩ hs hkept -
    rcases hx.step hs with hy | hy
    · exact Or.inl ⟨hy, hkept.trans hw⟩
    · exact Or.inr (Or.inr hy)
  · rintro x st y ⟨hx, hw⟩ hs
    refine Or.inl ⟨hx.other hs (fun heq => by cases heq), ?_⟩
    have hbase := (wakeStep_base hs).1
    simp only [WakeAction.base, step, hw, workStep] at hbase
    rw [← Option.some.inj hbase]
    exact State.setWorker_self ..
  · rintro x ⟨hx, hw⟩
    exact busy_enabled hw (fun heq => by cases heq) 0

theorem earlier_leads {tr : Trace (wakeStep (T := T) (D := D))} (hfair : WakeFair tr)
    {r' : Request} {out' : Option (Option D)} (hv : r'.v = r.v) :
    tr.Leads (fun x => Redeeming t r .lock out x ∧ x.base.app u = .redeem .unlock r' out')
      (Freed t r out) := by
  have hne : ∀ x : WakeState T D, Redeeming t r .lock out x →
      x.base.app u = .redeem .unlock r' out' → u ≠ t := by
    rintro x hx hu rfl
    cases hx.app.symm.trans hu
  have hact : ∀ x a y, Redeeming t r .lock out x → x.base.app u = .redeem .unlock r' out' →
      wakeStep x a = some y → a.base = .app u → Freed t r out y := by
    intro x a y hx hu hs ha
    refine Or.inl ⟨hx.other hs fun heq => ?_, ?_⟩
    · exact hne x hx hu (Action.app.inj (ha.symm.trans heq))
    · have hbase := (wakeStep_base hs).1
      rw [ha] at hbase
      simp only [step, appStep, hu, redeemStep] at hbase
      rw [← Option.some.inj hbase, ← hv]
      exact mute_setVoucher_self rfl rfl
  apply Trace.leads_of_weaklyFair (hfair.thread u)
  · rintro x a y ⟨hx, hu⟩ hs
    by_cases ha : a.base = .app u
    · exact Or.inr (hact x a y hx hu hs ha)
    · rcases hx.step hs with hy | hy
      · have hkept := app_other (wakeStep_base hs).1 ha (by rw [hu]; exact fun heq => by cases heq)
        exact Or.inl ⟨hy, by rw [hkept, hu]⟩
      · exact Or.inr (Or.inr hy)
  · rintro x a y ⟨hx, hu⟩ ha hs
    obtain rfl := eq_of_ofThread ha
    exact hact x _ y hx hu hs rfl
  · rintro x ⟨hx, hu⟩
    obtain ⟨⟨place, done, hinv⟩, -⟩ := hx.ok.sound
    refine enabled_thread (awake_of_sleeps ?_) (redeem_enabled hinv hu fun heq => by cases heq)
    rw [State.sleeps, hu]

theorem lock_leads {tr : Trace (wakeStep (T := T) (D := D))} (hfair : WakeFair tr) :
    tr.Leads (Redeeming t r .lock out) (Closer t r (RedeemPhase.lock : RedeemPhase D).left) := by
  have hfreed : tr.Leads (Freed t r out) (Closer t r (RedeemPhase.lock : RedeemPhase D).left) := by
    rintro n (hx | hx)
    · exact free_leads hfair n hx
    · exact ⟨n, le_rfl, hx⟩
  have hunlock : tr.Leads
      (fun x => Redeeming t r .lock out x ∧ x.base.worker r.kind = .busy .unlock r.v)
      (Closer t r (RedeemPhase.lock : RedeemPhase D).left) := (unlock_leads hfair).trans hfreed
  intro n hn
  cases hm : (tr.state n).base.mute r.v with
  | none => exact free_leads hfair n ⟨hn, hm⟩
  | some p =>
    rcases hn.holder hm with ⟨-, hsig | hun⟩ | ⟨u, r', out', -, hu, hv⟩
    · obtain ⟨m, hm, hx | hx⟩ := signal_leads hfair n ⟨hn, hsig⟩
      · obtain ⟨l, hl, hy⟩ := hunlock m hx
        exact ⟨l, hm.trans hl, hy⟩
      · exact ⟨m, hm, hx⟩
    · exact hunlock n ⟨hn, hun⟩
    · exact (earlier_leads hfair hv).trans hfreed n ⟨hn, hu⟩

/-- A call whose request is completed returns. -/
theorem completed_leads {tr : Trace (wakeStep (T := T) (D := D))} (hfair : WakeFair tr) :
    tr.Leads (fun x => ∃ ph out, Redeeming t r ph out x) fun x => x.base.app t = .idle := by
  have hleft : ∀ n ph out, Redeeming t r ph out (tr.state n) →
      ∃ m, n ≤ m ∧ Closer t r ph.left (tr.state m) := by
    intro n ph out hn
    cases ph with
    | lock => exact lock_leads hfair n hn
    | wait => exact wait_leads hfair n hn
    | _ =>
      refine redeeming_leads hfair (Redeeming t r _ out) (fun x a y hx hs ha => hx.other hs ha)
        (fun x hx => ⟨hx, awake_of_sleeps ?_, hx.enabled fun heq => by cases heq⟩) n hn
      rw [State.sleeps, hx.app]
  rintro n ⟨ph, out, hn⟩
  induction hc : ph.left using Nat.strongRecOn generalizing n ph out with
  | _ c ih =>
    obtain ⟨m, hm, hidle | ⟨ph', out', hx, hlt⟩⟩ := hleft n ph out hn
    · exact ⟨m, hm, hidle⟩
    · obtain ⟨l, hl, hidle⟩ := ih _ (hc ▸ hlt) m ph' out' hx rfl
      exact ⟨l, hm.trans hl, hidle⟩

/-- The worker has operated on the device for request `n` and is about to set the completed flag. -/
def Completing (k : Kind) (n : ℕ) (x : WakeState T D) : Prop :=
  n < (x.base.device k).length ∧ ∃ v, x.base.worker k = .busy .complete v

theorem completing_leads {tr : Trace (wakeStep (T := T) (D := D))} (hfair : WakeFair tr) (n : ℕ) :
    tr.Leads (Completing k n) fun x => n < x.base.finished k := by
  apply worker_leads (k := k) hfair
  · rintro x a y ⟨hn, v, hw⟩ hs hkw hkd
    exact Or.inl ⟨hkd ▸ hn, v, hkw.trans hw⟩
  · rintro x st y ⟨hn, v, hw⟩ hs
    have hbase := (wakeStep_base hs).1
    simp only [WakeAction.base, step, hw, workStep] at hbase
    rw [← Option.some.inj hbase, State.finished, State.setWorker_self]
    exact hn
  · rintro x ⟨hn, v, hw⟩
    exact busy_enabled hw (fun heq => by cases heq) 0

theorem store_leads {tr : Trace (wakeStep (T := T) (D := D))} (hfair : WakeFair tr) (n : ℕ) :
    tr.Leads (fun x => n < (x.base.device k).length ∧ ∃ st v, x.base.worker k = .busy (.store st) v)
      (Completing k n) := by
  apply worker_leads (k := k) hfair
  · rintro x a y ⟨hn, st, v, hw⟩ hs hkw hkd
    exact Or.inl ⟨hkd ▸ hn, st, v, hkw.trans hw⟩
  · rintro x st' y ⟨hn, st, v, hw⟩ hs
    have hbase := (wakeStep_base hs).1
    simp only [WakeAction.base, step, hw, workStep] at hbase
    rw [Completing, ← Option.some.inj hbase]
    exact ⟨hn, v, State.setWorker_self ..⟩
  · rintro x ⟨hn, st, v, hw⟩
    exact busy_enabled hw (fun heq => by cases heq) 0

/-- A request that has been executed is marked completed. -/
theorem executed_leads {tr : Trace (wakeStep (T := T) (D := D))} (hfair : WakeFair tr) (n : ℕ) :
    tr.Leads (fun x => n < (x.base.device k).length) fun x => n < x.base.finished k := by
  intro m hm
  by_cases hfin : n < (tr.state m).base.finished k
  · exact ⟨m, le_rfl, hfin⟩
  rw [State.finished] at hfin
  cases hw : (tr.state m).base.worker k with
  | idle =>
    rw [hw] at hfin
    exact absurd hm hfin
  | busy ph v =>
    rw [hw] at hfin
    cases ph with
    | store st => exact (store_leads hfair n).trans (completing_leads hfair n) m ⟨hm, st, v, hw⟩
    | complete => exact completing_leads hfair n m ⟨hm, v, hw⟩
    | _ => exact absurd hm hfin

/-- Until it returns, a call redeems one request. -/
theorem redeem_until (t : T) (r : Request) :
    Until wakeStep (fun x : WakeState T D => ∃ ph out, x.base.app t = .redeem ph r out)
      fun x => x.base.app t = .idle := by
  rintro x a y ⟨ph, out, ht⟩ hs
  obtain ⟨hbase, -⟩ := wakeStep_base hs
  by_cases ha : a.base = .app t
  · rw [ha] at hbase
    simp only [step, appStep, ht] at hbase
    rcases redeemStep_left hbase with hidle | ⟨ph', out', hr, -⟩
    · exact Or.inr hidle
    · exact Or.inl ⟨ph', out', hr⟩
  · exact Or.inl ⟨ph, out, by rw [app_other hbase ha (by rw [ht]; exact fun heq => by cases heq), ht]⟩

omit [DecidableEq T] in
theorem redeem_of_request {pc : AppPC D} (h : pc.request = some r) :
    ∃ ph out, pc = .redeem ph r out := by
  cases pc with
  | redeem ph r' out =>
    rw [AppPC.request] at h
    split_ifs at h
    exact ⟨ph, out, by rw [Option.some.inj h]⟩
  | _ => cases h

/-- In every fair schedule that starts after `init_disk_driver`, every call of `redeem_voucher`
returns. -/
theorem redeem_returns (tr : Trace (wakeStep (T := T) (D := D))) (hinit : tr.state 0 = initWake)
    (hfair : WakeFair tr) {n : ℕ} (h : (tr.state n).base.app t = .redeem ph r out) :
    ∃ m, n ≤ m ∧ (tr.state m).base.app t = .idle := by
  have hok : ∀ n, WakeOk (tr.state n) :=
    tr.invariant (fun x a y hx hs => hx.step hs) (hinit ▸ wakeOk_init)
  by_contra hno
  have hredeems : ∀ m, n ≤ m → ∃ ph out, (tr.state m).base.app t = .redeem ph r out := fun m hm =>
    Trace.stays (redeem_until t r) ⟨ph, out, h⟩ (fun m hm hidle => hno ⟨m, hm, hidle⟩) hm
  have hcompleted : ∃ m, n ≤ m ∧ r.index < (tr.state m).base.finished r.kind := by
    by_cases hfin : r.index < (tr.state n).base.finished r.kind
    · exact ⟨n, le_rfl, hfin⟩
    obtain ⟨⟨place, done, hinv⟩, -⟩ := (hok n).sound
    have hreq : ((tr.state n).base.app t).request = some r := by
      rw [h, AppPC.request, if_neg]
      intro hret
      have happ := hinv.app_ok t
      rw [h] at happ
      rw [hinv.finished_eq] at hfin
      apply hfin
      apply happ.2
      cases ph with
      | unlock => rfl
      | ret => rfl
      | _ => cases hret
    have hacc := index_lt_accepted hinv (hinv.place_redeem hreq)
    obtain ⟨m, hm, hdev⟩ : ∃ m, n ≤ m ∧ r.index < ((tr.state m).base.device r.kind).length := by
      by_cases hdev : r.index < ((tr.state n).base.device r.kind).length
      · exact ⟨n, le_rfl, hdev⟩
      · exact pending_leads hfair.steady r.kind (r.index + 1) n
          ⟨(hok n).sound, hacc, Nat.lt_succ_of_le (not_lt.mp hdev)⟩
    obtain ⟨l, hl, hfin⟩ := executed_leads hfair r.index m hdev
    exact ⟨l, hm.trans hl, hfin⟩
  obtain ⟨m, hm, hfin⟩ := hcompleted
  obtain ⟨ph', out', hm'⟩ := hredeems m hm
  obtain ⟨l, hl, hidle⟩ := completed_leads hfair m ⟨ph', out', hok m, hm', hfin⟩
  exact hno ⟨l, hm.trans hl, hidle⟩

theorem not_enabled_thread (h : wakeStep x (.act (.app t)) = none) :
    ¬ Enabled wakeStep (WakeAction.ofThread t) x := by
  rintro ⟨a, ha, hen⟩
  obtain rfl := eq_of_ofThread ha
  rw [h] at hen
  cases hen

theorem not_enabled_worker (h : wakeStep x (.act (.work k 0)) = none) :
    ¬ Enabled wakeStep (WakeAction.ofWorker k) x := by
  rintro ⟨a, ha, hen⟩
  obtain ⟨st, rfl⟩ : ∃ st, a = .act (.work k st) := by
    cases a with
    | act a => exact eq_of_ofWorker (a := .act a) ha
    | spurious u => exact False.elim ha
  obtain ⟨y, hy⟩ := Option.isSome_iff_exists.mp hen
  have hbase := (wakeStep_base hy).1
  have hs : ∃ s', step x.base (.work k 0) = some s' := by
    cases hw : x.base.worker k with
    | idle =>
      cases hq : x.base.queue k with
      | nil =>
        simp only [WakeAction.base, step, hw, hq] at hbase
        cases hbase
      | cons v rest => simp only [step, hw, hq, Option.some.injEq, exists_eq']
    | busy ph v =>
      apply busy_enabled hw
      rintro rfl
      simp only [WakeAction.base, step, hw, workStep] at hbase
      split_ifs at hbase with hfree
      exact hfree
  obtain ⟨s', hs'⟩ := hs
  rw [wakeStep_act rfl hs'] at h
  cases h

def wokenOnce : List (Action Unit Bool) :=
  .submit () .write false (some true) :: List.replicate 5 (.app ()) ++
    .redeem () ⟨⟨0, vSize_pos⟩, .write, 0⟩ :: List.replicate 3 (.app ()) ++
    List.replicate 8 (.work .write 1) ++ List.replicate 11 (.app ())

theorem wokenOnce_rests : ∃ x, exec wakeStep initWake (wokenOnce.map .act) = some x ∧
    x.base.issued = [] ∧ ¬ Enabled wakeStep (WakeAction.ofThread ()) x ∧
    ∀ k, ¬ Enabled wakeStep (WakeAction.ofWorker k) x := by
  have hend : ((exec wakeStep initWake (wokenOnce.map .act)).map fun x =>
      (x.base.issued, (wakeStep x (.act (.app ()))).isNone,
        (wakeStep x (.act (.work .read 0))).isNone, (wakeStep x (.act (.work .write 0))).isNone)) =
      some ([], true, true, true) := by
    decide +kernel
  obtain ⟨x, hx, hend⟩ := Option.map_eq_some_iff.mp hend
  simp only [Prod.mk.injEq, Option.isNone_iff_eq_none] at hend
  obtain ⟨hiss, happ, hread, hwrite⟩ := hend
  refine ⟨x, hx, hiss, not_enabled_thread happ, fun k => ?_⟩
  cases k with
  | read => exact not_enabled_worker hread
  | write => exact not_enabled_worker hwrite

theorem redeem_returns_once : ∃ (tr : Trace (wakeStep (T := Unit) (D := Bool))) (n : ℕ)
    (ph : RedeemPhase Bool) (r : Request) (out : Option (Option Bool)), tr.state 0 = initWake ∧
      WakeFair tr ∧ (tr.state n).base.app () = .redeem ph r out ∧
      ∃ m, n ≤ m ∧ (tr.state m).base.app () = .idle := by
  obtain ⟨x, hx, -, hthread, hworker⟩ := wokenOnce_rests
  have hfair : WakeFair (Trace.resting hx) :=
    ⟨fun k => Trace.resting_stronglyFair hx (hworker k),
      fun t => (Trace.resting_stronglyFair hx hthread).weaklyFair⟩
  have hreq : (((Trace.resting hx).state 10).base.app ()).request =
      some ⟨⟨0, vSize_pos⟩, .write, 0⟩ := by
    change (((exec wakeStep initWake _).getD _).base.app ()).request = _
    decide +kernel
  obtain ⟨ph, out, hpc⟩ := redeem_of_request hreq
  exact ⟨_, 10, ph, _, out, rfl, hfair, hpc, redeem_returns _ rfl hfair hpc⟩

end CIS415.DiskDriver
