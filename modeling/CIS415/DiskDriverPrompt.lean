import CIS415.DiskDriverOwn

/-!
# Nonblocking calls

A nonblocking submit call takes its voucher with `blockingReadBB`. Once it has one it never waits:
a full queue sends it back to the pool with the voucher. With an empty pool it cannot make its first
step, and waits for a thread that redeems.
-/

namespace CIS415.DiskDriver

open System

variable {T D : Type} [DecidableEq T] {s s' u : State T D} {t : T} {k : Kind} {sd : Option D}
  {v : VoucherPtr}

/-- What a nonblocking call that has yet to answer is to queue up. -/
def AppPC.nonblocking : AppPC D → Option (Kind × Option D)
  | .take k false sd => some (k, sd)
  | .submit _ k false sd _ => some (k, sd)
  | _ => none

def Finishes (s : State T D) (t : T) (s' : State T D) : Prop :=
  ∃ n, exec step s (List.replicate n (.app t)) = some s' ∧ s'.app t = .idle

/-- The call has its voucher or finds one in the pool. -/
def HasVoucher (s : State T D) (t : T) : Prop :=
  (s.app t).voucher ≠ none ∨ s.vouchBB ≠ []

def Accepts (s : State T D) (k : Kind) (sd : Option D) (s' : State T D) : Prop :=
  ∃ v, s'.accepted k = s.accepted k ++ [(v, sd)]

/-- The call comes to its end by its own steps, and queues up the request when there is a voucher and
a slot for it; otherwise it returns 0, and nothing is queued up. -/
def Prompt (s : State T D) (t : T) (k : Kind) (sd : Option D) : Prop :=
  ∃ s', Finishes s t s' ∧
    (HasVoucher s t ∧ (s.queue k).length < size → Accepts s k sd s') ∧
    (¬ (HasVoucher s t ∧ (s.queue k).length < size) → s'.accepted = s.accepted)

theorem Finishes.head (hs : appStep s t = some u) (h : Finishes u t s') : Finishes s t s' := by
  obtain ⟨n, hn, hidle⟩ := h
  refine ⟨n + 1, ?_, hidle⟩
  rw [List.replicate_succ, exec, show step s (.app t) = some u from hs]
  exact hn

theorem Finishes.idle (hidle : s.app t = .idle) : Finishes s t s :=
  ⟨0, rfl, hidle⟩

theorem Prompt.head (hs : appStep s t = some u) (hv : HasVoucher s t) (hv' : HasVoucher u t)
    (hq : u.queue = s.queue) (ha : u.accepted = s.accepted) (h : Prompt u t k sd) :
    Prompt s t k sd := by
  obtain ⟨s', hfin, hyes, hno⟩ := h
  rw [hq] at hyes hno
  refine ⟨s', .head hs hfin, fun hslot => ?_, fun hslot => ?_⟩
  · obtain ⟨v, hacc⟩ := hyes ⟨hv', hslot.2⟩
    exact ⟨v, by rw [hacc, ha]⟩
  · rw [hno fun h => hslot ⟨hv, h.2⟩, ha]

omit [DecidableEq T] in
theorem hasVoucher_submit {ph : SubmitPhase} {b : Bool} (h : s.app t = .submit ph k b sd v) :
    HasVoucher s t := by
  refine Or.inl ?_
  rw [h]
  exact Option.some_ne_none v

theorem prompt_enqueue (h : s.app t = .submit .enqueue k false sd v) : Prompt s t k sd := by
  have hv := hasVoucher_submit h
  have hstep : appStep s t = submitStep s t k false sd v .enqueue := by
    rw [appStep, h]
  by_cases hslot : (s.queue k).length < size
  · rw [submitStep, if_pos hslot] at hstep
    refine ⟨_, .head hstep (.idle (State.setApp_self ..)), fun _ => ⟨v, ?_⟩,
      fun hno => absurd ⟨hv, hslot⟩ hno⟩
    exact Function.update_self ..
  · rw [submitStep, if_neg hslot] at hstep
    have hback : (s.setApp t (.giveBack v)).app t = .giveBack v := State.setApp_self ..
    by_cases hroom : s.vouchBB.length < vouchSize
    · have hlast : appStep (s.setApp t (.giveBack v)) t = some
          ({ s.setApp t (.giveBack v) with vouchBB := s.vouchBB ++ [v] }.setApp t .idle) := by
        rw [appStep, hback]
        exact if_pos hroom
      exact ⟨_, .head hstep (.head hlast (.idle (State.setApp_self ..))),
        fun hyes => absurd hyes.2 hslot, fun _ => rfl⟩
    · have hlast : appStep (s.setApp t (.giveBack v)) t = some
          ((s.setApp t (.giveBack v)).setApp t .idle) := by
        rw [appStep, hback]
        exact if_neg hroom
      exact ⟨_, .head hstep (.head hlast (.idle (State.setApp_self ..))),
        fun hyes => absurd hyes.2 hslot, fun _ => rfl⟩

theorem prompt_submit {ph : SubmitPhase} (h : s.app t = .submit ph k false sd v) :
    Prompt s t k sd := by
  have hnext : ∀ (s : State T D) ph ph' (x : Voucher T D), s.app t = .submit ph k false sd v →
      submitStep s t k false sd v ph =
        some ((s.setVoucher v x).setApp t (.submit ph' k false sd v)) →
      (∀ u : State T D, u.app t = .submit ph' k false sd v → Prompt u t k sd) →
      Prompt s t k sd := by
    intro s ph ph' x hs hstep hrest
    have hself : ((s.setVoucher v x).setApp t (.submit ph' k false sd v)).app t =
        .submit ph' k false sd v := State.setApp_self ..
    refine .head ?_ (hasVoucher_submit hs) (hasVoucher_submit hself) rfl rfl (hrest _ hself)
    rw [appStep, hs]
    exact hstep
  have hsd : ∀ s : State T D, s.app t = .submit .setSd k false sd v → Prompt s t k sd :=
    fun s hs => hnext s .setSd .enqueue _ hs rfl fun _ => prompt_enqueue
  have hcompleted : ∀ s : State T D, s.app t = .submit .setCompleted k false sd v →
      Prompt s t k sd := fun s hs => hnext s .setCompleted .setSd _ hs rfl hsd
  cases ph with
  | setReadWrite => exact hnext s .setReadWrite .setCompleted _ h rfl hcompleted
  | setCompleted => exact hcompleted s h
  | setSd => exact hsd s h
  | enqueue => exact prompt_enqueue h

omit [DecidableEq T] in
theorem take_of_nonblocking (h : (s.app t).nonblocking = some (k, sd))
    (hv : (s.app t).voucher = none) : s.app t = .take k false sd := by
  cases hpc : s.app t with
  | take k' b sd' =>
    rw [hpc] at h
    cases b with
    | true => cases h
    | false =>
      obtain ⟨rfl, rfl⟩ := Prod.mk.inj (Option.some.inj h)
      rfl
  | submit ph k' b sd' v =>
    rw [hpc] at hv
    cases hv
  | idle =>
    rw [hpc] at h
    cases h
  | giveBack v =>
    rw [hpc] at h
    cases h
  | redeem ph r out =>
    rw [hpc] at h
    cases h

omit [DecidableEq T] in
theorem submit_of_nonblocking (h : (s.app t).nonblocking = some (k, sd))
    (hv : (s.app t).voucher = some v) : ∃ ph, s.app t = .submit ph k false sd v := by
  cases hpc : s.app t with
  | take k' b sd' =>
    rw [hpc] at hv
    cases hv
  | submit ph k' b sd' v' =>
    rw [hpc] at h hv
    cases b with
    | true => cases h
    | false =>
      obtain ⟨rfl, rfl⟩ := Prod.mk.inj (Option.some.inj h)
      obtain rfl := Option.some.inj hv
      exact ⟨ph, rfl⟩
  | idle =>
    rw [hpc] at h
    cases h
  | giveBack v' =>
    rw [hpc] at h
    cases h
  | redeem ph r out =>
    rw [hpc] at h
    cases h

theorem not_prompt_of_empty (hpc : s.app t = .take k false sd) (hbb : s.vouchBB = []) :
    ¬ Prompt s t k sd := by
  have hstuck : step s (.app t) = none := by
    rw [step, appStep, hpc, hbb]
  rintro ⟨s', ⟨n, hn, hidle⟩, _⟩
  cases n with
  | zero =>
    obtain rfl := Option.some.inj hn
    cases hpc.symm.trans hidle
  | succ n =>
    rw [List.replicate_succ, exec, hstuck] at hn
    cases hn

theorem prompt_take {rest : List VoucherPtr} (hpc : s.app t = .take k false sd)
    (hbb : s.vouchBB = v :: rest) : Prompt s t k sd := by
  have hstep : appStep s t = some
      ({ s with vouchBB := rest }.setApp t (.submit .setReadWrite k false sd v)) := by
    rw [appStep, hpc, hbb]
  have hself : ({ s with vouchBB := rest }.setApp t (.submit .setReadWrite k false sd v)).app t =
      .submit .setReadWrite k false sd v := State.setApp_self ..
  have hv : HasVoucher s t := Or.inr (by rw [hbb]; exact List.cons_ne_nil v rest)
  exact .head hstep hv (hasVoucher_submit hself) rfl rfl (prompt_submit hself)

/-- In any state a nonblocking call runs to its end by its own steps, with the answer it should give,
if and only if it has its voucher or finds one in the pool. -/
theorem nonblocking_prompt_iff (s : State T D) (t : T) (k : Kind) (sd : Option D)
    (h : (s.app t).nonblocking = some (k, sd)) : Prompt s t k sd ↔ HasVoucher s t := by
  cases hv : (s.app t).voucher with
  | some v =>
    obtain ⟨ph, hpc⟩ := submit_of_nonblocking h hv
    exact ⟨fun _ => hasVoucher_submit hpc, fun _ => prompt_submit hpc⟩
  | none =>
    have hpc := take_of_nonblocking h hv
    cases hbb : s.vouchBB with
    | nil =>
      have hno : ¬ HasVoucher s t := fun h => h.elim (fun h => h hv) fun h => h hbb
      exact ⟨fun hp => absurd hp (not_prompt_of_empty hpc hbb), fun h => absurd h hno⟩
    | cons v rest =>
      have hyes : HasVoucher s t := Or.inr (by rw [hbb]; exact List.cons_ne_nil v rest)
      exact ⟨fun _ => hyes, fun _ => prompt_take hpc hbb⟩

theorem nonblocking_prompt_iff_first :
    Prompt ((initDiskDriver : State Unit Unit).setApp () (.take .write false (some ()))) () .write
        (some ()) ↔
      HasVoucher ((initDiskDriver : State Unit Unit).setApp () (.take .write false (some ()))) () :=
  nonblocking_prompt_iff _ () .write (some ()) rfl

/-- A thread queues up 30 writes, redeems none of them, and makes a nonblocking call. -/
def poolEmptied : List (Action Unit Unit) :=
  (List.replicate 30 (.submit () .write true (some ()) :: List.replicate 5 (.app ()))).flatten ++
    [.submit () .write false (some ())]

theorem nonblocking_waits : ¬ ∀ (as : List (Action Unit Unit)) (s : State Unit Unit),
    run as = some s → ∀ t k sd, (s.app t).nonblocking = some (k, sd) → Prompt s t k sd := by
  intro h
  have hcall : (run poolEmptied).map (fun s => (s.app ()).nonblocking) =
      some (some (.write, some ())) := by
    decide +kernel
  have hpool : (run poolEmptied).map State.vouchBB = some [] := by
    decide +kernel
  have hhand : (run poolEmptied).map (fun s => (s.app ()).voucher) = some none := by
    decide +kernel
  obtain ⟨s, hs, hcall⟩ := Option.map_eq_some_iff.mp hcall
  rw [hs, Option.map_some, Option.some.injEq] at hpool hhand
  exact not_prompt_of_empty (take_of_nonblocking hcall hhand) hpool
    (h poolEmptied s hs () .write (some ()) hcall)

end CIS415.DiskDriver
