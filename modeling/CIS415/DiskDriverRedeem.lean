import CIS415.DiskDriverFrame
import CIS415.DiskDriverStep

/-!
# What `redeem_voucher` returns

The call gives its voucher back to the pool, unlocks it, and only then reads `v->status`. Between
these steps the voucher may have been taken, enqueued and executed for another request.
-/

namespace CIS415.DiskDriver

open Ownership System

variable {T D : Type} [DecidableEq T] {s s' : State T D} {place : VoucherPtr → Place T}
  {done : Kind → ℕ} {t : T} {k : Kind} {st : ℤ}

def Result (s : State T D) (r : Request) (value : ℤ) : Prop :=
  ∃ sd, (s.device r.kind)[r.index]? = some (r.v, sd, value)

/-- The request of a call that has only the status left to read. -/
def AppPC.reading : AppPC D → Option Request
  | .redeem .ret r _ => some r
  | _ => none

/-- The voucher in which a worker is about to store a status, and the status. -/
def WorkerPC.storing : WorkerPC D → Option (VoucherPtr × ℤ)
  | .busy (.store st) v => some (v, st)
  | _ => none

/-- No worker stores another status in a voucher whose redeemer has returned it and is about to read
its status. -/
def Undisturbed (s : State T D) : Action T D → Prop
  | .work k _ => ∀ x ∈ (s.worker k).storing, ∀ t, ∀ r ∈ (s.app t).reading, r.v = x.1 →
      x.2 = (s.voucher x.1).status
  | _ => True

instance [Fintype T] (s : State T D) : ∀ a, Decidable (Undisturbed s a)
  | .work k _ => inferInstanceAs (Decidable (∀ x ∈ (s.worker k).storing, ∀ t,
      ∀ r ∈ (s.app t).reading, r.v = x.1 → x.2 = (s.voucher x.1).status))
  | .submit .. => .isTrue trivial
  | .redeem .. => .isTrue trivial
  | .app _ => .isTrue trivial

/-- A thread that has returned its voucher still sees its own status there. -/
structure Faithful (s : State T D) : Prop where
  returned : ∀ t ph r out, s.app t = .redeem ph r out → ph.returned = true →
    Result s r (s.voucher r.v).status
  redeemed : ∀ x ∈ s.redeemed, Result s x.1 x.2.1

omit [DecidableEq T] in
theorem faithful_init : Faithful (initDiskDriver : State T D) :=
  ⟨nofun, nofun⟩

theorem Faithful.app (h : Faithful s) (hinv : Inv s place done) (hf : AppFrame s t s') :
    Faithful s' := by
  have hres : ∀ r x, Result s r x → Result s' r x := by
    rintro r x ⟨sd, hsd⟩
    exact ⟨sd, by rw [hf.device, hsd]⟩
  constructor
  · intro u ph r out hu hret
    rw [hf.status]
    apply hres
    by_cases hut : u = t
    · subst hut
      rcases hf.returned ph r out hu hret with hg | hl
      · have hok := hinv.app_ok u
        rw [hg] at hok
        have hred : place r.v = .request r (some u) := hinv.place_redeem (by rw [hg]; rfl)
        exact ⟨_, hinv.recorded.status r.v r _ hred (hok.2 rfl)⟩
      · exact h.returned u .unlock r out hl rfl
    · rw [hf.others u hut] at hu
      exact h.returned u ph r out hu hret
  · intro x hx
    apply hres
    rcases hf.redeemed with heq | ⟨r, out, ht, heq⟩
    · rw [heq] at hx
      exact h.redeemed x hx
    · rw [heq, List.mem_append, List.mem_singleton] at hx
      rcases hx with hx | rfl
      · exact h.redeemed x hx
      · exact h.returned t .ret r out ht rfl

omit [DecidableEq T] in
theorem Faithful.work (h : Faithful s) (hinv : Inv s place done)
    (hg : Undisturbed s (.work k st)) (hf : WorkFrame s k s') : Faithful s' := by
  have hres : ∀ r x, Result s r x → Result s' r x := by
    rintro r x ⟨sd, hsd⟩
    exact ⟨sd, hf.device _ _ _ hsd⟩
  constructor
  · intro t ph r out ht hret
    rw [hf.app] at ht
    have hown := hres _ _ (h.returned t ph r out ht hret)
    rcases hf.status r.v with heq | ⟨st', hw, heq⟩
    · rwa [heq]
    -- a redeemer that has not unlocked yet keeps the worker out
    · obtain ⟨n, o, -, hok⟩ := hinv.place_worker hw
      have hmute := hinv.app_ok t
      rw [ht] at hmute
      cases ph with
      | unlock => exact nomatch hok.2.1.symm.trans (hmute.1 rfl)
      | ret =>
        have hkeep : st' = (s.voucher r.v).status :=
          hg (r.v, st') (by rw [hw]; rfl) t r (by rw [ht]; rfl) rfl
        rw [heq, hkeep]
        exact hown
      | _ => exact nomatch hret
  · intro x hx
    rw [hf.redeemed] at hx
    exact hres _ _ (h.redeemed x hx)

theorem Faithful.step (h : Faithful s) (hinv : Inv s place done) {a : Action T D}
    (hg : Undisturbed s a) (hs : step s a = some s') : Faithful s' := by
  rcases step_cases hs with ⟨t, -, hf⟩ | ⟨k, st, rfl, hf⟩
  · exact h.app hinv hf
  · exact h.work hinv hg hf

/-- In a run in which no worker stores another status in a voucher between its return to the pool and
the last read of its redeemer, `redeem_voucher` returns what the device operation returned for the
request that the voucher was issued for. -/
theorem redeem_voucher_status {as : List (Action T D)}
    (hg : Guarded step Undisturbed initDiskDriver as) (h : run as = some s) :
    ∀ x ∈ s.redeemed, ∃ sd, (s.accepted x.1.kind)[x.1.index]? = some (x.1.v, sd) ∧
      (s.device x.1.kind)[x.1.index]? = some (x.1.v, sd, x.2.1) := by
  have hstep : ∀ s (a : Action T D) s', ((∃ place done, Inv s place done) ∧ Faithful s) →
      Undisturbed s a → DiskDriver.step s a = some s' →
      (∃ place done, Inv s' place done) ∧ Faithful s' := by
    rintro s a s' ⟨⟨place, done, hinv⟩, hfaith⟩ hg hs
    exact ⟨hinv.step hs, hfaith.step hinv hg hs⟩
  obtain ⟨⟨place, done, hinv⟩, hfaith⟩ := guarded_invariant
    (I := fun s => (∃ place done, Inv s place done) ∧ Faithful s) hstep
    ⟨⟨_, _, inv_init⟩, faithful_init⟩ hg h
  intro x hx
  obtain ⟨sd, hsd⟩ := hfaith.redeemed x hx
  exact ⟨sd, hinv.logged.accepted_of_device hsd, hsd⟩

def writeRedeemed : List (Action Unit Bool) :=
  .submit () .write true (some true) :: List.replicate 5 (.app ()) ++
    List.replicate 8 (.work .write 1) ++ .redeem () ⟨0, .write, 0⟩ :: List.replicate 10 (.app ())

theorem redeem_voucher_status_write : ∃ s, run writeRedeemed = some s ∧ s.redeemed ≠ [] ∧
    ∀ x ∈ s.redeemed, ∃ sd, (s.accepted x.1.kind)[x.1.index]? = some (x.1.v, sd) ∧
      (s.device x.1.kind)[x.1.index]? = some (x.1.v, sd, x.2.1) := by
  have hred : (run writeRedeemed).map State.redeemed =
      some [(⟨0, .write, 0⟩, 1, some (some true))] := by
    decide +kernel
  obtain ⟨s, hs, hred⟩ := Option.map_eq_some_iff.mp hred
  exact ⟨s, hs, by simp [hred], redeem_voucher_status (by decide +kernel) hs⟩

/-- A thread is about to read the status of voucher 0, which it has returned; the other vouchers are
taken by other threads, and voucher 0 is taken again, enqueued, and its write fails. -/
def staleStatus : List (Action ℕ Unit) :=
  .submit 0 .write true (some ()) :: List.replicate 5 (.app 0) ++ List.replicate 8 (.work .write 1) ++
    .redeem 0 ⟨0, .write, 0⟩ :: List.replicate 9 (.app 0) ++
    (List.range 29).flatMap (fun i => [.submit (i + 2) .read true (some ()), .app (i + 2)]) ++
    .submit 1 .write true (some ()) :: List.replicate 5 (.app 1) ++ List.replicate 5 (.work .write 0) ++
    [.app 0]

theorem redeem_voucher_stale : ¬ ∀ (as : List (Action ℕ Unit)) (s : State ℕ Unit),
    run as = some s → ∀ x ∈ s.redeemed, ∃ sd, (s.accepted x.1.kind)[x.1.index]? = some (x.1.v, sd) ∧
      (s.device x.1.kind)[x.1.index]? = some (x.1.v, sd, x.2.1) := by
  intro h
  have hred : (run staleStatus).map State.redeemed = some [(⟨0, .write, 0⟩, 0, some (some ()))] := by
    decide +kernel
  have hdev : (run staleStatus).map (fun s => s.device .write) =
      some [(0, some (), 1), (0, some (), 0)] := by
    decide +kernel
  obtain ⟨s, hs, hred⟩ := Option.map_eq_some_iff.mp hred
  rw [hs, Option.map_some, Option.some.injEq] at hdev
  obtain ⟨sd, -, hsd⟩ := h _ s hs (⟨0, .write, 0⟩, 0, some (some ())) (by simp [hred])
  simp [hdev] at hsd

end CIS415.DiskDriver
