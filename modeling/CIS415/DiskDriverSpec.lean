import CIS415.DiskDriverStep

/-!
# Where the vouchers are

In every state each voucher is in one place: in the buffer of vouchers, with the thread that submits it,
in a queue, with a worker, or redeemable. So none is lost or issued twice, and no buffer is ever found
full.
-/

namespace CIS415.DiskDriver

open Ownership System

variable {T D : Type} {s s' : State T D} {place : VoucherPtr → Place T} {done : Kind → ℕ}

/-- The places a voucher can be in; `redeemable` is with the application or its redeemer, once the
worker has let go of it. -/
inductive Station (T : Type) where
  | vouchBB
  | submitter (t : T)
  | queue (k : Kind)
  | worker (k : Kind)
  | redeemable (r : Request)

def Outstanding (s : State T D) (r : Request) : Prop :=
  r ∈ s.issued ∨ ∃ t, (s.app t).request = some r

def At (s : State T D) : Station T → VoucherPtr → Prop
  | .vouchBB, v => v ∈ s.vouchBB
  | .submitter t, v => (s.app t).voucher = some v
  | .queue k, v => v ∈ s.queue k
  | .worker k, v => ∃ ph, s.worker k = .busy ph v
  | .redeemable r, v => r.v = v ∧ Outstanding s r ∧ r.index < (s.device r.kind).length ∧
      ∀ ph, s.worker r.kind ≠ .busy ph v

theorem Inv.outstanding_iff (h : Inv s place done) {r : Request} :
    Outstanding s r ↔ ∃ o, place r.v = .request r o := by
  constructor
  · rintro (hr | ⟨t, ht⟩)
    · exact ⟨none, (h.owned (.request r none) r.v).mp ⟨rfl, hr⟩⟩
    · exact ⟨some t, h.place_redeem ht⟩
  · rintro ⟨o, ho⟩
    have hr := (h.owned _ _).mpr ho
    cases o with
    | none => exact Or.inl hr.2
    | some t => exact Or.inr ⟨t, hr.2⟩

/-- A voucher in the queue of a worker is out for a request whose turn has not come. -/
theorem Inv.place_queue (h : Inv s place done) {k : Kind} {v : VoucherPtr} (hv : v ∈ s.queue k) :
    ∃ n o, place v = .request ⟨v, k, n⟩ o ∧ (s.device k).length ≤ n := by
  have hpend := h.logged.pending_eq k
  have hin : v ∈ ((s.accepted k).drop (s.device k).length).map Prod.fst := by
    rw [hpend]
    exact List.mem_append_right _ hv
  obtain ⟨x, hx, rfl⟩ := List.mem_map.mp hin
  obtain ⟨i, hi⟩ := List.mem_iff_getElem?.mp hx
  rw [List.getElem?_drop] at hi
  have hd := h.logged.done_eq k
  obtain ⟨o, ho⟩ := h.recorded.out k _ x hi (by omega)
  exact ⟨_, o, ho, by omega⟩

theorem Inv.queue_worker (h : Inv s place done) {k : Kind} {ph : WorkPhase D} {v : VoucherPtr}
    (hw : s.worker k = .busy ph v) : v ∉ s.queue k := by
  intro hv
  obtain ⟨n, o, hp, hok⟩ := h.place_worker hw
  obtain ⟨n', o', hp', hle⟩ := h.place_queue hv
  rw [hp, Place.request.injEq, Request.mk.injEq] at hp'
  obtain ⟨⟨-, -, rfl⟩, -⟩ := hp'
  have hd := h.logged.done_eq k
  have hnd := h.pending_nodup k
  rw [hw] at hd hnd
  -- before the device operation the voucher is pending twice, after it the request is in the log
  cases ph with
  | lock => exact (List.nodup_cons.mp hnd).1 hv
  | readSd => exact (List.nodup_cons.mp hnd).1 hv
  | device sd => exact (List.nodup_cons.mp hnd).1 hv
  | store st =>
    have hn : n = done k := hok.1
    have hlog : (s.device k).length = done k + 1 := hd
    omega
  | complete =>
    have hn : n = done k := hok.1
    have hlog : (s.device k).length = done k + 1 := hd
    omega
  | signal =>
    have hn : n < done k := hok.1
    omega
  | unlock =>
    have hn : n < done k := hok.1
    omega

theorem Inv.at_of_request (h : Inv s place done) {v : VoucherPtr} {r : Request} {o : Option T}
    (hp : place v = .request r o) :
    At s (.queue r.kind) v ∨ At s (.worker r.kind) v ∨ At s (.redeemable r) v := by
  have hrv := place_request h.owned hp
  have hout : Outstanding s r := h.outstanding_iff.mpr ⟨o, hrv ▸ hp⟩
  by_cases hw : ∃ ph, s.worker r.kind = .busy ph v
  · exact Or.inr (Or.inl hw)
  by_cases hlt : r.index < (s.device r.kind).length
  · exact Or.inr (Or.inr ⟨hrv, hout, hlt, not_exists.mp hw⟩)
  · left
    have hacc := (h.recorded.fields v r o hp).1
    have hin : v ∈ ((s.accepted r.kind).drop (s.device r.kind).length).map Prod.fst := by
      apply List.mem_map.mpr
      refine ⟨(v, (s.voucher v).sd), List.mem_iff_getElem?.mpr
        ⟨r.index - (s.device r.kind).length, ?_⟩, rfl⟩
      rw [List.getElem?_drop, Nat.add_sub_of_le (not_lt.mp hlt)]
      exact hacc
    rw [h.logged.pending_eq, List.mem_append] at hin
    rcases hin with hf | hq
    · exfalso
      apply hw
      generalize s.worker r.kind = wpc at hf
      cases wpc with
      | idle => exact absurd hf List.not_mem_nil
      | busy ph w =>
        simp only [WorkerPC.fetched] at hf
        split_ifs at hf
        · exact ⟨ph, by rw [List.mem_singleton.mp hf]⟩
        · exact absurd hf List.not_mem_nil
    · exact hq

/-- The station of a voucher determines its place, as far as that goes. -/
theorem Inv.at_place (h : Inv s place done) {v : VoucherPtr} {p : Station T} (hp : At s p v) :
    (p = .vouchBB ∧ place v = .pool) ∨ (∃ t, p = .submitter t ∧ place v = .submitter t) ∨
      ∃ r o, place v = .request r o ∧
        (p = .queue r.kind ∨ p = .worker r.kind ∨ p = .redeemable r) := by
  cases p with
  | vouchBB => exact Or.inl ⟨rfl, (h.owned .pool v).mp hp⟩
  | submitter t => exact Or.inr (Or.inl ⟨t, rfl, h.place_submit hp⟩)
  | queue k =>
    obtain ⟨n, o, ho, -⟩ := h.place_queue hp
    exact Or.inr (Or.inr ⟨_, o, ho, Or.inl rfl⟩)
  | worker k =>
    obtain ⟨ph, hw⟩ := hp
    obtain ⟨n, o, ho, -⟩ := h.place_worker hw
    exact Or.inr (Or.inr ⟨_, o, ho, Or.inr (Or.inl rfl)⟩)
  | redeemable r =>
    obtain ⟨rfl, hout, -⟩ := hp
    obtain ⟨o, ho⟩ := h.outstanding_iff.mp hout
    exact Or.inr (Or.inr ⟨r, o, ho, Or.inr (Or.inr rfl)⟩)

theorem Inv.at_unique (h : Inv s place done) {v : VoucherPtr} {p q : Station T} (hp : At s p v)
    (hq : At s q v) : p = q := by
  have hqw : ∀ r o, place v = .request r o → At s (.queue r.kind) v → At s (.worker r.kind) v →
      False := by
    rintro r o - hv ⟨ph, hw⟩
    exact h.queue_worker hw hv
  have hqr : ∀ r o, place v = .request r o → At s (.queue r.kind) v → At s (.redeemable r) v →
      False := by
    intro r o ho hv hred
    obtain ⟨n, o', ho', hle⟩ := h.place_queue hv
    rw [ho, Place.request.injEq] at ho'
    have hlt := hred.2.2.1
    rw [ho'.1] at hlt
    exact absurd hlt (not_lt.mpr hle)
  have hwr : ∀ r o, place v = .request r o → At s (.worker r.kind) v → At s (.redeemable r) v →
      False := by
    rintro r o - ⟨ph, hw⟩ hred
    exact hred.2.2.2 ph hw
  rcases h.at_place hp with ⟨rfl, hpl⟩ | ⟨t, rfl, hpl⟩ | ⟨r, o, hpl, hps⟩
  · rcases h.at_place hq with ⟨rfl, hql⟩ | ⟨u, rfl, hql⟩ | ⟨r', o', hql, hqs⟩
    · rfl
    · exact nomatch hpl.symm.trans hql
    · exact nomatch hpl.symm.trans hql
  · rcases h.at_place hq with ⟨rfl, hql⟩ | ⟨u, rfl, hql⟩ | ⟨r', o', hql, hqs⟩
    · exact nomatch hpl.symm.trans hql
    · rw [Place.submitter.inj (hpl.symm.trans hql)]
    · exact nomatch hpl.symm.trans hql
  · rcases h.at_place hq with ⟨rfl, hql⟩ | ⟨u, rfl, hql⟩ | ⟨r', o', hql, hqs⟩
    · exact nomatch hpl.symm.trans hql
    · exact nomatch hpl.symm.trans hql
    · obtain ⟨rfl, -⟩ := Place.request.inj (hpl.symm.trans hql)
      rcases hps with rfl | rfl | rfl <;> rcases hqs with rfl | rfl | rfl
      · rfl
      · exact (hqw r o hpl hp hq).elim
      · exact (hqr r o hpl hp hq).elim
      · exact (hqw r o hpl hq hp).elim
      · rfl
      · exact (hwr r o hpl hp hq).elim
      · exact (hqr r o hpl hq hp).elim
      · exact (hwr r o hpl hq hp).elim
      · rfl

theorem Inv.existsUnique_at (h : Inv s place done) (v : VoucherPtr) : ∃! p, At s p v := by
  have hex : ∃ p, At s p v := by
    cases hv : place v with
    | pool => exact ⟨.vouchBB, (h.owned .pool v).mpr hv⟩
    | submitter t => exact ⟨.submitter t, (h.owned (.submitter t) v).mpr hv⟩
    | request r o =>
      rcases h.at_of_request hv with hq | hw | hr
      · exact ⟨_, hq⟩
      · exact ⟨_, hw⟩
      · exact ⟨_, hr⟩
  obtain ⟨p, hp⟩ := hex
  exact ⟨p, hp, fun q hq => h.at_unique hq hp⟩

variable [DecidableEq T]

/-- In every reachable state each voucher is in exactly one place, once; no two outstanding requests
share a voucher; every buffer has room for one more; and no submit call gives a voucher back. -/
theorem voucher_conservation {as : List (Action T D)} (h : run as = some s) :
    (∀ v, ∃! p, At s p v) ∧ s.vouchBB.Nodup ∧ (∀ k, (s.queue k).Nodup) ∧
      (∀ r r', Outstanding s r → Outstanding s r' → r.v = r'.v → r = r') ∧ s.issued.Nodup ∧
      s.vouchBB.length < vouchSize ∧ (∀ k, (s.queue k).length < size) ∧
      ∀ t v, s.app t ≠ .giveBack v := by
  obtain ⟨place, done, hinv⟩ := inv_run h
  refine ⟨hinv.existsUnique_at, hinv.pool_nodup, ?_, ?_, hinv.issued_nodup, ?_, ?_, ?_⟩
  · intro k
    exact (List.nodup_append.mp (hinv.pending_nodup k)).2.1
  · intro r r' hr hr' hv
    obtain ⟨o, ho⟩ := hinv.outstanding_iff.mp hr
    obtain ⟨o', ho'⟩ := hinv.outstanding_iff.mp hr'
    rw [hv, ho', Place.request.injEq] at ho
    exact ho.1.symm
  · exact lt_of_le_of_lt hinv.pool_length_le (by decide)
  · intro k
    exact lt_of_le_of_lt (hinv.queue_length_le k) (by decide)
  · intro t v ht
    have hok := hinv.app_ok t
    rw [ht] at hok
    exact hok

def writeFetched : List (Action Unit Bool) :=
  [.submit () .write true (some true), .app (), .app (), .app (), .app (), .app (), .work .write 0]

theorem voucher_conservation_write : ∃ s, run writeFetched = some s ∧
    (∀ v, ∃! p, At s p v) ∧ s.vouchBB.Nodup ∧ (∀ k, (s.queue k).Nodup) ∧
      (∀ r r', Outstanding s r → Outstanding s r' → r.v = r'.v → r = r') ∧ s.issued.Nodup ∧
      s.vouchBB.length < vouchSize ∧ (∀ k, (s.queue k).length < size) ∧
      ∀ t v, s.app t ≠ .giveBack v := by
  obtain ⟨s, hs⟩ := Option.isSome_iff_exists.mp (by decide : (run writeFetched).isSome)
  exact ⟨s, hs, voucher_conservation hs⟩

end CIS415.DiskDriver
